import ShaderMinifier.Proofs.Item.Skeleton

/-
  Dropping dead functions once more. As long as a prototype is there, what its parameters call is
  live, even if the function that it declares is dead. The prototype goes and takes its calls with
  it, so what can be reached from such calls alone is dead the next time. This is the only way in
  which a second run finds something to drop.
-/

namespace ShaderMinifier

namespace Item

variable {keep : FunctionKey → Bool}

theorem retainList_cons_eq_self {item : Item} (h : item.isConditional = false)
    (hitem : item.isRetained keep = true) {items : List Item}
    (hitems : retainList keep items = items) :
    retainList keep (item :: items) = item :: items := by
  rw [retainList_cons h, if_pos hitem, hitems]

mutual

theorem retainList_eq_self : (items : List Item) →
    (∀ item ∈ listLeaves items, item.isRetained keep = true) → retainList keep items = items
  | [], _ => by rw [retainList]
  | .conditional kind condition body rest :: items, h => by
    rw [listLeaves, leaves, List.forall_mem_append, List.forall_mem_append] at h
    rw [retainList, retainList_eq_self body h.1.1, retainBranches_eq_self rest h.1.2,
      retainList_eq_self items h.2]
  | .directive _ :: items, h | .precision _ _ :: items, h | .invariant _ :: items, h
  | .declaration _ :: items, h | .prototype _ :: items, h | .function _ _ :: items, h => by
    rw [listLeaves, leaves_eq_singleton rfl, List.singleton_append, List.forall_mem_cons] at h
    exact retainList_cons_eq_self rfl h.1 (retainList_eq_self items h.2)

theorem retainBranches_eq_self : (rest : Branches) →
    (∀ item ∈ branchLeaves rest, item.isRetained keep = true) → retainBranches keep rest = rest
  | .done, _ => by rw [retainBranches]
  | .otherwise body, h => by rw [retainBranches, retainList_eq_self body h]
  | .elif condition body rest, h => by
    rw [branchLeaves, List.forall_mem_append] at h
    rw [retainBranches, retainList_eq_self body h.1, retainBranches_eq_self rest h.2]

end

end Item

namespace Shader

variable {shader : Shader} {key : FunctionKey}

/-- The functions that a shader declares or defines, in whatever branch; those that `removeDead` can
drop. -/
def declaredFunctions (shader : Shader) : List FunctionKey :=
  shader.leaves.filterMap fun item => item.signature?.map FunctionKey.ofPrototype

theorem mem_declaredFunctions : key ∈ shader.declaredFunctions ↔
    ∃ item ∈ shader.leaves, ∃ signature, item.signature? = some signature ∧
      .ofPrototype signature = key := by
  simp only [declaredFunctions, List.mem_filterMap, Option.map_eq_some_iff]

/-- An item `isRetained` by `isKept` unless it declares a `Dead` function. -/
theorem isRetained_iff {item : Item} : item.isRetained (isKept shader.liveFunctions) = true ↔
    ∀ signature, item.signature? = some signature → ¬ shader.Dead (.ofPrototype signature) := by
  cases hsignature : item.signature? with
  | none => simp [Item.isRetained, hsignature]
  | some signature => simp [Item.isRetained, hsignature, dead_iff]

theorem mem_leaves_removeDead {item : Item} : item ∈ shader.removeDead.leaves ↔
    item ∈ shader.leaves ∧
      ∀ signature, item.signature? = some signature → ¬ shader.Dead (.ofPrototype signature) := by
  rw [leaves_removeDead, List.mem_filter, isRetained_iff]

theorem mem_declaredFunctions_removeDead : key ∈ shader.removeDead.declaredFunctions ↔
    key ∈ shader.declaredFunctions ∧ ¬ shader.Dead key := by
  simp only [mem_declaredFunctions, mem_leaves_removeDead]
  constructor
  · rintro ⟨item, ⟨hitem, hlive⟩, signature, hsignature, rfl⟩
    exact ⟨⟨item, hitem, signature, hsignature, rfl⟩, hlive signature hsignature⟩
  · rintro ⟨⟨item, hitem, signature, hsignature, rfl⟩, hlive⟩
    refine ⟨item, ⟨hitem, fun signature' hsignature' => ?_⟩, signature, hsignature, rfl⟩
    rw [hsignature] at hsignature'
    obtain rfl := Option.some.inj hsignature'
    exact hlive

theorem removeDead_eq_self_iff :
    shader.removeDead = shader ↔ ∀ key ∈ shader.declaredFunctions, ¬ shader.Dead key := by
  constructor
  · intro h key hkey
    rw [← h, mem_declaredFunctions_removeDead] at hkey
    exact hkey.2
  · intro h
    refine congrArg Shader.mk (Item.retainList_eq_self _ fun item hitem => ?_)
    exact isRetained_iff.2 fun signature hsignature =>
      h _ (mem_declaredFunctions.2 ⟨item, hitem, signature, hsignature, rfl⟩)

theorem function_mem_removeDead {signature : Prototype} {body : List Statement}
    (hitem : .function signature body ∈ shader.leaves)
    (h : shader.Reached (.ofPrototype signature)) :
    .function signature body ∈ shader.removeDead.leaves := by
  refine mem_leaves_removeDead.2 ⟨hitem, fun signature' hsignature hdead => ?_⟩
  obtain rfl := Option.some.inj hsignature
  exact hdead.1 h

theorem definesMain_removeDead (h : shader.DefinesMain) : shader.removeDead.DefinesMain := by
  obtain ⟨signature, body, hitem, hname⟩ := h
  exact ⟨signature, body, function_mem_removeDead hitem (.main hitem hname), hname⟩

/-- Calls lead to the function from the prototype of a `Dead` function. Such calls count as made
outside every function while the prototype is there. -/
inductive CalledFromDead (shader : Shader) : FunctionKey → Prop
  | prototype {signature : Prototype} {key : FunctionKey}
      (hitem : .prototype signature ∈ shader.leaves)
      (hdead : shader.Dead (.ofPrototype signature))
      (hcall : key ∈ CallGraph.callees (.prototype signature)) : CalledFromDead shader key
  | call {signature : Prototype} {body : List Statement} {key : FunctionKey}
      (hitem : .function signature body ∈ shader.leaves)
      (hcaller : CalledFromDead shader (.ofPrototype signature))
      (hcall : key ∈ CallGraph.callees (.function signature body)) : CalledFromDead shader key

theorem CalledFromDead.reached (h : shader.CalledFromDead key) : shader.Reached key := by
  induction h with
  | prototype hitem _ hcall => exact .outer hitem hcall
  | call hitem _ hcall ih => exact .call hitem ih hcall

/-- What can be `Reached` can still be reached after `removeDead`, or calls lead to it from a
prototype that is gone (`CalledFromDead`). -/
theorem Reached.removeDead_or (h : shader.Reached key) :
    shader.removeDead.Reached key ∨ shader.CalledFromDead key := by
  induction h with
  | main hitem hname =>
    exact .inl (.main (function_mem_removeDead hitem (.main hitem hname)) hname)
  | seen hitem hname =>
    refine .inl (.seen (function_mem_removeDead hitem (.seen hitem hname)) ?_)
    rwa [directiveWords_congr shader.skeleton_removeDead]
  | @outer item key hitem hcall =>
    by_cases hlive : ∀ signature, item.signature? = some signature →
        ¬ shader.Dead (.ofPrototype signature)
    · exact .inl (.outer (mem_leaves_removeDead.2 ⟨hitem, hlive⟩) hcall)
    · push Not at hlive
      obtain ⟨signature, hsignature, hdead⟩ := hlive
      -- Of what is dropped, only prototypes make calls outside functions.
      cases item with
      | prototype signature' =>
        obtain rfl := Option.some.inj hsignature
        exact .inr (.prototype hitem hdead hcall)
      | function _ _ => cases hcall
      | directive _ | conditional _ _ _ _ | precision _ _ | invariant _ | declaration _ =>
        cases hsignature
  | call hitem hcaller hcall ih =>
    obtain hreached | hcalled := ih
    · exact .inl (.call (function_mem_removeDead hitem hcaller) hreached hcall)
    · exact .inr (.call hitem hcalled hcall)

/-- A function of the shader that is called, directly or not, from the prototype of a dead function
(`CalledFromDead`) is not dead either when that prototype is gone. -/
def SparesCallees (shader : Shader) : Prop :=
  ∀ key ∈ shader.declaredFunctions, shader.CalledFromDead key → ¬ shader.removeDead.Dead key

theorem removeDead_removeDead_iff :
    shader.removeDead.removeDead = shader.removeDead ↔ shader.SparesCallees := by
  simp only [removeDead_eq_self_iff, mem_declaredFunctions_removeDead, and_imp]
  constructor
  · intro h key hkey hcalled
    exact h key hkey fun hdead => hdead.1 hcalled.reached
  · intro h key hkey hlive hdead
    have hreached : shader.Reached key := by
      by_contra hreached
      exact hlive ⟨hreached, hdead.2⟩
    obtain hstill | hcalled := hreached.removeDead_or
    · exact hdead.1 hstill
    · exact h key hkey hcalled hdead

theorem sparesCallees_of_liveFunctions
    (h : ∀ key ∈ shader.liveFunctions, key ∈ shader.removeDead.liveFunctions) :
    shader.SparesCallees := by
  intro key _ hcalled hdead
  exact hdead.1 (mem_liveFunctions.1 (h key (mem_liveFunctions.2 hcalled.reached)))

/-- A function `g` for the size of an array. -/
def sizeFunction : Item :=
  .function ⟨⟨none, none, .named "int"⟩, "g", []⟩ [.returnValue (some (.int 1))]

/-- A function `f` that nothing defines or calls takes an array of the size that `g` gives. -/
def sizedPrototype : Item :=
  .prototype ⟨⟨none, none, .named "void"⟩, "f",
    [⟨false, none, none, "float", some "x", some (.call "g" [])⟩]⟩

/-- `main` with what it does. -/
def mainFunction (body : List Statement) : Item :=
  .function ⟨⟨none, none, .named "void"⟩, "main", []⟩ body

end Shader

namespace Program

variable {program result : Program}

/-- A second `removeDeadFunctions` changes nothing exactly if no function of a stage depends on the
prototypes that the first run dropped (`SparesCallees`). -/
theorem removeDeadFunctions_repeat (h : program.removeDeadFunctions.result = .ok result) :
    result.removeDeadFunctions.result = .ok result ↔
      ∀ stage shader, program.shader? stage = some shader → shader.SparesCallees := by
  obtain ⟨vertex, fragment, rfl, rfl⟩ := removeDeadFunctions_eq_ok h
  obtain ⟨hvertex, hfragment⟩ := definesMain_of_removeDeadFunctions h
  rw [result_removeDeadFunctions (Shader.definesMain_removeDead hvertex)
    (Shader.definesMain_removeDead hfragment), Except.ok.injEq, Program.mk.injEq,
    Option.some.injEq, Option.some.injEq, Shader.removeDead_removeDead_iff,
    Shader.removeDead_removeDead_iff]
  constructor
  · rintro ⟨hspares, hspares'⟩ (_ | _) shader hshader
    · cases hshader
      exact hspares
    · cases hshader
      exact hspares'
  · intro hspares
    exact ⟨hspares .vertex vertex rfl, hspares .fragment fragment rfl⟩

/-- What the dropped prototype calls is called by `main` too, so the second run changes nothing. -/
theorem removeDeadFunctions_repeat_called :
    ∃ before after, Shader.parse
        "int g()\x7breturn 1;\x7dvoid f(float x[g()]);void main()\x7bg();\x7d" .vertex =
        .ok before ∧
      (removeDeadFunctions ⟨some before, some Shader.idle⟩).result =
        .ok ⟨some after, some Shader.idle⟩ ∧
      Shader.sizedPrototype ∈ before.leaves ∧ Shader.sizedPrototype ∉ after.leaves ∧
      (removeDeadFunctions ⟨some after, some Shader.idle⟩).result =
        .ok ⟨some after, some Shader.idle⟩ := by
  let main := Shader.mainFunction [.simple (.expression (some (.call "g" [])))]
  let before : Shader := ⟨[Shader.sizeFunction, Shader.sizedPrototype, main]⟩
  let after : Shader := ⟨[Shader.sizeFunction, main]⟩
  have hlive : before.liveFunctions = [⟨"main", 0⟩, ⟨"g", 0⟩] := by cbv
  have hagain : after.liveFunctions = [⟨"main", 0⟩, ⟨"g", 0⟩] := by cbv
  have hafter : before.removeDead = after := Shader.removeDead_eq hlive
  have hresult := result_removeDeadFunctions (Shader.hasMain_iff.1 (rfl :
    (CallGraph.ofShader before).hasMain = true)) Shader.definesMain_idle
  rw [hafter, Shader.removeDead_idle] at hresult
  refine ⟨before, after, by decide +kernel, hresult, by decide, by decide,
    (removeDeadFunctions_repeat hresult).2 ?_⟩
  rintro (_ | _) shader hshader <;> cases hshader <;>
    refine Shader.sparesCallees_of_liveFunctions ?_
  · rw [hafter, hlive, hagain]
    exact fun _ hkey => hkey
  · rw [Shader.removeDead_idle]
    exact fun _ hkey => hkey

/-- What only the dropped prototype calls, `g`, goes with the second run: `removeDeadFunctions` is
not idempotent. -/
theorem removeDeadFunctions_drops_again :
    ∃ before after, Shader.parse
        "int g()\x7breturn 1;\x7dvoid f(float x[g()]);void main()\x7b\x7d" .vertex = .ok before ∧
      (removeDeadFunctions ⟨some before, some Shader.idle⟩).result =
        .ok ⟨some after, some Shader.idle⟩ ∧
      after ≠ Shader.idle ∧
      (removeDeadFunctions ⟨some after, some Shader.idle⟩).result =
        .ok ⟨some Shader.idle, some Shader.idle⟩ := by
  let before : Shader := ⟨[Shader.sizeFunction, Shader.sizedPrototype, Shader.mainFunction []]⟩
  let after : Shader := ⟨[Shader.sizeFunction, Shader.mainFunction []]⟩
  have hlive : before.liveFunctions = [⟨"main", 0⟩, ⟨"g", 0⟩] := by cbv
  have hagain : after.liveFunctions = [⟨"main", 0⟩] := by cbv
  have hbefore : before.DefinesMain := Shader.hasMain_iff.1 rfl
  have hafter : after.DefinesMain := Shader.hasMain_iff.1 rfl
  refine ⟨before, after, by decide +kernel, ?_, by decide, ?_⟩
  · rw [result_removeDeadFunctions hbefore Shader.definesMain_idle, Shader.removeDead_eq hlive,
      Shader.removeDead_idle]
    rfl
  · rw [result_removeDeadFunctions hafter Shader.definesMain_idle, Shader.removeDead_eq hagain,
      Shader.removeDead_idle]
    rfl

end Program

end ShaderMinifier
