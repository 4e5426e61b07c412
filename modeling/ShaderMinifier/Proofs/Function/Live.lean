import ShaderMinifier.Proofs.Function.Reachability
import ShaderMinifier.Proofs.Program.Pass

/-
  What dropping dead functions leaves. A function is dead if it cannot be reached and does not
  overload a built-in one; its definitions and prototypes go, in every branch, and all else stays
  as it is and where it is. What is called from a place that can be reached stays whole. The one
  way to lose a callee is a definition that is kept for its name alone: what it calls is not
  followed.
-/

namespace ShaderMinifier

namespace Item

/-- The item is a `conditional`, the one kind that `retainList` treats apart. -/
def isConditional : Item → Bool
  | conditional _ _ _ _ => true
  | _ => false

mutual

/-- The second list is the first without the definitions and prototypes of `dead` functions, also in
the branches of conditionals. Nothing else changes; stated without `retainList`. -/
inductive Prunes (dead : FunctionKey → Prop) : List Item → List Item → Prop
  | nil : Prunes dead [] []
  | conditional {kind : ConditionalKind} {condition : String} {body body' : List Item}
      {rest rest' : Branches} {items items' : List Item} (hbody : Prunes dead body body')
      (hrest : PrunesBranches dead rest rest') (hitems : Prunes dead items items') :
    Prunes dead (.conditional kind condition body rest :: items)
      (.conditional kind condition body' rest' :: items')
  | drop {item : Item} {signature : Prototype} {items items' : List Item}
      (hsignature : item.signature? = some signature) (hdead : dead (.ofPrototype signature))
      (hitems : Prunes dead items items') : Prunes dead (item :: items) items'
  | keep {item : Item} {items items' : List Item} (hitem : item.isConditional = false)
      (hlive : ∀ signature, item.signature? = some signature → ¬ dead (.ofPrototype signature))
      (hitems : Prunes dead items items') : Prunes dead (item :: items) (item :: items')

/-- `Prunes` for what follows a branch of a conditional: no branch is lost. -/
inductive PrunesBranches (dead : FunctionKey → Prop) : Branches → Branches → Prop
  | done : PrunesBranches dead .done .done
  | otherwise {body body' : List Item} (hbody : Prunes dead body body') :
    PrunesBranches dead (.otherwise body) (.otherwise body')
  | elif {condition : String} {body body' : List Item} {rest rest' : Branches}
      (hbody : Prunes dead body body') (hrest : PrunesBranches dead rest rest') :
    PrunesBranches dead (.elif condition body rest) (.elif condition body' rest')

end

variable {keep : FunctionKey → Bool} {dead : FunctionKey → Prop}

/-- The item is to be kept: it is no function or prototype, or that of a function with `keep`. The
test in `retainList`. -/
def isRetained (keep : FunctionKey → Bool) (item : Item) : Bool :=
  item.signature?.all fun signature => keep (.ofPrototype signature)

theorem retainList_cons {item : Item} (h : item.isConditional = false) (items : List Item) :
    retainList keep (item :: items) =
      if item.isRetained keep then item :: retainList keep items else retainList keep items := by
  cases item with
  | conditional _ _ _ _ => cases h
  | directive _ | precision _ _ | invariant _ | declaration _ | prototype _ | function _ _ =>
    rw [retainList]
    · rfl
    · simp

theorem leaves_eq_singleton {item : Item} (h : item.isConditional = false) :
    item.leaves = [item] := by
  cases item with
  | conditional _ _ _ _ => cases h
  | directive _ | precision _ _ | invariant _ | declaration _ | prototype _ | function _ _ =>
    simp only [leaves]

theorem prunes_retainList_cons (hdead : ∀ key, dead key ↔ keep key = false) {item : Item}
    (h : item.isConditional = false) {items : List Item}
    (hitems : Prunes dead items (retainList keep items)) :
    Prunes dead (item :: items) (retainList keep (item :: items)) := by
  rw [retainList_cons h]
  cases hsignature : item.signature? with
  | none =>
    rw [if_pos (by simp [isRetained, hsignature])]
    exact .keep h (by simp [hsignature]) hitems
  | some signature =>
    by_cases hkeep : keep (.ofPrototype signature) = true
    · rw [if_pos (by simpa [isRetained, hsignature] using hkeep)]
      exact .keep h (by simpa [hsignature, hdead] using hkeep) hitems
    · rw [if_neg (by simpa [isRetained, hsignature] using hkeep)]
      exact .drop hsignature (by simpa [hdead] using hkeep) hitems

mutual

theorem prunes_retainList (hdead : ∀ key, dead key ↔ keep key = false) :
    ∀ items, Prunes dead items (retainList keep items)
  | [] => by
    rw [retainList]
    exact .nil
  | .conditional kind condition body rest :: items => by
    rw [retainList]
    exact .conditional (prunes_retainList hdead body) (prunes_retainBranches hdead rest)
      (prunes_retainList hdead items)
  | .directive _ :: items | .precision _ _ :: items | .invariant _ :: items
  | .declaration _ :: items | .prototype _ :: items | .function _ _ :: items =>
    prunes_retainList_cons hdead rfl (prunes_retainList hdead items)

theorem prunes_retainBranches (hdead : ∀ key, dead key ↔ keep key = false) :
    ∀ rest, PrunesBranches dead rest (retainBranches keep rest)
  | .done => by
    rw [retainBranches]
    exact .done
  | .otherwise body => by
    rw [retainBranches]
    exact .otherwise (prunes_retainList hdead body)
  | .elif _ body rest => by
    rw [retainBranches]
    exact .elif (prunes_retainList hdead body) (prunes_retainBranches hdead rest)

end

theorem listLeaves_retainList_cons {item : Item} (h : item.isConditional = false)
    {items : List Item}
    (hitems : listLeaves (retainList keep items) = (listLeaves items).filter (isRetained keep)) :
    listLeaves (retainList keep (item :: items)) =
      (listLeaves (item :: items)).filter (isRetained keep) := by
  rw [retainList_cons h, listLeaves, leaves_eq_singleton h, List.singleton_append,
    List.filter_cons, ← hitems]
  split
  · rw [listLeaves, leaves_eq_singleton h, List.singleton_append]
  · rfl

mutual

theorem listLeaves_retainList : ∀ items : List Item,
    listLeaves (retainList keep items) = (listLeaves items).filter (isRetained keep)
  | [] => by simp only [retainList, listLeaves, List.filter_nil]
  | .conditional kind condition body rest :: items => by
    simp only [retainList, listLeaves, leaves, List.filter_append, listLeaves_retainList body,
      branchLeaves_retainBranches rest, listLeaves_retainList items]
  | .directive _ :: items | .precision _ _ :: items | .invariant _ :: items
  | .declaration _ :: items | .prototype _ :: items | .function _ _ :: items =>
    listLeaves_retainList_cons rfl (listLeaves_retainList items)

theorem branchLeaves_retainBranches : ∀ rest : Branches,
    branchLeaves (retainBranches keep rest) = (branchLeaves rest).filter (isRetained keep)
  | .done => by simp only [retainBranches, branchLeaves, List.filter_nil]
  | .otherwise body => by simp only [retainBranches, branchLeaves, listLeaves_retainList body]
  | .elif _ body rest => by
    simp only [retainBranches, branchLeaves, List.filter_append, listLeaves_retainList body,
      branchLeaves_retainBranches rest]

end

end Item

namespace Shader

variable {shader : Shader} {key : FunctionKey}

/-- A shader that does nothing, with a `main` so that `removeDeadFunctions` accepts it; the fragment
stage of the examples. -/
def idle : Shader := ⟨[.function ⟨⟨none, none, .named "void"⟩, "main", []⟩ []]⟩

theorem definesMain_idle : idle.DefinesMain := ⟨_, _, List.mem_singleton_self _, rfl⟩

/-- The shader without its dead functions, with the search for `liveFunctions` done. -/
theorem removeDead_eq {live : List FunctionKey} (h : shader.liveFunctions = live) :
    shader.removeDead = ⟨Item.retainList (isKept live) shader.items⟩ := by
  rw [removeDead, h]

theorem removeDead_idle : idle.removeDead = idle := by
  have hlive : idle.liveFunctions = [⟨"main", 0⟩] := by cbv
  rw [removeDead_eq hlive]
  rfl

/-- A dead function `f` has a parameter whose size is the result of a call of `g`. -/
def sizedByCall : Shader := ⟨[
  .function ⟨⟨none, none, .named "int"⟩, "g", []⟩ [.returnValue (some (.int 1))],
  .function ⟨⟨none, none, .named "void"⟩, "f",
    [⟨false, none, none, "float", some "x", some (.call "g" [])⟩]⟩ [],
  .function ⟨⟨none, none, .named "void"⟩, "main", []⟩ []]⟩

/-- Of two functions, `main` calls `f` and not `h`. -/
def callingOne : Shader := ⟨[
  .function ⟨⟨none, none, .named "float"⟩, "f", []⟩ [.returnValue (some (.float ⟨"1."⟩))],
  .function ⟨⟨none, none, .named "void"⟩, "h", []⟩ [],
  .function ⟨⟨none, none, .named "void"⟩, "main", []⟩
    [.simple (.expression (some (.call "f" [])))]]⟩

/-- A function that overloads the built-in `sin`, and that nothing calls, calls another one, `f`. -/
def overloadingSin : Shader := ⟨[
  .function ⟨⟨none, none, .named "float"⟩, "f", []⟩ [.returnValue (some (.float ⟨"1."⟩))],
  .function ⟨⟨none, none, .named "float"⟩, "sin",
    [⟨false, none, none, "float", some "x", none⟩]⟩ [.returnValue (some (.call "f" []))],
  .function ⟨⟨none, none, .named "void"⟩, "main", []⟩ []]⟩

/-- The function cannot be reached (`Reached`) and does not overload a built-in one, so `removeDead`
drops it. -/
def Dead (shader : Shader) (key : FunctionKey) : Prop :=
  ¬ shader.Reached key ∧ Word.isBuiltinFunction key.name = false

theorem dead_iff : shader.Dead key ↔ isKept shader.liveFunctions key = false := by
  rw [Dead, ← mem_liveFunctions, isKept, Bool.or_eq_false_iff, List.contains_eq_mem,
    decide_eq_false_iff_not]

theorem isKept_iff : isKept shader.liveFunctions key = true ↔
    shader.Reached key ∨ Word.isBuiltinFunction key.name = true := by
  rw [isKept, Bool.or_eq_true, ← mem_liveFunctions, List.contains_iff_mem]

theorem leaves_removeDead : shader.removeDead.leaves =
    shader.leaves.filter (Item.isRetained (isKept shader.liveFunctions)) :=
  Item.listLeaves_retainList shader.items

/-- The definitions of a function, in every branch; prototypes are none. -/
def definitionsOf (shader : Shader) (key : FunctionKey) : List Item :=
  shader.leaves.filter fun
    | .function signature _ => FunctionKey.ofPrototype signature == key
    | _ => false

/-- Every function that the item calls (`callees`) has all its definitions left. -/
def KeepsCallees (before after : Shader) (item : Item) : Prop :=
  ∀ key ∈ CallGraph.callees item, after.definitionsOf key = before.definitionsOf key

instance (before after : Shader) (item : Item) : Decidable (KeepsCallees before after item) :=
  inferInstanceAs (Decidable (∀ key ∈ CallGraph.callees item, _))

theorem definitionsOf_removeDead (h : shader.Reached key) :
    shader.removeDead.definitionsOf key = shader.definitionsOf key := by
  rw [definitionsOf, leaves_removeDead, List.filter_filter]
  refine List.filter_congr fun item _ => ?_
  cases item with
  | function signature body =>
    by_cases hkey : FunctionKey.ofPrototype signature = key
    · simp [Item.isRetained, Item.signature?, hkey, isKept_iff.2 (.inl h)]
    · simp [hkey]
  | directive _ | conditional _ _ _ _ | precision _ _ | invariant _ | declaration _
  | prototype _ => rfl

/-- What an item calls can be `Reached`, unless the item defines a function that cannot. -/
theorem reached_of_mem_callees {item : Item} (hitem : item ∈ shader.leaves)
    (hreached : ∀ signature body, item = .function signature body →
      shader.Reached (.ofPrototype signature))
    (hkey : key ∈ CallGraph.callees item) : shader.Reached key := by
  cases item with
  | function signature body => exact .call hitem (hreached signature body rfl) hkey
  | directive _ | conditional _ _ _ _ | precision _ _ | invariant _ | declaration _
  | prototype _ => exact .outer hitem hkey

/-- A definition that `removeDead` leaves is that of a function that can be reached or of one that
overloads a built-in function. -/
theorem isBuiltin_of_mem_removeDead {signature : Prototype} {body : List Statement}
    (hitem : .function signature body ∈ shader.removeDead.leaves)
    (hreached : ¬ shader.Reached (.ofPrototype signature)) :
    Word.isBuiltinFunction signature.name = true := by
  rw [leaves_removeDead, List.mem_filter] at hitem
  have hkept : isKept shader.liveFunctions (.ofPrototype signature) = true := hitem.2
  exact (isKept_iff.1 hkept).resolve_left hreached

/-- What `removeDead` leaves keeps all that it calls (`KeepsCallees`), unless it is left for its
built-in name alone. -/
theorem keepsCallees_or_builtin {item : Item} (hitem : item ∈ shader.removeDead.leaves) :
    KeepsCallees shader shader.removeDead item ∨
      ∃ signature body, item = .function signature body ∧
        Word.isBuiltinFunction signature.name = true ∧
        ¬ shader.Reached (.ofPrototype signature) := by
  have hmem : item ∈ shader.leaves := by
    rw [leaves_removeDead] at hitem
    exact List.mem_of_mem_filter hitem
  by_cases hunreached : ∃ signature body, item = .function signature body ∧
      ¬ shader.Reached (.ofPrototype signature)
  · obtain ⟨signature, body, rfl, hsignature⟩ := hunreached
    exact .inr ⟨signature, body, rfl, isBuiltin_of_mem_removeDead hitem hsignature, hsignature⟩
  · refine .inl fun key hkey => definitionsOf_removeDead (reached_of_mem_callees hmem ?_ hkey)
    intro signature body hitem
    by_contra hsignature
    exact hunreached ⟨signature, body, hitem, hsignature⟩

end Shader

namespace Program

open Logged

variable {program result : Program} {vertex fragment : Shader}

theorem result_removeDeadFunctions (hvertex : vertex.DefinesMain)
    (hfragment : fragment.DefinesMain) :
    (removeDeadFunctions ⟨some vertex, some fragment⟩).result =
      .ok ⟨some vertex.removeDead, some fragment.removeDead⟩ := by
  apply result_mapStages
  · rw [if_pos (Shader.hasMain_iff.2 hvertex), result_tell_bind, result_pure]
  · rw [if_pos (Shader.hasMain_iff.2 hfragment), result_tell_bind, result_pure]

theorem removeDead_of_result {stage : Stage} {shader shader' : Shader}
    (h : (if (CallGraph.ofShader shader).hasMain then do
        Logged.tell (shader.deadFunctions.map (.removed stage))
        return shader.removeDead
      else Logged.ofResult (.error (.noMain stage))).result = .ok shader') :
    shader.DefinesMain ∧ shader' = shader.removeDead := by
  split at h
  case isTrue hmain =>
    rw [result_tell_bind, result_pure] at h
    exact ⟨Shader.hasMain_iff.1 hmain, (Except.ok.inj h).symm⟩
  case isFalse => cases h

theorem definesMain_of_removeDeadFunctions
    (h : (removeDeadFunctions ⟨some vertex, some fragment⟩).result = .ok result) :
    vertex.DefinesMain ∧ fragment.DefinesMain := by
  obtain ⟨_, _, _, _, hprogram, _, hvertex, hfragment⟩ := mapStages_eq_ok h
  cases hprogram
  exact ⟨(removeDead_of_result hvertex).1, (removeDead_of_result hfragment).1⟩

theorem removeDeadFunctions_eq_ok (h : program.removeDeadFunctions.result = .ok result) :
    ∃ vertex fragment, program = ⟨some vertex, some fragment⟩ ∧
      result = ⟨some vertex.removeDead, some fragment.removeDead⟩ := by
  obtain ⟨vertex, fragment, vertex', fragment', rfl, rfl, hvertex, hfragment⟩ :=
    mapStages_eq_ok h
  rw [(removeDead_of_result hvertex).2, (removeDead_of_result hfragment).2]
  exact ⟨vertex, fragment, rfl, rfl⟩

/-- `removeDeadFunctions` drops exactly the functions that are `Dead`, in every branch, and leaves
everything else in its place (`Prunes`). -/
theorem removeDeadFunctions_prunes (hvertex : vertex.DefinesMain)
    (hfragment : fragment.DefinesMain) :
    ∃ vertex' fragment', (removeDeadFunctions ⟨some vertex, some fragment⟩).result =
        .ok ⟨some vertex', some fragment'⟩ ∧
      Item.Prunes vertex.Dead vertex.items vertex'.items ∧
      Item.Prunes fragment.Dead fragment.items fragment'.items :=
  ⟨_, _, result_removeDeadFunctions hvertex hfragment,
    Item.prunes_retainList (fun _ => Shader.dead_iff) _,
    Item.prunes_retainList (fun _ => Shader.dead_iff) _⟩

/-- The definition of a dead function goes from one branch, its prototype from the other:
`removeDeadFunctions_prunes` on a conditional. -/
theorem removeDeadFunctions_prunes_branch :
    ∃ vertex, Shader.parse
        "#ifdef A\nvoid f()\x7b\x7d\n#else\nvoid f();\n#endif\nvoid main()\x7b\x7d" .vertex =
          .ok vertex ∧
      vertex.DefinesMain ∧ Shader.idle.DefinesMain ∧
      ∃ vertex' fragment', (removeDeadFunctions ⟨some vertex, some Shader.idle⟩).result =
          .ok ⟨some vertex', some fragment'⟩ ∧
        Item.Prunes vertex.Dead vertex.items vertex'.items ∧
        Item.Prunes Shader.idle.Dead Shader.idle.items fragment'.items := by
  have hmain : Shader.DefinesMain ⟨[.conditional .ifDefined "A"
      [.function ⟨⟨none, none, .named "void"⟩, "f", []⟩ []]
      (.otherwise [.prototype ⟨⟨none, none, .named "void"⟩, "f", []⟩]),
      .function ⟨⟨none, none, .named "void"⟩, "main", []⟩ []]⟩ :=
    Shader.hasMain_iff.1 rfl
  exact ⟨_, by decide +kernel, hmain, Shader.definesMain_idle,
    removeDeadFunctions_prunes hmain Shader.definesMain_idle⟩

/-- A call in the parameters of a definition belongs to the function that is defined: what only a
dead function calls there goes with it, though `callees` of the prototype has it. -/
theorem removeDeadFunctions_drops_callee_of_parameters :
    Shader.parse "int g()\x7breturn 1;\x7dvoid f(float x[g()])\x7b\x7dvoid main()\x7b\x7d" .vertex =
        .ok Shader.sizedByCall ∧
      (∃ signature body, .function signature body ∈ Shader.sizedByCall.leaves ∧
        ⟨"g", 0⟩ ∈ CallGraph.callees (.prototype signature)) ∧
      Shader.sizedByCall.definitionsOf ⟨"g", 0⟩ ≠ [] ∧
      (removeDeadFunctions ⟨some Shader.sizedByCall, some Shader.idle⟩).result =
        .ok ⟨some Shader.idle, some Shader.idle⟩ := by
  refine ⟨by decide +kernel, ⟨⟨⟨none, none, .named "void"⟩, "f",
    [⟨false, none, none, "float", some "x", some (.call "g" [])⟩]⟩, [], ?_, ?_⟩, ?_, ?_⟩
  · decide
  · decide
  · decide
  · have hlive : Shader.sizedByCall.liveFunctions = [⟨"main", 0⟩] := by cbv
    rw [result_removeDeadFunctions (Shader.hasMain_iff.1 rfl) Shader.definesMain_idle,
      Shader.removeDead_eq hlive, Shader.removeDead_idle]
    rfl

/-- Whatever is left after `removeDeadFunctions` has all that it calls (`KeepsCallees`), unless it
is the definition of a function that cannot be reached and is left for its built-in name. -/
theorem removeDeadFunctions_keepsCallees (h : program.removeDeadFunctions.result = .ok result)
    (stage : Stage) {before after : Shader} (hbefore : program.shader? stage = some before)
    (hafter : result.shader? stage = some after) :
    ∀ item ∈ after.leaves, Shader.KeepsCallees before after item ∨
      ∃ signature body, item = .function signature body ∧
        Word.isBuiltinFunction signature.name = true ∧
        ¬ before.Reached (.ofPrototype signature) := by
  obtain ⟨vertex, fragment, rfl, rfl⟩ := removeDeadFunctions_eq_ok h
  intro item hitem
  cases stage with
  | vertex | fragment =>
    cases hbefore
    cases hafter
    exact Shader.keepsCallees_or_builtin hitem

/-- A dead function `h` goes, and `main` keeps `f`, which it calls. -/
theorem removeDeadFunctions_keepsCallees_main :
    ∃ after, Shader.parse
        "float f()\x7breturn 1.;\x7dvoid h()\x7b\x7dvoid main()\x7bf();\x7d" .vertex =
          .ok Shader.callingOne ∧
      (removeDeadFunctions ⟨some Shader.callingOne, some Shader.idle⟩).result =
        .ok ⟨some after, some Shader.idle⟩ ∧
      Shader.callingOne.definitionsOf ⟨"h", 0⟩ ≠ [] ∧ after.definitionsOf ⟨"h", 0⟩ = [] ∧
      ∀ item ∈ after.leaves, Shader.KeepsCallees Shader.callingOne after item ∨
        ∃ signature body, item = .function signature body ∧
          Word.isBuiltinFunction signature.name = true ∧
          ¬ Shader.callingOne.Reached (.ofPrototype signature) := by
  have hmain : Shader.callingOne.DefinesMain := Shader.hasMain_iff.1 rfl
  have hlive : Shader.callingOne.liveFunctions = [⟨"main", 0⟩, ⟨"f", 0⟩] := by cbv
  have hresult := result_removeDeadFunctions hmain Shader.definesMain_idle
  rw [Shader.removeDead_eq hlive, Shader.removeDead_idle] at hresult
  exact ⟨_, by decide +kernel, hresult, by decide, rfl,
    removeDeadFunctions_keepsCallees hresult .vertex rfl rfl⟩

/-- An overload of the built-in `sin` stays for its name, but `f`, which it calls, is lost. -/
theorem removeDeadFunctions_loses_callee_of_builtin :
    ∃ after, Shader.parse
        "float f()\x7breturn 1.;\x7dfloat sin(float x)\x7breturn f();\x7dvoid main()\x7b\x7d"
          .vertex = .ok Shader.overloadingSin ∧
      (removeDeadFunctions ⟨some Shader.overloadingSin, some Shader.idle⟩).result =
        .ok ⟨some after, some Shader.idle⟩ ∧
      ¬ ∀ item ∈ after.leaves, Shader.KeepsCallees Shader.overloadingSin after item := by
  have hmain : Shader.overloadingSin.DefinesMain := Shader.hasMain_iff.1 rfl
  have hlive : Shader.overloadingSin.liveFunctions = [⟨"main", 0⟩] := by cbv
  have hresult := result_removeDeadFunctions hmain Shader.definesMain_idle
  rw [Shader.removeDead_eq hlive, Shader.removeDead_idle] at hresult
  exact ⟨_, by decide +kernel, hresult, by decide⟩

end Program

end ShaderMinifier
