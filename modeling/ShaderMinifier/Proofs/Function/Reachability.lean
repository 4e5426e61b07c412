import Mathlib
import ShaderMinifier.Function.Live

/-
  What the search through the call graph finds: the least set of functions that holds the roots
  and, with a function, all that its definitions call. Cycles, functions without a definition and
  roots that come up more than once need no care of their own.
-/

namespace ShaderMinifier

namespace CallGraph

variable {next : FunctionKey → List FunctionKey} {unseen pending : List FunctionKey}
  {key callee : FunctionKey}

/-! ## The search -/

theorem closure_forall {p : FunctionKey → Prop} (hnext : ∀ k, p k → ∀ c ∈ next k, p c)
    (hpending : ∀ k ∈ pending, p k) : ∀ k ∈ closure next unseen pending, p k := by
  fun_induction closure next unseen pending with
  | case1 => simp
  | case2 unseen key pending hkey ih =>
    have hp : p key := hpending key (by simp)
    rw [List.forall_mem_cons]
    refine ⟨hp, ih ?_⟩
    rw [List.forall_mem_append]
    exact ⟨hnext key hp, fun k hk => hpending k (by simp [hk])⟩
  | case3 unseen key pending hkey ih => exact ih fun k hk => hpending k (by simp [hk])

theorem mem_without : callee ∈ without key unseen ↔ callee ∈ unseen ∧ callee ≠ key := by
  rw [without, List.mem_filter, decide_eq_true_eq]

theorem mem_closure_of_pending (hkey : key ∈ pending) (hunseen : key ∈ unseen) :
    key ∈ closure next unseen pending := by
  fun_induction closure next unseen pending with
  | case1 => simp at hkey
  | case2 unseen first pending hfirst ih =>
    by_cases hne : key = first
    · simp [hne]
    · rw [List.mem_cons, or_iff_right hne] at hkey
      exact List.mem_cons_of_mem _ (ih (by simp [hkey]) (mem_without.2 ⟨hunseen, hne⟩))
  | case3 unseen first pending hfirst ih =>
    have hne : key ≠ first := fun heq => hfirst (heq ▸ hunseen)
    rw [List.mem_cons, or_iff_right hne] at hkey
    exact ih hkey hunseen

/-- What is called by something that `closure` finds is found too, unless it was seen before. -/
theorem mem_closure_of_call (hkey : key ∈ closure next unseen pending) (hcall : callee ∈ next key)
    (hunseen : callee ∈ unseen) : callee ∈ closure next unseen pending := by
  fun_induction closure next unseen pending with
  | case1 => simp at hkey
  | case2 unseen first pending hfirst ih =>
    by_cases hne : callee = first
    · simp [hne]
    · have hleft : callee ∈ without first unseen := mem_without.2 ⟨hunseen, hne⟩
      refine List.mem_cons_of_mem _ ?_
      rcases List.mem_cons.1 hkey with rfl | hkey
      · exact mem_closure_of_pending (by simp [hcall]) hleft
      · exact ih hkey hleft
  | case3 unseen first pending hfirst ih => exact ih hkey hunseen

/-! ## The graph -/

variable {graph : CallGraph} {shader : Shader}

theorem mem_calls : callee ∈ graph.calls key ↔
    ∃ called, (key, called) ∈ graph.definitions ∧ callee ∈ called := by
  simp only [calls, List.mem_flatMap, List.mem_filter, beq_iff_eq, Prod.exists]
  constructor
  · rintro ⟨k, called, ⟨hmem, rfl⟩, hcallee⟩
    exact ⟨called, hmem, hcallee⟩
  · rintro ⟨called, hmem, hcallee⟩
    exact ⟨key, called, ⟨hmem, rfl⟩, hcallee⟩

theorem mem_reachable_of_root (h : key ∈ graph.roots) : key ∈ graph.reachable :=
  mem_closure_of_pending h (List.mem_append_left _ h)

theorem mem_reachable_of_call (hkey : key ∈ graph.reachable) (hcall : callee ∈ graph.calls key) :
    callee ∈ graph.reachable := by
  obtain ⟨called, hmem, hcallee⟩ := mem_calls.1 hcall
  exact mem_closure_of_call hkey hcall
    (List.mem_append_right _ (List.mem_flatMap.2 ⟨_, hmem, hcallee⟩))

theorem mem_definitions_ofShader {called : List FunctionKey} :
    (key, called) ∈ (ofShader shader).definitions ↔ ∃ signature body,
      .function signature body ∈ shader.leaves ∧ .ofPrototype signature = key ∧
        callees (.function signature body) = called := by
  simp only [ofShader, List.mem_filterMap]
  constructor
  · rintro ⟨item, hitem, hdefinition⟩
    cases item with
    | function signature body =>
      obtain ⟨hkey, hcalled⟩ := Prod.mk.inj (Option.some.inj hdefinition)
      exact ⟨signature, body, hitem, hkey, hcalled⟩
    | directive _ | conditional _ _ _ _ | precision _ _ | invariant _ | declaration _
    | prototype _ => cases hdefinition
  · rintro ⟨signature, body, hitem, rfl, rfl⟩
    exact ⟨_, hitem, rfl⟩

theorem mem_defined_ofShader : key ∈ (ofShader shader).defined ↔ ∃ signature body,
    .function signature body ∈ shader.leaves ∧ .ofPrototype signature = key := by
  rw [defined, List.mem_map]
  constructor
  · rintro ⟨⟨key, called⟩, hmem, rfl⟩
    obtain ⟨signature, body, hitem, hkey, -⟩ := mem_definitions_ofShader.1 hmem
    exact ⟨signature, body, hitem, hkey⟩
  · rintro ⟨signature, body, hitem, rfl⟩
    exact ⟨_, mem_definitions_ofShader.2 ⟨signature, body, hitem, rfl, rfl⟩, rfl⟩

end CallGraph

/-! ## What a shader can reach -/

namespace Shader

/-- The shader has a body for `main`, in whatever branch; what `CallGraph.hasMain` decides. -/
def DefinesMain (shader : Shader) : Prop :=
  ∃ signature body, Item.function signature body ∈ shader.leaves ∧ signature.name = "main"

/-- The function can be reached along calls, from `main`, from outside every function, or from what
the preprocessor can see. Stated without a search. -/
inductive Reached (shader : Shader) : FunctionKey → Prop
  | main {signature : Prototype} {body : List Statement}
      (hitem : .function signature body ∈ shader.leaves) (hname : signature.name = "main") :
    Reached shader (.ofPrototype signature)
  /-- The preprocessor can see a function with a body: its name is one of the `directiveWords`. -/
  | seen {signature : Prototype} {body : List Statement}
      (hitem : .function signature body ∈ shader.leaves)
      (hname : signature.name ∈ shader.directiveWords) :
    Reached shader (.ofPrototype signature)
  /-- A call outside every function (`outerCallees`), which every run makes. -/
  | outer {item : Item} {key : FunctionKey} (hitem : item ∈ shader.leaves)
      (hcall : key ∈ CallGraph.outerCallees item) : Reached shader key
  /-- A call in a definition of a function that can be reached, in its body or in its signature
  (`callees`). -/
  | call {signature : Prototype} {body : List Statement} {key : FunctionKey}
      (hitem : .function signature body ∈ shader.leaves)
      (hcaller : Reached shader (.ofPrototype signature))
      (hcall : key ∈ CallGraph.callees (.function signature body)) : Reached shader key

variable {shader : Shader} {key : FunctionKey}

theorem hasMain_iff : (CallGraph.ofShader shader).hasMain = true ↔ shader.DefinesMain := by
  rw [CallGraph.hasMain, List.any_eq_true]
  constructor
  · rintro ⟨key, hkey, hname⟩
    obtain ⟨signature, body, hitem, rfl⟩ := CallGraph.mem_defined_ofShader.1 hkey
    exact ⟨signature, body, hitem, by simpa [FunctionKey.ofPrototype] using hname⟩
  · rintro ⟨signature, body, hitem, hname⟩
    refine ⟨_, CallGraph.mem_defined_ofShader.2 ⟨signature, body, hitem, rfl⟩, ?_⟩
    simpa [FunctionKey.ofPrototype] using hname

theorem mem_roots : key ∈ ((CallGraph.ofShader shader).pin shader.directiveWords).roots ↔
    (∃ signature body, .function signature body ∈ shader.leaves ∧
        .ofPrototype signature = key ∧
        (signature.name = "main" ∨ signature.name ∈ shader.directiveWords)) ∨
      ∃ item ∈ shader.leaves, key ∈ CallGraph.outerCallees item := by
  have hdefined : ((CallGraph.ofShader shader).pin shader.directiveWords).defined =
      (CallGraph.ofShader shader).defined := rfl
  have hpinned : ((CallGraph.ofShader shader).pin shader.directiveWords).pinned =
      (CallGraph.ofShader shader).defined.filter
        fun key => shader.directiveWords.contains key.name := rfl
  have hglobal : ((CallGraph.ofShader shader).pin shader.directiveWords).globalCalls =
      shader.leaves.flatMap CallGraph.outerCallees := rfl
  rw [CallGraph.roots, hdefined, hpinned, hglobal]
  simp only [List.mem_append, List.mem_filter, List.mem_flatMap, CallGraph.mem_defined_ofShader,
    beq_iff_eq, List.contains_iff_mem]
  constructor
  · rintro ((⟨⟨signature, body, hitem, rfl⟩, hname⟩ | houter) |
      ⟨⟨signature, body, hitem, rfl⟩, hname⟩)
    · exact .inl ⟨signature, body, hitem, rfl, .inl hname⟩
    · exact .inr houter
    · exact .inl ⟨signature, body, hitem, rfl, .inr hname⟩
  · rintro (⟨signature, body, hitem, rfl, hname | hname⟩ | houter)
    · exact .inl (.inl ⟨⟨signature, body, hitem, rfl⟩, hname⟩)
    · exact .inr ⟨⟨signature, body, hitem, rfl⟩, hname⟩
    · exact .inl (.inr houter)

theorem mem_liveFunctions : key ∈ shader.liveFunctions ↔ shader.Reached key := by
  constructor
  · refine CallGraph.closure_forall ?_ ?_ key
    · intro caller hcaller callee hcall
      obtain ⟨called, hmem, hcallee⟩ := CallGraph.mem_calls.1 hcall
      obtain ⟨signature, body, hitem, rfl, rfl⟩ := CallGraph.mem_definitions_ofShader.1 hmem
      exact .call hitem hcaller hcallee
    · intro root hroot
      rcases mem_roots.1 hroot with
        ⟨signature, body, hitem, rfl, hname | hname⟩ | ⟨item, hitem, hcall⟩
      · exact .main hitem hname
      · exact .seen hitem hname
      · exact .outer hitem hcall
  · intro hreached
    induction hreached with
    | main hitem hname =>
      exact CallGraph.mem_reachable_of_root (mem_roots.2 (.inl ⟨_, _, hitem, rfl, .inl hname⟩))
    | seen hitem hname =>
      exact CallGraph.mem_reachable_of_root (mem_roots.2 (.inl ⟨_, _, hitem, rfl, .inr hname⟩))
    | outer hitem hcall =>
      exact CallGraph.mem_reachable_of_root (mem_roots.2 (.inr ⟨_, hitem, hcall⟩))
    | call hitem hcaller hcall ih =>
      exact CallGraph.mem_reachable_of_call ih (CallGraph.mem_calls.2
        ⟨_, CallGraph.mem_definitions_ofShader.2 ⟨_, _, hitem, rfl, rfl⟩, hcall⟩)

end Shader

end ShaderMinifier
