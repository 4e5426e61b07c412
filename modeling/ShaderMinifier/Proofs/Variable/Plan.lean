import ShaderMinifier.Proofs.Lists
import ShaderMinifier.Proofs.Variable.Link

/-
  The plan of the renames and the renaming itself. The plan finds a global by the first entry of
  its stage and its old name; a stage has one global of a name, so the entry is that of no other
  binding, and the new name is the one that renaming puts at all sites of the global. The plan
  leaves out exactly the bindings whose groups keep their names.
-/

namespace ShaderMinifier

/-! ## Every binding is met -/

namespace Resolver

variable {stage : Stage} {r : Resolver}

/-- Every binding from `first` on stands at a site. -/
def Met (first : Nat) (r : Resolver) : Prop :=
  ∀ id, first ≤ id → id < r.bindings.length → some id ∈ r.sites

theorem length_bindings_meet (stage : Stage) (r : Resolver) (s : Site) :
    (r.meet stage s).bindings.length = r.bindings.length ∨
      (r.meet stage s).bindings.length = r.bindings.length + 1 ∧
        some r.bindings.length ∈ (r.meet stage s).sites := by
  have hdeclare : ∀ name linked signature,
      (r.declare stage name linked signature).bindings.length = r.bindings.length ∨
        (r.declare stage name linked signature).bindings.length = r.bindings.length + 1 ∧
          some r.bindings.length ∈ (r.declare stage name linked signature).sites := by
    intro name linked signature
    cases hname : r.declaredHere name with
    | some id =>
      rw [declare_of_declared hname]
      exact .inl (by simp [addSite, redeclareAt])
    | none =>
      rw [declare_of_new hname]
      exact .inr ⟨by simp [addSite, bindNew, bindHere], by simp⟩
  obtain ⟨role, name⟩ := s
  cases role with
  | declared placement type d => exact hdeclare _ _ _
  | parameter =>
    cases hat : r.atParameters with
    | true =>
      rw [meet_parameter hat]
      exact hdeclare _ _ _
    | false =>
      rw [meet_parameter_of_not hat]
      exact .inl rfl
  | use =>
    cases hname : r.resolve name with
    | some id =>
      rw [meet_use hname]
      exact .inl (by simp [addSite])
    | none =>
      rw [meet_use_of_free hname]
      exact .inl rfl
  | type | function _ | callee _ | field => exact .inl rfl

theorem Met.meet {first : Nat} (h : Met first r) (s : Site) : Met first (r.meet stage s) := by
  intro id hfirst hid
  have hold : id < r.bindings.length → some id ∈ (r.meet stage s).sites :=
    fun hlt => (grows_meet stage r s).sites.subset (h id hfirst hlt)
  rcases length_bindings_meet stage r s with hlength | ⟨hlength, hnew⟩
  · exact hold (hlength ▸ hid)
  · rcases Nat.lt_succ_iff_lt_or_eq.1 (hlength ▸ hid) with hlt | rfl
    · exact hold hlt
    · exact hnew

theorem Met.foldl {first : Nat} (h : Met first r) (es : List Event) :
    Met first (es.foldl (step stage) r) := by
  induction es generalizing r with
  | nil => exact h
  | cons e es ih =>
    refine ih ?_
    cases e with
    | site s => exact h.meet s
    | enter kind =>
      rw [step, enter]
      split <;> exact h
    | leave | directive _ | conditional _ _ | elif _ => exact h

theorem met_foldl (stage : Stage) (bindings : List Binding) (es : List Event) :
    Met bindings.length (es.foldl (step stage) (start bindings)) :=
  Met.foldl (r := start bindings) (fun _ hfirst hid => absurd hid (Nat.not_lt.2 hfirst)) es

theorem met_run (stage : Stage) (bindings : List Binding) (shader : Shader) :
    Met bindings.length (run stage bindings shader) :=
  met_foldl stage bindings shader.events

end Resolver

/-! ## The names at the sites of a binding -/

theorem forall₂_variables_of_renamed {P : Site → Option Nat → Prop} {names : NewNames}
    {sites sites' : List Site} {ids : List (Option Nat)}
    (haligned : List.Forall₂ (fun s s' => Role.Like s.role s'.role) sites sites')
    (hnames : sites'.map Site.name = renamedSites names sites ids)
    (h : List.Forall₂ P (sites.filter fun s => s.role.isVariable) ids) :
    List.Forall₂ (fun s' id => ∃ s, P s id ∧ s'.name = (id.bind names.get).getD s.name)
      (sites'.filter fun s => s.role.isVariable) ids := by
  induction haligned generalizing ids with
  | nil => simpa using h
  | @cons s s' sites sites' hs _ ih =>
    rw [List.map_cons, renamedSites] at hnames
    rw [List.filter_cons] at h ⊢
    rw [hs.isVariable_eq]
    by_cases hvariable : s.role.isVariable = true
    · rw [if_pos hvariable] at hnames h ⊢
      obtain ⟨id, ids, hid, hids, rfl⟩ := List.forall₂_cons_left_iff.1 h
      obtain ⟨hname, hrest⟩ := List.cons.inj hnames
      exact .cons ⟨s, hid, hname⟩ (ih hrest hids)
    · rw [if_neg hvariable] at hnames h ⊢
      exact ih (List.cons.inj hnames).2 h

theorem Shader.variableSites_renameVariables {shader : Shader} {P : Site → Option Nat → Prop}
    {ids : List (Option Nat)} (h : List.Forall₂ P shader.variableSites ids) (names : NewNames) :
    List.Forall₂ (fun s' id => ∃ s, P s id ∧ s'.name = (id.bind names.get).getD s.name)
      (shader.renameVariables ids names).variableSites ids :=
  forall₂_variables_of_renamed (shader.aligned_renameVariables ids names)
    (names_withNames (length_renamedSites names shader.sites ids)) h

namespace BindingTable

open Resolver IndexedBinding

/-- All sites of a binding have this `name` in a program that has the same sites, and there is such
a site. -/
structure Spelled (table : BindingTable) (program : Program) (id : Nat) (name : String) :
    Prop where
  somewhere : ∃ stage bindings, table.stage? stage = some bindings ∧ some id ∈ bindings.sites
  everywhere : ∀ stage shader bindings, program.shader? stage = some shader →
    table.stage? stage = some bindings →
    List.Forall₂ (fun s noted => noted = some id → s.name = name) shader.variableSites
      bindings.sites

/-- The binding is in a group that has a member named by a word of a directive of its stage
(`isPinned`). -/
def keepsName (table : BindingTable) (id : Nat) : Bool :=
  table.groups.any fun g => g.members.contains id && table.isPinned g

variable {table : BindingTable} {id : Nat} {b : Binding}

theorem keepsName_iff (hb : table.bindings[id]? = some b) :
    table.keepsName id = true ↔ newName? table.allocation id = none := by
  obtain ⟨g, hg, hid⟩ := exists_mem_groups hb
  have hgroup := hasGroup_of_mem hg hid hb
  rw [newName?_eq_none_iff hb hgroup, keepsName, List.any_eq_true]
  simp only [Bool.and_eq_true, List.contains_iff_mem]
  constructor
  · rintro ⟨g', hg', hid', hpinned⟩
    rwa [hgroup.unique (hasGroup_of_mem hg' hid' hb)]
  · intro hpinned
    exact ⟨g, hg, hid, hpinned⟩

variable {vertex fragment : Shader}

/-- What holds of the sites of a stage and of what is noted for them when its shader is met still
holds in the table of both, `ofShaders`. -/
theorem forall₂_stage {R : List Binding → Site → Option Nat → Prop} {stage : Stage}
    (hmono : ∀ {bs bs' s noted}, bs.map Binding.origin <+: bs'.map Binding.origin →
      KeepsLinks bs bs' → R bs s noted → R bs' s noted)
    (hrun : ∀ {bindings : List Binding}, (∀ b ∈ bindings, b.stage ≠ stage) → ∀ shader : Shader,
      List.Forall₂ (R (Resolver.run stage bindings shader).bindings) shader.variableSites
        (Resolver.run stage bindings shader).sites)
    {shader : Shader} {bindings : StageBindings}
    (hshader : (⟨some vertex, some fragment⟩ : Program).shader? stage = some shader)
    (hbindings : (ofShaders vertex fragment).stage? stage = some bindings) :
    List.Forall₂ (R (ofShaders vertex fragment).bindings) shader.variableSites
      bindings.sites := by
  cases stage with
  | vertex =>
    obtain rfl := Option.some.inj hshader
    obtain rfl := Option.some.inj hbindings
    have hgrows := grows_foldl .fragment (start (Resolver.run .vertex [] vertex).bindings)
      fragment.events
    exact (hrun (by simp) vertex).imp fun _ _ h => hmono hgrows.origins hgrows.links h
  | fragment =>
    obtain rfl := Option.some.inj hshader
    obtain rfl := Option.some.inj hbindings
    exact hrun (fun _ => stage_ne_of_mem_vertex) fragment

theorem stands_stage {stage : Stage} {shader : Shader} {bindings : StageBindings}
    (hshader : (⟨some vertex, some fragment⟩ : Program).shader? stage = some shader)
    (hbindings : (ofShaders vertex fragment).stage? stage = some bindings) :
    List.Forall₂ (Stands stage (ofShaders vertex fragment).bindings) shader.variableSites
      bindings.sites :=
  forall₂_stage (fun horigins hlinks h => h.mono horigins hlinks) stands_run hshader hbindings

theorem names_stage {stage : Stage} {shader : Shader} {bindings : StageBindings}
    (hshader : (⟨some vertex, some fragment⟩ : Program).shader? stage = some shader)
    (hbindings : (ofShaders vertex fragment).stage? stage = some bindings) :
    List.Forall₂ (Names stage (ofShaders vertex fragment).bindings) shader.variableSites
      bindings.sites :=
  forall₂_stage (fun horigins _ h => h.mono horigins) names_run hshader hbindings

theorem exists_site (hid : id < (ofShaders vertex fragment).bindings.length) :
    ∃ stage bindings, (ofShaders vertex fragment).stage? stage = some bindings ∧
      some id ∈ bindings.sites := by
  by_cases hvertex : id < (Resolver.run .vertex [] vertex).bindings.length
  · exact ⟨.vertex, _, rfl, met_run .vertex [] vertex id (Nat.zero_le id) hvertex⟩
  · exact ⟨.fragment, _, rfl, met_run .fragment _ fragment id (Nat.not_lt.1 hvertex) hid⟩

end BindingTable

namespace Program

open BindingTable

variable {vertex fragment : Shader} {result : Program} {id : Nat} {b : Binding}

theorem shader?_renameVariables {stage : Stage} {shader' : Shader} {bindings : StageBindings}
    (hresult : (renameVariables ⟨some vertex, some fragment⟩).result = .ok result)
    (hshader : result.shader? stage = some shader')
    (hbindings : (ofShaders vertex fragment).stage? stage = some bindings) :
    ∃ shader, (⟨some vertex, some fragment⟩ : Program).shader? stage = some shader ∧
      shader' = shader.renameVariables bindings.sites (ofShaders vertex fragment).newNames := by
  rw [result_renameVariables] at hresult
  obtain rfl := Except.ok.inj hresult
  cases stage with
  | vertex =>
    obtain rfl := Option.some.inj hbindings
    exact ⟨vertex, rfl, (Option.some.inj hshader).symm⟩
  | fragment =>
    obtain rfl := Option.some.inj hbindings
    exact ⟨fragment, rfl, (Option.some.inj hshader).symm⟩

theorem spelled_renameVariables
    (hresult : (renameVariables ⟨some vertex, some fragment⟩).result = .ok result)
    (hb : (ofShaders vertex fragment).bindings[id]? = some b) :
    (ofShaders vertex fragment).Spelled result id
      ((newName? (ofShaders vertex fragment).allocation id).getD b.name) where
  somewhere := exists_site (List.getElem?_eq_some_iff.1 hb).1
  everywhere := by
    intro stage shader' bindings hshader' hbindings
    obtain ⟨shader, hshader, rfl⟩ := shader?_renameVariables hresult hshader' hbindings
    have hnames := Shader.variableSites_renameVariables (names_stage hshader hbindings)
      (ofShaders vertex fragment).newNames
    refine hnames.imp fun s' noted hs' hnoted => ?_
    obtain ⟨s, hs, hname⟩ := hs'
    obtain ⟨c, hc, hcname, -⟩ := hs id hnoted
    obtain rfl := Option.some.inj (hb.symm.trans hc)
    rw [hname, hnoted, Option.bind_some, get_newNames hb, hcname]

end Program

/-! ## The plan -/

namespace RenamePlan

open BindingTable

/-- What the plan says of a binding: an entry if it has a `newName?`. -/
def entryFor? (table : BindingTable) (b : IndexedBinding) : Option RenameEntry :=
  (newName? table.allocation b.2).map fun new => ⟨b.1.stage, b.1.extent, b.1.name, new⟩

theorem entries_ofTable (table : BindingTable) :
    (ofTable table).entries = table.bindings.zipIdx.filterMap (entryFor? table) := by
  rw [ofTable, newNames, List.zip_map_right, List.filterMap_map, List.zipIdx_eq_zip_range']
  rw [List.range_eq_range']
  rfl

theorem global_ofTable {vertex fragment : Shader} {stage : Stage} {name : String} {id : Nat}
    (hid : (ofShaders vertex fragment).origins[id]? = some ⟨name, stage, .global⟩) :
    (ofTable (ofShaders vertex fragment)).global stage name =
      newName? (ofShaders vertex fragment).allocation id := by
  obtain ⟨b, hb, horigin⟩ := getElem?_origins hid
  have hunique : ∀ c ∈ (ofShaders vertex fragment).bindings.zipIdx,
      ((entryFor? (ofShaders vertex fragment) c).any fun e =>
        e.stage = stage && e.extent = .global && e.old = name) = true → c = (b, id) := by
    rintro ⟨c, i⟩ hc hany
    rw [mem_zipIdx] at hc
    obtain ⟨⟨hstage, hextent⟩, hname⟩ :
        (c.stage = stage ∧ c.extent = .global) ∧ c.name = name := by
      cases hnew : newName? (ofShaders vertex fragment).allocation i with
      | none => simp [entryFor?, hnew] at hany
      | some new => simpa [entryFor?, hnew] using hany
    have hi : (ofShaders vertex fragment).origins[i]? = some ⟨name, stage, .global⟩ := by
      rw [BindingTable.origins, List.getElem?_map, hc, ← hname, ← hstage, ← hextent]
      rfl
    obtain rfl := global_unique hid hi
    rw [Option.some.inj (hb.symm.trans hc)]
  rw [global, entries_ofTable, List.find?_filterMap, find?_of_unique (mem_zipIdx.2 hb) hunique]
  cases hnew : newName? (ofShaders vertex fragment).allocation id with
  | none => simp [entryFor?, hnew]
  | some new =>
    obtain ⟨hname, hstage, hextent⟩ := Origin.mk.inj horigin
    simp [entryFor?, hnew, hname, hstage, hextent]

theorem forall₂_entries {table : BindingTable} {R : IndexedBinding → String → Prop}
    (h : ∀ id b new, table.bindings[id]? = some b → newName? table.allocation id = some new →
      R (b, id) new) :
    List.Forall₂ (fun b e => e.stage = b.1.stage ∧ e.extent = b.1.extent ∧ e.old = b.1.name ∧
        R b e.new)
      (table.bindings.zipIdx.filter fun b => !table.keepsName b.2) (ofTable table).entries := by
  rw [entries_ofTable]
  refine forall₂_filter_filterMap ?_
  rintro ⟨b, id⟩ hb
  rw [mem_zipIdx] at hb
  cases hnew : newName? table.allocation id with
  | none =>
    have hkeeps : table.keepsName id = true := (keepsName_iff hb).2 hnew
    exact .inr ⟨by simp [hkeeps], by simp [entryFor?, hnew]⟩
  | some new =>
    have hkeeps : table.keepsName id = false := by
      rw [← Bool.not_eq_true, keepsName_iff hb, hnew]
      exact Option.some_ne_none new
    refine .inl ⟨by simp [hkeeps], ⟨b.stage, b.extent, b.name, new⟩, by simp [entryFor?, hnew], ?_⟩
    exact ⟨rfl, rfl, rfl, h id b new hb hnew⟩

end RenamePlan

namespace Program

open BindingTable

variable {vertex fragment : Shader}

theorem exists_global {stage : Stage} {shader : Shader} {type : QualifiedType} {d : Declarator}
    {name : String}
    (hshader : (⟨some vertex, some fragment⟩ : Program).shader? stage = some shader)
    (hsite : Site.mk (.declared .topLevel type d) name ∈ shader.sites) :
    ∃ id : Nat, (ofShaders vertex fragment).origins[id]? = some ⟨name, stage, .global⟩ := by
  obtain ⟨bindings, hbindings⟩ : ∃ bindings,
      (ofShaders vertex fragment).stage? stage = some bindings := by
    cases stage <;> exact ⟨_, rfl⟩
  obtain ⟨noted, hnoted⟩ := exists_of_forall₂ (stands_stage hshader hbindings)
    (List.mem_filter.2 ⟨hsite, rfl⟩)
  obtain ⟨id, b, -, hb, horigin, -⟩ := hnoted type d rfl
  exact ⟨id, by rw [BindingTable.origins, List.getElem?_map, hb, Option.map_some, horigin]⟩

/-- The `RenamePlan` and `renameVariables` agree. What the plan says of a global is the spelling of
all its sites afterwards (`Spelled`), and the entries of the plan are those of the bindings whose
groups do not keep their names, each with the spelling of its sites. -/
theorem renameVariables_followsPlan (vertex fragment : Shader) :
    ∃ table plan result,
      (BindingTable.build ⟨some vertex, some fragment⟩).result = .ok table ∧
      (RenamePlan.ofProgram ⟨some vertex, some fragment⟩).result = .ok plan ∧
      (renameVariables ⟨some vertex, some fragment⟩).result = .ok result ∧
      (∀ stage shader type d old,
        (⟨some vertex, some fragment⟩ : Program).shader? stage = some shader →
        Site.mk (.declared .topLevel type d) old ∈ shader.sites →
        ∃ id, (∀ j : Nat, table.origins[j]? = some ⟨old, stage, .global⟩ ↔ j = id) ∧
          (∀ new, plan.global stage old = some new → table.Spelled result id new) ∧
          (plan.global stage old = none → table.Spelled result id old)) ∧
      List.Forall₂ (fun b e => e.stage = b.1.stage ∧ e.extent = b.1.extent ∧
          e.old = b.1.name ∧ table.Spelled result b.2 e.new)
        (table.bindings.zipIdx.filter fun b => !table.keepsName b.2) plan.entries := by
  have hresult := result_renameVariables vertex fragment
  refine ⟨_, RenamePlan.ofTable (ofShaders vertex fragment), _, result_build vertex fragment, rfl,
    hresult, ?_, ?_⟩
  · intro stage shader type d old hshader hsite
    obtain ⟨id, hid⟩ := exists_global hshader hsite
    obtain ⟨b, hb, horigin⟩ := getElem?_origins hid
    have hspelled := spelled_renameVariables hresult hb
    have hname : b.name = old := congrArg Origin.name horigin
    refine ⟨id, fun j => ⟨fun hj => global_unique hj hid, fun hj => hj ▸ hid⟩, ?_, ?_⟩
    · intro new hnew
      rw [RenamePlan.global_ofTable hid] at hnew
      rwa [hnew] at hspelled
    · intro hnone
      rw [RenamePlan.global_ofTable hid] at hnone
      rwa [hnone, Option.getD_none, hname] at hspelled
  · refine RenamePlan.forall₂_entries (R := fun b new => _) fun id b new hb hnew => ?_
    have hspelled := spelled_renameVariables hresult hb
    rwa [hnew] at hspelled

end Program

end ShaderMinifier
