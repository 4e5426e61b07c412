import ShaderMinifier.Proofs.Lists
import ShaderMinifier.Proofs.Variable.Order
import ShaderMinifier.Proofs.Variable.Resolution

/-
  The weight of a group. The resolver counts the sites of a binding while it notes them, so a
  binding tells how often both stages note it; the members of a group are all different, so the
  group tells how many sites stand for one of them.
-/

namespace ShaderMinifier

/-! ## Counting the sites -/

namespace Resolver

variable {stage : Stage} {before : List Origin} {place next : Place}
  {earlier : List (Option Nat)} {r : Resolver} {name : String} {id : Nat}

/-- Every binding tells in `sites` how often it was noted, now or in an earlier stage, and only
bindings were noted. -/
structure Counted (earlier : List (Option Nat)) (r : Resolver) : Prop where
  noted : ∀ id, some id ∈ earlier ++ r.sites → id < r.bindings.length
  sites : ∀ id b, r.bindings[id]? = some b → b.sites = (earlier ++ r.sites).count (some id)

theorem Sound.lt_of_resolve (h : Sound stage before place r) (hid : r.resolve name = some id) :
    id < r.bindings.length := by
  obtain ⟨scope, hscope, hentry⟩ := mem_of_resolve hid
  obtain ⟨extent, horigin, -⟩ := h.visible scope hscope _ hentry
  rw [← length_origins]
  exact (List.getElem?_eq_some_iff.1 horigin).1

namespace Counted

theorem addSite_none (h : Counted earlier r) : Counted earlier (r.addSite none) where
  noted := by
    intro id hid
    exact h.noted id (by simpa [← List.append_assoc] using hid)
  sites := by
    intro id b hb
    rw [h.sites id b hb, sites_addSite, ← List.append_assoc, List.count_append]
    simp

theorem addSite_some (h : Counted earlier r) (hid : id < r.bindings.length) :
    Counted earlier (r.addSite (some id)) where
  noted := by
    intro i hi
    rw [addSite, List.length_modify]
    rw [sites_addSite, ← List.append_assoc, List.mem_append, List.mem_singleton] at hi
    rcases hi with hi | hi
    · exact h.noted i hi
    · rwa [Option.some.inj hi]
  sites := by
    intro i b hb
    rw [addSite, List.getElem?_modify, Option.map_eq_map, Option.map_eq_some_iff] at hb
    obtain ⟨old, hold, rfl⟩ := hb
    rw [sites_addSite, ← List.append_assoc, List.count_append, ← h.sites i old hold]
    by_cases heq : id = i <;> simp [heq]

theorem redeclareAt (h : Counted earlier r) (id : Nat) (linked : Bool)
    (signature : Option String) : Counted earlier (r.redeclareAt id linked signature) where
  noted := by
    intro i hi
    rw [Resolver.redeclareAt, List.length_modify]
    exact h.noted i hi
  sites := by
    intro i b hb
    rw [Resolver.redeclareAt, List.getElem?_modify, Option.map_eq_map,
      Option.map_eq_some_iff] at hb
    obtain ⟨old, hold, rfl⟩ := hb
    rw [Resolver.redeclareAt, ← h.sites i old hold]
    by_cases heq : id = i <;> simp [heq, redeclare]

/-- A new binding was not noted before, so `bindNew` keeps `Counted` with a zero. -/
theorem bindNew (h : Counted earlier r) (stage : Stage) (name : String) (linked : Bool)
    (signature : Option String) : Counted earlier (r.bindNew stage name linked signature) where
  noted := by
    intro i hi
    rw [Resolver.bindNew, bindHere, List.length_append]
    exact Nat.lt_add_right 1 (h.noted i hi)
  sites := by
    intro i b hb
    rcases getElem?_concat_cases hb with hb | ⟨rfl, rfl⟩
    · exact h.sites i b hb
    · refine (List.count_eq_zero.2 fun hmem => ?_).symm
      exact Nat.lt_irrefl _ (h.noted _ hmem)

theorem declare (h : Counted earlier r) (hsound : Sound stage before place r) (name : String)
    (linked : Bool) (signature : Option String) :
    Counted earlier (r.declare stage name linked signature) := by
  cases hname : r.declaredHere name with
  | some id =>
    rw [declare_of_declared hname]
    refine (h.redeclareAt id linked signature).addSite_some ?_
    rw [Resolver.redeclareAt, List.length_modify]
    exact hsound.lt_of_declaredHere hname
  | none =>
    rw [declare_of_new hname]
    refine (h.bindNew stage name linked signature).addSite_some ?_
    rw [Resolver.bindNew, bindHere, List.length_append]
    exact Nat.lt_succ_self _

theorem meet (h : Counted earlier r) (hsound : Sound stage before place r) (s : Site) :
    Counted earlier (r.meet stage s) := by
  obtain ⟨role, name⟩ := s
  cases role with
  | declared placement type d => exact h.declare hsound name _ _
  | parameter =>
    cases hat : r.atParameters with
    | true =>
      rw [meet_parameter hat]
      exact h.declare hsound name _ _
    | false =>
      rw [meet_parameter_of_not hat]
      exact h.addSite_none
  | use =>
    cases hname : r.resolve name with
    | some id =>
      rw [meet_use hname]
      exact h.addSite_some (hsound.lt_of_resolve hname)
    | none =>
      rw [meet_use_of_free hname]
      exact addSite_none (r := r.addFreeName name) ⟨h.noted, h.sites⟩
  | type | function _ | callee _ => exact ⟨h.noted, h.sites⟩
  | field => exact h

theorem step (h : Counted earlier r) (hsound : Sound stage before place r) (e : Event) :
    Counted earlier (r.step stage e) := by
  cases e with
  | site s => exact h.meet hsound s
  | enter kind =>
    rw [Resolver.step, enter]
    split <;> exact ⟨h.noted, h.sites⟩
  | leave => exact ⟨h.noted, h.sites⟩
  | directive _ | conditional _ _ | elif _ => exact h

theorem foldl {es : List Event} (hnested : Nested place es next)
    (hsound : Sound stage before place r) (h : Counted earlier r) :
    Counted earlier (es.foldl (Resolver.step stage) r) := by
  induction hnested generalizing r with
  | nil => exact h
  | cons he _ ih => exact ih (hsound.step he) (h.step hsound _)

theorem run (h : Counted earlier r) (hstage : ∀ b ∈ r.bindings, b.stage ≠ stage)
    (shader : Shader) : Counted (earlier ++ r.sites) (Resolver.run stage r.bindings shader) := by
  refine foldl shader.nested_events (.start hstage) ⟨?_, ?_⟩
  · intro id hid
    rw [start, List.append_nil] at hid
    exact h.noted id hid
  · intro id b hb
    rw [start, List.append_nil]
    exact h.sites id b hb

end Counted

end Resolver

/-! ## Groups -/

namespace IndexedBinding

variable {bindings : List IndexedBinding} {b : IndexedBinding} {g : Group}

theorem HasGroup.weight_eq (h : HasGroup bindings b g) (hindexed : Indexed bindings)
    (hb : b ∈ bindings) {noted : List (Option Nat)}
    (hsites : ∀ c ∈ bindings, c.1.sites = noted.count (some c.2)) :
    g.weight = noted.countP fun entry => entry.any fun id => g.members.contains id := by
  have hsum : ∀ members : List IndexedBinding, members.Sublist bindings →
      members.foldr (fun c n => c.1.sites + n) 0 =
        noted.countP fun entry => entry.any fun id => (members.map Prod.snd).contains id := by
    intro members hmembers
    rw [← sum_count_some (hindexed.sublist (hmembers.map Prod.snd)), List.map_map]
    have heach : ∀ c ∈ members, c.1.sites = noted.count (some c.2) :=
      fun c hc => hsites c (hmembers.subset hc)
    clear hmembers
    induction members with
    | nil => rfl
    | cons c members ih =>
      rw [List.forall_mem_cons] at heach
      rw [List.foldr_cons, List.map_cons, List.sum_cons, ih heach.2, heach.1]
      rfl
  have hsingle : ∀ slot, (alone slot b).weight =
      noted.countP fun entry => entry.any fun id => (alone slot b).members.contains id :=
    fun _ => hsum [b] (List.singleton_sublist.2 hb)
  cases h with
  | unshared h =>
    obtain ⟨slot, rfl, -⟩ := unsharedGroup?_eq_some h
    exact hsingle slot
  | linked h => exact hsum _ List.filter_sublist
  | shared h _ => exact hsum _ List.filter_sublist
  | single _ _ => exact hsingle _

end IndexedBinding

namespace BindingTable

open Resolver

/-- The bindings noted for the variable sites of a stage in `StageBindings.sites`. -/
def noted (table : BindingTable) (stage : Stage) : List (Option Nat) :=
  ((table.stage? stage).map StageBindings.sites).getD []

/-- The number of sites in both stages that stand for a member of the group, counted from the table
and not from `Group.weight`. -/
def siteCount (table : BindingTable) (g : Group) : Nat :=
  (Stage.all.flatMap table.noted).countP fun entry => entry.any fun id => g.members.contains id

variable {vertex fragment : Shader}

theorem counted_ofShaders (vertex fragment : Shader) :
    Counted (Resolver.run .vertex [] vertex).sites
      (Resolver.run .fragment (Resolver.run .vertex [] vertex).bindings fragment) := by
  have hstart : Counted [] (start []) := ⟨by simp [start], by simp [start]⟩
  have hvertex : Counted _ (Resolver.run .vertex [] vertex) := hstart.run (by simp [start]) vertex
  have hfragment := hvertex.run (fun _ => stage_ne_of_mem_vertex) fragment
  simpa [start] using hfragment

theorem weight_eq_siteCount {g : Group} (hg : g ∈ (ofShaders vertex fragment).groups) :
    g.weight = (ofShaders vertex fragment).siteCount g := by
  obtain ⟨b, hb, hgroup⟩ := mem_groups.1 hg
  have hsites : ∀ c ∈ (ofShaders vertex fragment).bindings.zipIdx, c.1.sites =
      (Stage.all.flatMap (ofShaders vertex fragment).noted).count (some c.2) := by
    intro c hc
    rw [(counted_ofShaders vertex fragment).sites c.2 c.1 (mem_zipIdx.1 hc)]
    simp [Stage.all, noted, stage?, ofShaders, stageOf]
  exact hgroup.weight_eq (indexed_zipIdx _) hb hsites

end BindingTable

end ShaderMinifier
