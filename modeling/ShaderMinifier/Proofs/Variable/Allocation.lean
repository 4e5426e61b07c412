import ShaderMinifier.Proofs.ShortName
import ShaderMinifier.Proofs.Variable.Capture
import ShaderMinifier.Proofs.Variable.Group
import ShaderMinifier.Variable.Allocation

/-
  The names that groups are served with. A group never gets a name that is reserved in a stage
  where the group is visible, nor the name of another group that is visible at the same place;
  so the new names of a table separate its bindings.
-/

namespace ShaderMinifier

namespace Slot

theorem meets_comm (a b : Slot) : a.meets b = b.meets a := by
  cases a <;> cases b <;> simp [meets, eq_comm]

variable {a b : Slot} {stage : Stage} {extent extent' : Extent}

theorem Suits.meets (ha : Suits stage extent a) (hb : Suits stage extent' b)
    (h : extent.Meets extent') : a.meets b = true := by
  rcases h with rfl | rfl | rfl
  · cases ha <;> cases hb <;> simp [Slot.meets]
  · cases ha <;> cases hb <;> simp [Slot.meets]
  · cases ha <;> cases hb <;> simp [Slot.meets]

theorem Suits.isIn (h : Suits stage extent a) : a.isIn stage = true := by
  cases h <;> simp [Slot.isIn]

end Slot

/-! ## Serving -/

namespace Given

/-- The two groups do not have one name where both can be seen (`Slot.meets`). -/
def Distinct (e e' : Group × String) : Prop :=
  e.1.slot.meets e'.1.slot = true → e.2 ≠ e'.2

instance : Std.Symm Distinct where
  symm e e' h hmeets := (h (by rwa [Slot.meets_comm])).symm

/-- No group has a reserved name (`reservedFor`), and no two have one name where both can be seen
(`Distinct`). The invariant of `serve`. -/
structure Apart (reserved : List (Stage × String)) (given : Given) : Prop where
  notReserved : ∀ entry ∈ given, entry.2 ∉ reservedFor reserved entry.1.slot
  pairwise : given.Pairwise Distinct

namespace Apart

variable {reserved : List (Stage × String)} {given : Given}

theorem nil (reserved : List (Stage × String)) : Apart reserved [] := ⟨by simp, .nil⟩

/-- One group that is served with a name that is neither reserved nor blocking keeps `Apart`. -/
theorem cons (h : Apart reserved given) {g : Group} {name : String}
    (hname : name ∉ reservedFor reserved g.slot ++ given.blocking g.slot) :
    Apart reserved ((g, name) :: given) := by
  rw [List.mem_append, not_or] at hname
  refine ⟨List.forall_mem_cons.2 ⟨hname.1, h.notReserved⟩, List.pairwise_cons.2 ⟨?_, h.pairwise⟩⟩
  rintro ⟨g', name'⟩ hentry hmeets rfl
  exact hname.2 (List.mem_map.2 ⟨_, List.mem_filter.2 ⟨hentry, hmeets⟩, rfl⟩)

/-- Any groups that `serve` serves keep `Apart`; by induction on the groups. -/
theorem serve (h : Apart reserved given) (groups : List Group) :
    Apart reserved (serve reserved given groups) := by
  induction groups generalizing given with
  | nil => exact h
  | cons g groups ih => exact ih (h.cons (ShortName.firstFree_not_mem _))

/-- Groups with one name that can be seen at one place are one group, where `given` is `Apart`. -/
theorem eq_of_meets (h : Apart reserved given) {e e' : Group × String} (he : e ∈ given)
    (he' : e' ∈ given) (hmeets : e.1.slot.meets e'.1.slot = true) (hname : e.2 = e'.2) :
    e = e' := by
  by_contra hne
  exact h.pairwise.forall he he' hne hmeets hname

end Apart

end Given

theorem map_fst_serve (reserved : List (Stage × String)) (given : Given) (groups : List Group) :
    (serve reserved given groups).map Prod.fst = groups.reverse ++ given.map Prod.fst := by
  induction groups generalizing given with
  | nil => rfl
  | cons g groups ih => rw [serve, ih, List.map_cons, List.reverse_cons, List.append_assoc]; rfl

namespace BindingTable

open IndexedBinding

variable {table : BindingTable} {id : Nat} {b : Binding} {name : String}

theorem allocation_apart (table : BindingTable) : table.allocation.Apart table.reserved := by
  have h := (Given.Apart.nil table.reserved).serve table.servedGroups
  refine ⟨fun entry hentry => h.notReserved entry (List.mem_reverse.1 hentry), ?_⟩
  exact List.pairwise_reverse.2 (h.pairwise.imp fun hdistinct => symm hdistinct)

theorem map_fst_allocation (table : BindingTable) :
    table.allocation.map Prod.fst = table.servedGroups := by
  rw [allocation, List.map_reverse, map_fst_serve, List.map_nil, List.append_nil,
    List.reverse_reverse]

theorem mem_members {g : Group} (hid : id ∈ g.members) (hb : table.bindings[id]? = some b) :
    b ∈ table.members g :=
  List.mem_filterMap.2 ⟨id, hid, hb⟩

theorem mem_servedGroups {g : Group} :
    g ∈ table.servedGroups ↔ g ∈ table.groups ∧ table.isPinned g = false := by
  rw [servedGroups, Sorting.mem_sort, List.mem_filter, Bool.not_eq_true']

theorem isPinned_iff {g : Group} : table.isPinned g = true ↔
    ∃ i ∈ g.members, ∃ b, table.bindings[i]? = some b ∧ b.name ∈ table.directiveWords b.stage := by
  simp only [isPinned, BindingTable.members, List.any_eq_true, List.mem_filterMap,
    List.contains_iff_mem]
  constructor
  · rintro ⟨b, ⟨i, hi, hb⟩, hword⟩
    exact ⟨i, hi, b, hb, hword⟩
  · rintro ⟨i, hi, b, hb, hword⟩
    exact ⟨b, ⟨i, hi, hb⟩, hword⟩

theorem mem_reservedNames {stage : Stage} :
    name ∈ table.reservedNames stage ↔
      (name ∈ table.freeNames stage ∨ name ∈ table.directiveWords stage) ∨
        ∃ g ∈ table.pinnedGroups, ∃ b ∈ table.members g, b.stage = stage ∧ b.name = name := by
  rw [reservedNames, List.mem_eraseDups, List.mem_append, List.mem_append]
  refine or_congr_right ?_
  simp only [List.mem_map, List.mem_filter, List.mem_flatMap, decide_eq_true_eq]
  constructor
  · rintro ⟨b, ⟨⟨g, hg, hb⟩, hstage⟩, hname⟩
    exact ⟨g, hg, b, hb, hstage, hname⟩
  · rintro ⟨g, hg, b, hb, hstage, hname⟩
    exact ⟨b, ⟨⟨g, hg, hb⟩, hstage⟩, hname⟩

theorem not_mem_reservedNames_of_mem_allocation {g : Group} (h : (g, name) ∈ table.allocation)
    {stage : Stage} (hstage : g.slot.isIn stage = true) : name ∉ table.reservedNames stage := by
  intro hname
  refine table.allocation_apart.notReserved _ h ?_
  refine List.mem_map.2 ⟨(stage, name), List.mem_filter.2 ⟨?_, hstage⟩, rfl⟩
  refine List.mem_flatMap.2 ⟨stage, by cases stage <;> simp [Stage.all], ?_⟩
  exact List.mem_map.2 ⟨name, hname, rfl⟩

theorem newName?_eq_some (h : newName? table.allocation id = some name)
    (hb : table.bindings[id]? = some b) :
    ∃ g, (g, name) ∈ table.allocation ∧ HasGroup table.bindings.zipIdx (b, id) g := by
  obtain ⟨⟨g, name⟩, hfind, rfl⟩ := Option.map_eq_some_iff.1 h
  have hentry := List.mem_of_find?_eq_some hfind
  have hid : id ∈ g.members := by simpa using List.find?_some hfind
  have hserved : g ∈ table.servedGroups := by
    rw [← map_fst_allocation]
    exact List.mem_map_of_mem hentry
  exact ⟨g, hentry, hasGroup_of_mem (mem_servedGroups.1 hserved).1 hid hb⟩

/-- The bindings without a new name (`newName?`) are those in groups that keep their names
(`isPinned`). -/
theorem newName?_eq_none_iff {g : Group} (hb : table.bindings[id]? = some b)
    (hg : HasGroup table.bindings.zipIdx (b, id) g) :
    newName? table.allocation id = none ↔ table.isPinned g = true := by
  constructor
  · intro hnone
    by_contra hpinned
    have hgroup : g ∈ table.groups := mem_groups.2 ⟨_, mem_zipIdx.2 hb, hg⟩
    have hserved : g ∈ table.servedGroups := mem_servedGroups.2 ⟨hgroup, by simpa using hpinned⟩
    rw [← map_fst_allocation] at hserved
    obtain ⟨entry, hentry, rfl⟩ := List.mem_map.1 hserved
    rw [newName?, Option.map_eq_none_iff, List.find?_eq_none] at hnone
    exact hnone entry hentry (by simpa using hg.mem (mem_zipIdx.2 hb))
  · intro hpinned
    rw [Option.eq_none_iff_forall_ne_some]
    intro name hname
    obtain ⟨g', hentry, hg'⟩ := newName?_eq_some hname hb
    obtain rfl := hg.unique hg'
    have hserved : g ∈ table.servedGroups := by
      rw [← map_fst_allocation]
      exact List.mem_map_of_mem hentry
    rw [(mem_servedGroups.1 hserved).2] at hpinned
    cases hpinned

/-- A binding without a new name has its own among the `reservedNames`. -/
theorem newName?_eq_none (h : newName? table.allocation id = none)
    (hb : table.bindings[id]? = some b) : b.name ∈ table.reservedNames b.stage := by
  obtain ⟨g, hg, hid⟩ := exists_mem_groups hb
  have hpinned := (newName?_eq_none_iff hb (hasGroup_of_mem hg hid hb)).1 h
  exact mem_reservedNames.2
    (.inr ⟨g, List.mem_filter.2 ⟨hg, hpinned⟩, b, mem_members hid hb, rfl, rfl⟩)

theorem newName?_eq_none_of_word (hb : table.bindings[id]? = some b)
    (hword : b.name ∈ table.directiveWords b.stage) : newName? table.allocation id = none := by
  obtain ⟨g, hg, hid⟩ := exists_mem_groups hb
  exact (newName?_eq_none_iff hb (hasGroup_of_mem hg hid hb)).2
    (isPinned_iff.2 ⟨id, hid, b, hb, hword⟩)

theorem newName_not_word (hb : table.bindings[id]? = some b)
    (h : newName? table.allocation id = some name) : name ∉ table.directiveWords b.stage := by
  intro hword
  obtain ⟨g, hentry, hg⟩ := newName?_eq_some h hb
  exact not_mem_reservedNames_of_mem_allocation hentry hg.suits.isIn
    (mem_reservedNames.2 (.inl (.inr hword)))

theorem get_newNames (hb : table.bindings[id]? = some b) :
    table.newNames.get id = newName? table.allocation id := by
  obtain ⟨hid, -⟩ := List.getElem?_eq_some_iff.1 hb
  rw [NewNames.get, newNames, List.getElem?_map, List.getElem?_range hid]
  rfl

/-! ## The new names of a table -/

/-- The origins of the bindings of a table, on which `nameOf` falls back. -/
def origins (table : BindingTable) : List Origin := table.bindings.map Binding.origin

theorem getElem?_origins {o : Origin} (h : table.origins[id]? = some o) :
    ∃ b, table.bindings[id]? = some b ∧ b.origin = o := by
  rwa [origins, List.getElem?_map, Option.map_eq_some_iff] at h

theorem nameOf_newNames (hb : table.bindings[id]? = some b) :
    table.newNames.nameOf table.origins id =
      (newName? table.allocation id).getD b.name := by
  rw [NewNames.nameOf, get_newNames hb, origins, List.getElem?_map, hb]
  rfl

/-- The text of a declaration tells which variable it declares: globals of a stage that are declared
by one `signature` have one name. -/
def Legible (table : BindingTable) : Prop :=
  ∀ b ∈ table.bindings, ∀ c ∈ table.bindings, b.stage = c.stage → b.extent = .global →
    c.extent = .global → ∀ text, b.signature = some text → c.signature = some text →
    b.name = c.name

theorem Legible.name_eq (h : table.Legible) {i j : Nat} {b c : Binding} {g : Group}
    (hb : table.bindings[i]? = some b) (hc : table.bindings[j]? = some c)
    (hgb : HasGroup table.bindings.zipIdx (b, i) g)
    (hgc : HasGroup table.bindings.zipIdx (c, j) g) (hstage : b.stage = c.stage) :
    b.name = c.name := by
  rcases hgb.of_mem (hgc.mem (mem_zipIdx.2 hc)) with hij | ⟨⟨c', j'⟩, hc', hj, -, hshared⟩
  · obtain rfl : j = i := hij
    rw [hb] at hc
    rw [Option.some.inj hc]
  · obtain rfl : j' = j := hj
    obtain rfl := Option.some.inj (hc.symm.trans (mem_zipIdx.1 hc'))
    rcases hshared with ⟨name, hlink, hlink'⟩ | ⟨text, hown, hown'⟩
    · exact (linkName?_eq_some hlink).2.trans (linkName?_eq_some hlink').2.symm
    · exact h b (List.mem_of_getElem? hb) c (List.mem_of_getElem? hc) hstage
        (ownSignature?_eq_some hown).1 (ownSignature?_eq_some hown').1 text
        (ownSignature?_eq_some hown).2 (ownSignature?_eq_some hown').2

theorem newName_ne_kept {i j : Nat} {b c : Binding} (hb : table.bindings[i]? = some b)
    (hc : table.bindings[j]? = some c) (hstage : b.stage = c.stage)
    (hi : newName? table.allocation i = some name)
    (hj : newName? table.allocation j = none) : name ≠ c.name := by
  rintro rfl
  obtain ⟨g, hentry, hg⟩ := newName?_eq_some hi hb
  have hin : g.slot.isIn c.stage = true := by
    rw [← hstage]
    exact hg.suits.isIn
  exact not_mem_reservedNames_of_mem_allocation hentry hin (newName?_eq_none hj hc)

/-- The `newNames` of a `Legible` table separate the bindings of a stage: this is what `Separates`
needs for renaming to be safe. -/
theorem Legible.separates (h : table.Legible) (stage : Stage) :
    Separates (table.newNames.nameOf table.origins) stage table.origins
      (table.freeNames stage) where
  apart := by
    intro i j o p ho hp hstage hstage' hmeets hname
    obtain ⟨b, hb, rfl⟩ := getElem?_origins ho
    obtain ⟨c, hc, rfl⟩ := getElem?_origins hp
    have hsame : b.stage = c.stage := hstage.trans hstage'.symm
    rw [nameOf_newNames hb, nameOf_newNames hc] at hname
    cases hi : newName? table.allocation i with
    | none =>
      cases hj : newName? table.allocation j with
      | none =>
        rw [hi, hj] at hname
        exact hname
      | some name =>
        rw [hi, hj] at hname
        exact absurd hname.symm (newName_ne_kept hc hb hsame.symm hj hi)
    | some name =>
      cases hj : newName? table.allocation j with
      | none =>
        rw [hi, hj] at hname
        exact absurd hname (newName_ne_kept hb hc hsame hi hj)
      | some name' =>
        rw [hi, hj] at hname
        obtain ⟨g, hentry, hg⟩ := newName?_eq_some hi hb
        obtain ⟨g', hentry', hg'⟩ := newName?_eq_some hj hc
        have hsuits : Slot.Suits b.stage c.extent g'.slot := hsame ▸ hg'.suits
        have hmeet := hg.suits.meets hsuits hmeets
        obtain rfl := congrArg Prod.fst
          (table.allocation_apart.eq_of_meets hentry hentry' hmeet hname)
        exact h.name_eq hb hc hg hg' hsame
  notFree := by
    intro i o ho hstage hfree
    obtain ⟨b, hb, rfl⟩ := getElem?_origins ho
    rw [nameOf_newNames hb] at hfree ⊢
    cases hi : newName? table.allocation i with
    | none => rfl
    | some name =>
      rw [hi] at hfree
      obtain ⟨g, hentry, hg⟩ := newName?_eq_some hi hb
      have hin : g.slot.isIn stage = true := by
        rw [← hstage]
        exact hg.suits.isIn
      exact absurd (mem_reservedNames.2 (.inl (.inl hfree)))
        (not_mem_reservedNames_of_mem_allocation hentry hin)

end BindingTable

end ShaderMinifier
