import ShaderMinifier.Proofs.Variable.Allocation

/-
  The order in which groups are served. It tells the groups of a table apart, as no two of them
  have the same first member, and no group is listed twice; so the order in which groups are
  served depends only on which groups there are, and the new names on little more.
-/

namespace ShaderMinifier

/-! ## The order -/

theorem Slot.rank_inj {a b : Slot} (h : a.rank = b.rank) : a = b := by
  cases a with
  | shared => cases b with
    | shared => rfl
    | global stage => cases stage <;> simp [rank] at h
    | inFunction stage _ => cases stage <;> simp [rank] at h
  | global stage => cases b with
    | shared => cases stage <;> simp [rank] at h
    | global stage' => cases stage <;> cases stage' <;> simp_all [rank]
    | inFunction stage' _ => cases stage <;> cases stage' <;> simp [rank] at h
  | inFunction stage _ => cases b with
    | shared => cases stage <;> simp [rank] at h
    | global stage' => cases stage <;> cases stage' <;> simp [rank] at h
    | inFunction stage' _ => cases stage <;> cases stage' <;> simp_all [rank]

theorem Group.before_iff {a b : Group} :
    a.before b = true ↔
      a.slot.rank.1 < b.slot.rank.1 ∨ a.slot.rank.1 = b.slot.rank.1 ∧
        (a.slot.rank.2.1 < b.slot.rank.2.1 ∨ a.slot.rank.2.1 = b.slot.rank.2.1 ∧
          (a.slot.rank.2.2 < b.slot.rank.2.2 ∨ a.slot.rank.2.2 = b.slot.rank.2.2 ∧
            (b.weight < a.weight ∨ a.weight = b.weight ∧ a.first < b.first))) := by
  have hslot : a.slot = b.slot ↔ a.slot.rank.1 = b.slot.rank.1 ∧
      a.slot.rank.2.1 = b.slot.rank.2.1 ∧ a.slot.rank.2.2 = b.slot.rank.2.2 := by
    constructor
    · intro h
      simp [h]
    · rintro ⟨h₁, h₂, h₃⟩
      exact Slot.rank_inj (Prod.ext h₁ (Prod.ext h₂ h₃))
  simp only [before, Slot.before, Bool.or_eq_true, Bool.and_eq_true, decide_eq_true_eq,
    beq_iff_eq, hslot]
  omega

theorem Group.ranks_before : Sorting.Ranks Group.before where
  asymm := by
    intro a b h
    rw [← Bool.not_eq_true, before_iff]
    rw [before_iff] at h
    omega
  trans := by
    intro a b c hba hcb
    rw [← Bool.not_eq_true, before_iff] at hba hcb ⊢
    omega

theorem Group.first_eq_of_not_before {a b : Group} (hab : a.before b = false)
    (hba : b.before a = false) : a.first = b.first := by
  rw [← Bool.not_eq_true, before_iff] at hab hba
  omega

/-! ## No group twice -/

namespace IndexedBinding

variable {bindings : List IndexedBinding} {p q : IndexedBinding → Prop} {b b' : IndexedBinding}
  {g : Group}

/-- The indexes tell the bindings apart, as those of `List.zipIdx` do. -/
def Indexed (bindings : List IndexedBinding) : Prop := (bindings.map Prod.snd).Nodup

theorem Indexed.eq (h : Indexed bindings) (hb : b ∈ bindings) (hb' : b' ∈ bindings)
    (hindex : b.2 = b'.2) : b = b' :=
  List.inj_on_of_nodup_map h hb hb' hindex

/-- Some binding is in the group, and those that are have the property `p`. -/
structure Owned (bindings : List IndexedBinding) (p : IndexedBinding → Prop) (g : Group) :
    Prop where
  member : ∃ b ∈ bindings, b.2 ∈ g.members
  all : ∀ b ∈ bindings, b.2 ∈ g.members → p b

theorem Owned.both (hp : Owned bindings p g) (hq : Owned bindings q g) : ∃ b, p b ∧ q b := by
  obtain ⟨b, hb, hmem⟩ := hp.member
  exact ⟨b, hp.all b hb hmem, hq.all b hb hmem⟩

theorem owned_alone (h : Indexed bindings) (hb : b ∈ bindings) (hp : p b) (slot : Slot) :
    Owned bindings p (alone slot b) where
  member := ⟨b, hb, List.mem_singleton_self _⟩
  all := by
    intro c hc hmem
    rwa [h.eq hc hb (List.mem_singleton.1 hmem)]

theorem owned_together (h : Indexed bindings) {key : IndexedBinding → Option String}
    {value : String} (hb : b ∈ bindings) (hkey : key b = some value) :
    Owned bindings (fun b => key b = some value) (together (withKey key value bindings)) where
  member := ⟨b, hb, List.mem_map_of_mem (mem_withKey.2 ⟨hb, hkey⟩)⟩
  all := by
    intro c hc hmem
    obtain ⟨d, hd, hindex⟩ := List.mem_map.1 hmem
    obtain ⟨hd, hdkey⟩ := mem_withKey.1 hd
    rwa [h.eq hc hd hindex.symm]

theorem owned_signatureGroups (h : Indexed bindings) {text : String}
    (hg : g ∈ signatureGroups (withKey ownSignature? text bindings))
    (hb : b ∈ bindings) (hkey : ownSignature? b = some text) :
    Owned bindings (fun b => ownSignature? b = some text) g := by
  rcases mem_signatureGroups.1 hg with ⟨-, rfl⟩ | ⟨-, c, hc, rfl⟩
  · exact owned_together h hb hkey
  · obtain ⟨hc, hckey⟩ := mem_withKey.1 hc
    exact owned_alone h hc hckey _

theorem nodup_filterMap_alone (h : Indexed bindings) {f : IndexedBinding → Option Group}
    (hf : ∀ b g, f b = some g → g.members = [b.2]) : (bindings.filterMap f).Nodup := by
  rw [List.Nodup, List.pairwise_filterMap]
  rw [Indexed, List.Nodup, List.pairwise_map] at h
  refine h.imp fun hne g hg g' hg' hgg => hne ?_
  have hmembers := hf _ g hg
  rw [hgg, hf _ g' hg'] at hmembers
  exact (List.singleton_inj.1 hmembers).symm

theorem nodup_signatureGroups (h : Indexed bindings) (text : String) :
    (signatureGroups (withKey ownSignature? text bindings)).Nodup := by
  rw [signatureGroups]
  split
  · exact List.nodup_singleton _
  · rw [← List.filterMap_eq_map, withKey, List.filterMap_filter]
    refine nodup_filterMap_alone h fun b g hg => ?_
    simp only [Option.ite_none_right_eq_some, Function.comp_apply, Option.some.injEq] at hg
    rw [← hg.2]
    rfl

end IndexedBinding

namespace BindingTable

open IndexedBinding

variable {table : BindingTable}

theorem indexed_zipIdx (table : BindingTable) : Indexed table.bindings.zipIdx :=
  List.nodup_zipIdx_map_snd _

theorem nodup_groups (table : BindingTable) : table.groups.Nodup := by
  have hindexed := table.indexed_zipIdx
  have hunshared : ∀ g ∈ table.bindings.zipIdx.filterMap unsharedGroup?,
      Owned table.bindings.zipIdx (fun b => linkName? b = none ∧ ownSignature? b = none) g := by
    intro g hg
    obtain ⟨b, hb, h⟩ := List.mem_filterMap.1 hg
    obtain ⟨hlink, hown, slot, rfl, -⟩ := unsharedGroup?_eq_some_iff.1 h
    exact owned_alone hindexed hb ⟨hlink, hown⟩ slot
  have hlinked : ∀ name ∈ keys linkName? table.bindings.zipIdx,
      Owned table.bindings.zipIdx (fun b => linkName? b = some name)
        (together (withKey linkName? name table.bindings.zipIdx)) := by
    intro name hname
    obtain ⟨b, hb, hkey⟩ := mem_keys.1 hname
    exact owned_together hindexed hb hkey
  have hshared : ∀ text ∈ keys ownSignature? table.bindings.zipIdx,
      ∀ g ∈ signatureGroups (withKey ownSignature? text table.bindings.zipIdx),
      Owned table.bindings.zipIdx (fun b => ownSignature? b = some text) g := by
    intro text htext g hg
    obtain ⟨b, hb, hkey⟩ := mem_keys.1 htext
    exact owned_signatureGroups hindexed hg hb hkey
  refine List.Nodup.append (List.Nodup.append ?_ ?_ ?_) ?_ ?_
  · refine nodup_filterMap_alone hindexed fun b g hg => ?_
    obtain ⟨slot, rfl, -⟩ := unsharedGroup?_eq_some hg
    rfl
  · refine List.Nodup.map_on (fun name hname name' hname' hsame => ?_)
      (Sorting.nodup_distinctTexts _)
    obtain ⟨b, hb, hb'⟩ := (hlinked name hname).both (hsame ▸ hlinked name' hname')
    exact Option.some.inj (hb.symm.trans hb')
  · intro g hg hg'
    obtain ⟨name, hname, rfl⟩ := List.mem_map.1 hg'
    obtain ⟨b, hb, hb'⟩ := (hunshared _ hg).both (hlinked name hname)
    exact absurd (hb.1.symm.trans hb') (by simp)
  · refine List.nodup_flatMap.2 ⟨fun text _ => nodup_signatureGroups hindexed text, ?_⟩
    refine (Sorting.nodup_distinctTexts _).pairwise_of_forall_ne ?_
    intro text htext text' htext' hne g hg hg'
    obtain ⟨b, hb, hb'⟩ := (hshared text htext g hg).both (hshared text' htext' g hg')
    exact hne (Option.some.inj (hb.symm.trans hb'))
  · intro g hg hg'
    obtain ⟨text, htext, hg'⟩ := List.mem_flatMap.1 hg'
    rcases List.mem_append.1 hg with hg | hg
    · obtain ⟨b, hb, hb'⟩ := (hunshared g hg).both (hshared text htext g hg')
      exact absurd (hb.2.symm.trans hb') (by simp)
    · obtain ⟨name, hname, rfl⟩ := List.mem_map.1 hg
      obtain ⟨b, hb, hb'⟩ := (hlinked name hname).both (hshared text htext _ hg')
      rcases grouping_cases b with ⟨_, _, _, _, hnone, _⟩ | ⟨_, _, _, hnone⟩ | ⟨_, _, hnone, _⟩
      · exact absurd (hnone.symm.trans hb) (by simp)
      · exact absurd (hnone.symm.trans hb') (by simp)
      · exact absurd (hnone.symm.trans hb) (by simp)

/-! ## Serving -/

theorem first_mem {g : Group} (hg : g ∈ table.groups) :
    g.first ∈ g.members ∧ ∃ b, table.bindings[g.first]? = some b := by
  obtain ⟨⟨b, i⟩, hb, hgroup⟩ := mem_groups.1 hg
  have hmem := hgroup.mem hb
  have hfirst : g.first ∈ g.members := by
    rw [Group.first]
    cases hmembers : g.members with
    | nil => simp [hmembers] at hmem
    | cons first rest => simp
  refine ⟨hfirst, ?_⟩
  rcases hgroup.of_mem hfirst with heq | ⟨⟨c, j⟩, hc, heq, -⟩
  · exact ⟨b, by rw [heq]; exact mem_zipIdx.1 hb⟩
  · exact ⟨c, by rw [← heq]; exact mem_zipIdx.1 hc⟩

/-- Groups of a table that the order `before` does not tell apart are one. -/
theorem eq_of_not_before {g g' : Group} (hg : g ∈ table.groups) (hg' : g' ∈ table.groups)
    (hbefore : g.before g' = false) (hbefore' : g'.before g = false) : g = g' := by
  have hfirst := Group.first_eq_of_not_before hbefore hbefore'
  obtain ⟨hmem, b, hb⟩ := first_mem hg
  have hmem' := (first_mem hg').1
  rw [← hfirst] at hmem'
  exact (hasGroup_of_mem hg hmem hb).unique (hasGroup_of_mem hg' hmem' hb)

theorem servedGroups_congr {table table' : BindingTable}
    (hgroups : ∀ g, g ∈ table'.groups ↔ g ∈ table.groups)
    (hpinned : ∀ g ∈ table.groups, table'.isPinned g = table.isPinned g) :
    table'.servedGroups = table.servedGroups := by
  refine Group.ranks_before.sort_eq ?_ fun g hg g' hg' => ?_
  · rw [List.perm_ext_iff_of_nodup (table'.nodup_groups.filter _) (table.nodup_groups.filter _)]
    intro g
    rw [List.mem_filter, List.mem_filter, hgroups]
    refine and_congr_right fun hg => ?_
    rw [hpinned g hg]
  · exact eq_of_not_before (List.mem_of_mem_filter hg) (List.mem_of_mem_filter hg')

end BindingTable

theorem serve_congr {reserved reserved' : List (Stage × String)}
    (h : ∀ entry, entry ∈ reserved' ↔ entry ∈ reserved) (given : Given) (groups : List Group) :
    serve reserved' given groups = serve reserved given groups := by
  induction groups generalizing given with
  | nil => rfl
  | cons g groups ih =>
    have hname : ShortName.firstFree (reservedFor reserved' g.slot ++ given.blocking g.slot) =
        ShortName.firstFree (reservedFor reserved g.slot ++ given.blocking g.slot) := by
      refine ShortName.firstFree_congr fun name => ?_
      simp only [List.mem_append, reservedFor, List.mem_map, List.mem_filter, h]
    rw [serve, serve, hname, ih]

/-! ## What new names depend on -/

namespace BindingTable

/-- The tables agree in all that new names depend on: the `groups`, which of them keep their names,
these names, and the names that are not theirs to give. -/
structure NamesAlike (table table' : BindingTable) : Prop where
  length : table'.bindings.length = table.bindings.length
  groups : ∀ g, g ∈ table'.groups ↔ g ∈ table.groups
  pinned : ∀ g ∈ table.groups, table'.isPinned g = table.isPinned g
  kept : ∀ g ∈ table.groups, table.isPinned g = true → ∀ i ∈ g.members, ∀ b b',
    table.bindings[i]? = some b → table'.bindings[i]? = some b' →
    b'.stage = b.stage ∧ b'.name = b.name
  words : ∀ stage name, name ∈ table'.directiveWords stage ↔ name ∈ table.directiveWords stage
  free : ∀ stage name, name ∈ table'.freeNames stage ↔ name ∈ table.freeNames stage

namespace NamesAlike

variable {table table' : BindingTable}

theorem mem_pinnedGroups_iff (h : NamesAlike table table') (g : Group) :
    g ∈ table'.pinnedGroups ↔ g ∈ table.pinnedGroups := by
  rw [pinnedGroups, pinnedGroups, List.mem_filter, List.mem_filter, h.groups]
  refine and_congr_right fun hg => ?_
  rw [h.pinned g hg]

theorem map_kept (h : NamesAlike table table') {g : Group} (hg : g ∈ table.groups)
    (hpinned : table.isPinned g = true) {i : Nat} (hi : i ∈ g.members) :
    (table'.bindings[i]?.map fun b => (b.stage, b.name)) =
      table.bindings[i]?.map fun b => (b.stage, b.name) := by
  by_cases hlt : i < table.bindings.length
  · have hb := List.getElem?_eq_getElem hlt
    have hb' := List.getElem?_eq_getElem (h.length ▸ hlt)
    obtain ⟨hstage, hname⟩ := h.kept g hg hpinned i hi _ _ hb hb'
    rw [hb, hb', Option.map_some, Option.map_some, hstage, hname]
  · rw [List.getElem?_eq_none (Nat.not_lt.1 hlt),
      List.getElem?_eq_none (h.length ▸ Nat.not_lt.1 hlt)]

theorem mem_reservedNames_iff (h : NamesAlike table table') (stage : Stage) (name : String) :
    name ∈ table'.reservedNames stage ↔ name ∈ table.reservedNames stage := by
  have hmember : ∀ (table : BindingTable) (g : Group),
      (∃ b ∈ table.members g, b.stage = stage ∧ b.name = name) ↔ ∃ i ∈ g.members,
        (table.bindings[i]?.map fun b => (b.stage, b.name)) = some (stage, name) := by
    intro table g
    simp only [BindingTable.members, List.mem_filterMap, Option.map_eq_some_iff, Prod.mk.injEq]
    constructor
    · rintro ⟨b, ⟨i, hi, hb⟩, hname⟩
      exact ⟨i, hi, b, hb, hname⟩
    · rintro ⟨i, hi, b, hb, hname⟩
      exact ⟨b, ⟨i, hi, hb⟩, hname⟩
  simp only [mem_reservedNames, h.words, h.free, h.mem_pinnedGroups_iff, hmember]
  refine or_congr_right (exists_congr fun g => and_congr_right fun hg => ?_)
  obtain ⟨hg, hpinned⟩ := List.mem_filter.1 hg
  refine exists_congr fun i => and_congr_right fun hi => ?_
  rw [h.map_kept hg hpinned hi]

theorem newNames_eq (h : NamesAlike table table') : table'.newNames = table.newNames := by
  have hreserved : ∀ entry, entry ∈ table'.reserved ↔ entry ∈ table.reserved := by
    intro entry
    simp only [reserved, List.mem_flatMap, List.mem_map, h.mem_reservedNames_iff]
  have hallocation : table'.allocation = table.allocation := by
    rw [allocation, allocation, servedGroups_congr h.groups h.pinned, serve_congr hreserved]
  rw [newNames, newNames, hallocation, h.length]

end NamesAlike

end BindingTable

end ShaderMinifier
