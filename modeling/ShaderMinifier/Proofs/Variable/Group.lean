import ShaderMinifier.Proofs.Sorting
import ShaderMinifier.Variable.Group

/-
  The groups of a table part its bindings: every binding is in the one group that its own data
  say, and what shares a group is one variable, or is linked by one name, or is declared by one
  text.
-/

namespace ShaderMinifier

/-- The slot is where a binding of this stage and extent is visible, `shared` for globals too. -/
inductive Slot.Suits (stage : Stage) : Extent → Slot → Prop
  | shared : Suits stage .global .shared
  | global : Suits stage .global (.global stage)
  | inFunction (index : Nat) : Suits stage (.inFunction index) (.inFunction stage index)

theorem Slot.Suits.unique {stage : Stage} {extent : Extent} {a b : Slot}
    (ha : Suits stage extent a) (hb : Suits stage extent b) (hane : a ≠ .shared)
    (hbne : b ≠ .shared) : a = b := by
  cases ha <;> cases hb <;> first | rfl | contradiction

theorem Slot.Suits.global_of_global {stage stage' : Stage} {extent : Extent} {slot : Slot}
    (h : Suits stage .global slot) (h' : Suits stage' extent slot) : extent = .global := by
  cases h <;> cases h' <;> rfl

namespace IndexedBinding

variable {bindings : List IndexedBinding} {b b' : IndexedBinding} {g g' : Group}
  {name text : String}

/-- Both stages have one of the members, the test in `signatureGroups`. -/
def inBothStages (members : List IndexedBinding) : Bool :=
  Stage.all.all fun stage => members.any fun b => b.1.stage = stage

/-- The group of a binding among all bindings: one constructor for each way in which
`BindingTable.groups` makes groups. -/
inductive HasGroup (bindings : List IndexedBinding) (b : IndexedBinding) : Group → Prop
  | unshared {g : Group} (h : unsharedGroup? b = some g) : HasGroup bindings b g
  | linked {name : String} (h : linkName? b = some name) :
    HasGroup bindings b (together (withKey linkName? name bindings))
  | shared {text : String} (h : ownSignature? b = some text)
      (hboth : inBothStages (withKey ownSignature? text bindings) = true) :
    HasGroup bindings b (together (withKey ownSignature? text bindings))
  | single {text : String} (h : ownSignature? b = some text)
      (hboth : inBothStages (withKey ownSignature? text bindings) = false) :
    HasGroup bindings b (alone (.global b.1.stage) b)

theorem grouping_cases (b : IndexedBinding) :
    (∃ slot, unsharedGroup? b = some (alone slot b) ∧ Slot.Suits b.1.stage b.1.extent slot ∧
        slot ≠ .shared ∧ linkName? b = none ∧ ownSignature? b = none) ∨
      (b.1.extent = .global ∧ unsharedGroup? b = none ∧ linkName? b = some b.1.name ∧
        ownSignature? b = none) ∨
      b.1.extent = .global ∧ unsharedGroup? b = none ∧ linkName? b = none ∧
        (∃ text, ownSignature? b = some text ∧ b.1.signature = some text) := by
  rcases b with ⟨⟨name, stage, extent, linked, signature, sites⟩, id⟩
  cases extent with
  | inFunction index => exact .inl ⟨_, rfl, .inFunction index, Slot.noConfusion, rfl, rfl⟩
  | global =>
    cases linked with
    | true => exact .inr (.inl ⟨rfl, rfl, rfl, rfl⟩)
    | false =>
      cases signature with
      | none => exact .inl ⟨_, rfl, .global, Slot.noConfusion, rfl, rfl⟩
      | some text => exact .inr (.inr ⟨rfl, rfl, rfl, text, rfl, rfl⟩)

theorem unsharedGroup?_eq_some_iff :
    unsharedGroup? b = some g ↔ linkName? b = none ∧ ownSignature? b = none ∧
      ∃ slot, g = alone slot b ∧ Slot.Suits b.1.stage b.1.extent slot ∧ slot ≠ .shared := by
  rcases grouping_cases b with ⟨slot, halone, hslot, hne, hlink, hown⟩ |
    ⟨-, hnone, hlink, hown⟩ | ⟨-, hnone, hlink, text, hown, -⟩
  · rw [halone, Option.some.injEq]
    constructor
    · rintro rfl
      exact ⟨hlink, hown, slot, rfl, hslot, hne⟩
    · rintro ⟨-, -, slot', rfl, hslot', hne'⟩
      rw [hslot.unique hslot' hne hne']
  · simp [hnone, hlink]
  · simp [hnone, hown]

theorem unsharedGroup?_eq_some (h : unsharedGroup? b = some g) :
    ∃ slot, g = alone slot b ∧ Slot.Suits b.1.stage b.1.extent slot := by
  obtain ⟨-, -, slot, hg, hslot, -⟩ := unsharedGroup?_eq_some_iff.1 h
  exact ⟨slot, hg, hslot⟩

theorem linkName?_eq_some (h : linkName? b = some name) :
    b.1.extent = .global ∧ b.1.name = name := by
  rw [linkName?] at h
  split at h
  · simp_all
  · cases h

theorem ownSignature?_eq_some (h : ownSignature? b = some text) :
    b.1.extent = .global ∧ b.1.signature = some text := by
  rw [ownSignature?] at h
  split at h
  · simp_all
  · cases h

theorem mem_withKey {key : IndexedBinding → Option String} {value : String} :
    b ∈ withKey key value bindings ↔ b ∈ bindings ∧ key b = some value := by
  rw [withKey, List.mem_filter, beq_iff_eq]

theorem mem_keys {key : IndexedBinding → Option String} {value : String} :
    value ∈ BindingTable.keys key bindings ↔ ∃ b ∈ bindings, key b = some value := by
  rw [BindingTable.keys, Sorting.mem_distinctTexts, List.mem_filterMap]

theorem mem_signatureGroups {members : List IndexedBinding} :
    g ∈ signatureGroups members ↔
      (inBothStages members = true ∧ g = together members) ∨
        (inBothStages members = false ∧ ∃ b ∈ members, g = alone (.global b.1.stage) b) := by
  rw [signatureGroups, ← inBothStages]
  cases inBothStages members <;> simp [eq_comm]

namespace HasGroup

theorem exists_group (bindings : List IndexedBinding) (b : IndexedBinding) :
    ∃ g, HasGroup bindings b g := by
  rcases grouping_cases b with ⟨slot, h, -⟩ | ⟨-, -, h, -⟩ | ⟨-, -, -, text, h, -⟩
  · exact ⟨_, .unshared h⟩
  · exact ⟨_, .linked h⟩
  · cases hboth : inBothStages (withKey ownSignature? text bindings) with
    | true => exact ⟨_, .shared h hboth⟩
    | false => exact ⟨_, .single h hboth⟩

theorem unique (h : HasGroup bindings b g) (h' : HasGroup bindings b g') : g = g' := by
  have hcases := grouping_cases b
  cases h <;> cases h' <;> simp_all

theorem mem (h : HasGroup bindings b g) (hb : b ∈ bindings) : b.2 ∈ g.members := by
  cases h with
  | unshared h =>
    obtain ⟨slot, rfl, -⟩ := unsharedGroup?_eq_some h
    exact List.mem_singleton_self b.2
  | linked h => exact List.mem_map_of_mem (mem_withKey.2 ⟨hb, h⟩)
  | shared h _ => exact List.mem_map_of_mem (mem_withKey.2 ⟨hb, h⟩)
  | single _ _ => exact List.mem_singleton_self b.2

theorem suits (h : HasGroup bindings b g) : Slot.Suits b.1.stage b.1.extent g.slot := by
  cases h with
  | unshared h =>
    obtain ⟨slot, rfl, hslot⟩ := unsharedGroup?_eq_some h
    exact hslot
  | linked h =>
    rw [(linkName?_eq_some h).1]
    exact .shared
  | shared h _ =>
    rw [(ownSignature?_eq_some h).1]
    exact .shared
  | single h _ =>
    rw [(ownSignature?_eq_some h).1]
    exact .global

theorem of_mem (h : HasGroup bindings b g) {id : Nat} (hid : id ∈ g.members) :
    id = b.2 ∨ ∃ b' ∈ bindings, b'.2 = id ∧ HasGroup bindings b' g ∧
      ((∃ name, linkName? b = some name ∧ linkName? b' = some name) ∨
        ∃ text, ownSignature? b = some text ∧ ownSignature? b' = some text) := by
  cases h with
  | unshared h =>
    obtain ⟨slot, rfl, -⟩ := unsharedGroup?_eq_some h
    exact .inl (List.mem_singleton.1 hid)
  | linked h =>
    obtain ⟨b', hb', rfl⟩ := List.mem_map.1 hid
    obtain ⟨hb', h'⟩ := mem_withKey.1 hb'
    exact .inr ⟨b', hb', rfl, .linked h', .inl ⟨_, h, h'⟩⟩
  | shared h hboth =>
    obtain ⟨b', hb', rfl⟩ := List.mem_map.1 hid
    obtain ⟨hb', h'⟩ := mem_withKey.1 hb'
    exact .inr ⟨b', hb', rfl, .shared h' hboth, .inr ⟨_, h, h'⟩⟩
  | single _ _ => exact .inl (List.mem_singleton.1 hid)

end HasGroup

end IndexedBinding

namespace BindingTable

open IndexedBinding

variable {table : BindingTable} {g : Group}

theorem mem_groups :
    g ∈ table.groups ↔ ∃ b ∈ table.bindings.zipIdx, HasGroup table.bindings.zipIdx b g := by
  simp only [groups, List.mem_append, List.mem_filterMap, List.mem_map, List.mem_flatMap,
    mem_keys, mem_signatureGroups, mem_withKey]
  constructor
  · rintro ((⟨b, hb, h⟩ | ⟨name, ⟨b, hb, h⟩, rfl⟩) |
      ⟨text, ⟨b, hb, h⟩, ⟨hboth, rfl⟩ | ⟨hboth, b', ⟨hb', h'⟩, rfl⟩⟩)
    · exact ⟨b, hb, .unshared h⟩
    · exact ⟨b, hb, .linked h⟩
    · exact ⟨b, hb, .shared h hboth⟩
    · exact ⟨b', hb', .single h' hboth⟩
  · rintro ⟨b, hb, h | h | ⟨h, hboth⟩ | ⟨h, hboth⟩⟩
    · exact .inl (.inl ⟨b, hb, h⟩)
    · exact .inl (.inr ⟨_, ⟨b, hb, h⟩, rfl⟩)
    · exact .inr ⟨_, ⟨b, hb, h⟩, .inl ⟨hboth, rfl⟩⟩
    · exact .inr ⟨_, ⟨b, hb, h⟩, .inr ⟨hboth, b, ⟨hb, h⟩, rfl⟩⟩

theorem mem_zipIdx {b : IndexedBinding} :
    b ∈ table.bindings.zipIdx ↔ table.bindings[b.2]? = some b.1 := by
  rw [List.mem_zipIdx_iff_getElem?]

theorem hasGroup_of_mem {id : Nat} {b : Binding} (hg : g ∈ table.groups) (hid : id ∈ g.members)
    (hb : table.bindings[id]? = some b) : HasGroup table.bindings.zipIdx (b, id) g := by
  obtain ⟨⟨c, i⟩, hc, h⟩ := mem_groups.1 hg
  rcases h.of_mem hid with rfl | ⟨⟨c', i'⟩, hc', rfl, h', -⟩
  · obtain rfl := Option.some.inj (hb.symm.trans (mem_zipIdx.1 hc))
    exact h
  · obtain rfl := Option.some.inj (hb.symm.trans (mem_zipIdx.1 hc'))
    exact h'

theorem exists_mem_groups {id : Nat} {b : Binding} (hb : table.bindings[id]? = some b) :
    ∃ g ∈ table.groups, id ∈ g.members := by
  have hmem : (b, id) ∈ table.bindings.zipIdx := mem_zipIdx.2 hb
  obtain ⟨g, hg⟩ := HasGroup.exists_group table.bindings.zipIdx (b, id)
  exact ⟨g, mem_groups.2 ⟨_, hmem, hg⟩, hg.mem hmem⟩

end BindingTable

end ShaderMinifier
