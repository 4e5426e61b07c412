import ShaderMinifier.Proofs.Lists
import ShaderMinifier.Proofs.Site.Restore
import ShaderMinifier.Proofs.Variable.Link
import ShaderMinifier.Proofs.Variable.Order

/-
  Renaming the variables of a program that was renamed before. The table of the renamed program
  has the same bindings, and groups that are not shared by their text stay as they are. Whether
  globals of the two stages are declared by one text (`Alike`) can change with their names; where it
  does not, the groups are the same, they are served in the same order with the same names, and
  nothing changes any more. It cannot change where all globals of one stage are linked
  (`renameVariables_repeat_of_linked`). Where it does, a second renaming can swap two names
  (`renameVariables_swaps_uniform`).
-/

namespace ShaderMinifier

/-! ## What groups depend on -/

theorem Stage.exists_ne (stage : Stage) : ∃ other, other ≠ stage := by
  cases stage with
  | vertex => exact ⟨.fragment, by decide⟩
  | fragment => exact ⟨.vertex, by decide⟩

theorem Stage.eq_of_ne {a b c : Stage} (hab : a ≠ b) (hbc : b ≠ c) : a = c := by
  cases a <;> cases b <;> cases c <;> first | rfl | contradiction

namespace IndexedBinding

theorem not_linked_of_ownSignature? {b : IndexedBinding} {text : String}
    (h : ownSignature? b = some text) : b.1.extent = .global ∧ b.1.linked = false := by
  rw [ownSignature?] at h
  split at h
  · simp_all
  · cases h

/-- What a `Group` keeps of a member: its index, its stage and the number of its sites. -/
def outline (b : IndexedBinding) : Nat × Stage × Nat := (b.2, b.1.stage, b.1.sites)

variable {members members' : List IndexedBinding}

theorem together_congr (h : members'.map outline = members.map outline) :
    together members' = together members := by
  have hindexes : ∀ ms : List IndexedBinding,
      ms.map Prod.snd = (ms.map outline).map Prod.fst := by
    intro ms
    rw [List.map_map]
    rfl
  have hweight : ∀ ms : List IndexedBinding, ms.foldr (fun b n => b.1.sites + n) 0 =
      (ms.map outline).foldr (fun o n => o.2.2 + n) 0 := by
    intro ms
    rw [List.foldr_map]
    rfl
  rw [together, together, hindexes, hweight, h, ← hindexes, ← hweight]

theorem inBothStages_congr (h : members'.map outline = members.map outline) :
    inBothStages members' = inBothStages members := by
  have hany : ∀ (ms : List IndexedBinding) (stage : Stage),
      (ms.any fun b => b.1.stage = stage) = (ms.map outline).any fun o => o.2.1 = stage := by
    intro ms stage
    rw [List.any_map]
    rfl
  simp only [inBothStages, hany, h]

end IndexedBinding

namespace BindingTable

open IndexedBinding

/-- The text that a global which is not linked is always declared by (`ownSignature?`), found by its
index. -/
def signatureAt? (table : BindingTable) (i : Nat) : Option String :=
  table.bindings[i]?.bind fun b => ownSignature? (b, i)

/-- The stage of a binding, found by its index. -/
def stageAt? (table : BindingTable) (i : Nat) : Option Stage := table.bindings[i]?.map Binding.stage

/-- Two globals of different stages that are not linked are always declared by one text, as
`signatureAt?` gives it: the globals that `signatureGroups` puts into one shared group. -/
def Alike (table : BindingTable) (i j : Nat) : Prop :=
  table.signatureAt? i ≠ none ∧ table.signatureAt? j = table.signatureAt? i ∧
    table.stageAt? j ≠ table.stageAt? i

instance (table : BindingTable) (i j : Nat) : Decidable (table.Alike i j) :=
  inferInstanceAs (Decidable (_ ∧ _))

variable {table table' : BindingTable} {i j : Nat} {b c : Binding} {text : String}

theorem signatureAt?_eq (hb : table.bindings[i]? = some b) :
    table.signatureAt? i = ownSignature? (b, i) := by
  rw [signatureAt?, hb, Option.bind_some]

theorem alike_iff (hb : table.bindings[i]? = some b) (hc : table.bindings[j]? = some c)
    (htext : ownSignature? (b, i) = some text) :
    table.Alike i j ↔ ownSignature? (c, j) = some text ∧ c.stage ≠ b.stage := by
  rw [Alike, signatureAt?_eq hb, signatureAt?_eq hc, stageAt?, stageAt?, hb, hc, htext]
  simp

theorem alike_iff_of_ne (hb : table.bindings[i]? = some b) (hc : table.bindings[j]? = some c)
    (htext : ownSignature? (b, i) = some text) (hne : c.stage ≠ b.stage) :
    table.Alike i j ↔ ownSignature? (c, j) = some text := by
  rw [alike_iff hb hc htext, and_iff_left hne]

theorem lt_of_signatureAt? (h : table.signatureAt? i ≠ none) : i < table.bindings.length := by
  by_contra hi
  rw [Nat.not_lt, ← List.getElem?_eq_none_iff] at hi
  rw [signatureAt?, hi] at h
  exact h rfl

theorem Alike.exists_bindings (h : table.Alike i j) :
    ∃ b c text, table.bindings[i]? = some b ∧ table.bindings[j]? = some c ∧
      ownSignature? (b, i) = some text ∧ ownSignature? (c, j) = some text ∧
      c.stage ≠ b.stage := by
  have hb := List.getElem?_eq_getElem (lt_of_signatureAt? h.1)
  have hc := List.getElem?_eq_getElem (lt_of_signatureAt? (h.2.1 ▸ h.1))
  have htext := h.1
  rw [signatureAt?_eq hb, Option.ne_none_iff_exists'] at htext
  obtain ⟨text, htext⟩ := htext
  exact ⟨_, _, text, hb, hc, htext, (alike_iff hb hc htext).1 h⟩

theorem alike_congr (hlength : table'.bindings.length = table.bindings.length)
    (h : ∀ i < table.bindings.length, ∀ j < table.bindings.length,
      (table'.Alike i j ↔ table.Alike i j)) (i j : Nat) :
    table'.Alike i j ↔ table.Alike i j := by
  constructor
  · intro halike
    have hi := lt_of_signatureAt? halike.1
    have hj := lt_of_signatureAt? (halike.2.1 ▸ halike.1)
    rw [hlength] at hi hj
    exact (h i hi j hj).1 halike
  · intro halike
    have hi := lt_of_signatureAt? halike.1
    have hj := lt_of_signatureAt? (halike.2.1 ▸ halike.1)
    exact (h i hi j hj).2 halike

theorem inBothStages_iff {members : List IndexedBinding} :
    inBothStages members = true ↔ ∀ stage, ∃ c ∈ members, c.1.stage = stage := by
  simp only [inBothStages, List.all_eq_true, List.any_eq_true, decide_eq_true_eq]
  exact ⟨fun h stage => h stage (by cases stage <;> decide), fun h stage _ => h stage⟩

/-- The globals that are declared by the text of one of them stand in both stages exactly if one of
them is `Alike` to it. -/
theorem exists_alike_iff (hb : table.bindings[i]? = some b)
    (htext : ownSignature? (b, i) = some text) :
    (∃ j, table.Alike i j) ↔
      inBothStages (withKey ownSignature? text table.bindings.zipIdx) = true := by
  rw [inBothStages_iff]
  constructor
  · rintro ⟨j, halike⟩ stage
    obtain ⟨b', c, text', hb', hc, htext', hc', hne⟩ := halike.exists_bindings
    obtain rfl : b = b' := Option.some.inj (hb.symm.trans hb')
    obtain rfl : text = text' := Option.some.inj (htext.symm.trans htext')
    by_cases hstage : b.stage = stage
    · exact ⟨(b, i), mem_withKey.2 ⟨mem_zipIdx.2 hb, htext⟩, hstage⟩
    · refine ⟨(c, j), mem_withKey.2 ⟨mem_zipIdx.2 hc, hc'⟩, ?_⟩
      exact Stage.eq_of_ne hne hstage
  · intro hboth
    obtain ⟨stage, hne⟩ := b.stage.exists_ne
    obtain ⟨⟨c, j⟩, hc, hstage⟩ := hboth stage
    rw [mem_withKey, mem_zipIdx] at hc
    exact ⟨j, (alike_iff hb hc.1 htext).2 ⟨hc.2, hstage ▸ hne⟩⟩

theorem hasGroup_alone {slot : Slot} (hb : table.bindings[i]? = some b)
    (hlink : linkName? (b, i) = none) (hno : ∀ j, ¬ table.Alike i j)
    (hslot : Slot.Suits b.stage b.extent slot) (hne : slot ≠ .shared) :
    HasGroup table.bindings.zipIdx (b, i) (alone slot (b, i)) := by
  rcases grouping_cases (b, i) with ⟨-, -, -, -, -, hown⟩ | ⟨-, -, hlink', -⟩ |
    ⟨hglobal, -, -, text, hown, -⟩
  · exact .unshared (unsharedGroup?_eq_some_iff.2 ⟨hlink, hown, slot, rfl, hslot, hne⟩)
  · rw [hlink] at hlink'
    cases hlink'
  · rw [hglobal] at hslot
    obtain rfl := hslot.unique .global hne Slot.noConfusion
    refine .single hown ?_
    rw [← Bool.not_eq_true, ← exists_alike_iff hb hown]
    exact fun halike => halike.elim hno

namespace Renamed

variable {b' : Binding} {g : Group}

theorem exists_binding (h : Renamed table.newNames table table')
    (hb : table.bindings[i]? = some b) : ∃ b', table'.bindings[i]? = some b' := by
  obtain ⟨hi, -⟩ := List.getElem?_eq_some_iff.1 hb
  exact ⟨_, List.getElem?_eq_getElem (h.bindings.length ▸ hi)⟩

theorem exists_old (h : Renamed table.newNames table table')
    (hb' : table'.bindings[i]? = some b') : ∃ b, table.bindings[i]? = some b := by
  obtain ⟨hi, -⟩ := List.getElem?_eq_some_iff.1 hb'
  exact ⟨_, List.getElem?_eq_getElem (h.bindings.length ▸ hi)⟩

theorem mirrors (h : Renamed table.newNames table table') (hb : table.bindings[i]? = some b)
    (hb' : table'.bindings[i]? = some b') :
    b.Mirrors ((newName? table.allocation i).getD b.name) b' := by
  have hmirrors := h.bindings.each i b b' hb hb'
  rwa [nameOf_newNames hb] at hmirrors

theorem directiveWords (h : Renamed table.newNames table table') (stage : Stage) :
    table'.directiveWords stage = table.directiveWords stage := by
  cases stage <;> simp only [BindingTable.directiveWords, stage?, h.vertex, h.fragment]

theorem freeNames (h : Renamed table.newNames table table') (stage : Stage) :
    table'.freeNames stage = table.freeNames stage := by
  cases stage <;> simp only [BindingTable.freeNames, stage?, h.vertex, h.fragment]

/-! ## The groups -/

theorem map_outline_withKey (h : Renamed table.newNames table table')
    {key : IndexedBinding → Option String} {value value' : String}
    (hkey : ∀ j c c', table.bindings[j]? = some c → table'.bindings[j]? = some c' →
      (key (c', j) = some value' ↔ key (c, j) = some value)) :
    (withKey key value' table'.bindings.zipIdx).map outline =
      (withKey key value table.bindings.zipIdx).map outline := by
  refine map_filter_congr (List.forall₂_iff_get.2 ⟨by simp [h.bindings.length], ?_⟩)
  intro j hj hj'
  simp only [List.get_eq_getElem, List.getElem_zipIdx, Nat.zero_add]
  rw [List.length_zipIdx] at hj hj'
  have hc := List.getElem?_eq_getElem hj
  have hc' := List.getElem?_eq_getElem hj'
  have hmirrors := h.mirrors hc hc'
  refine ⟨by rw [outline, outline, hmirrors.stage, hmirrors.sites], ?_⟩
  rw [Bool.eq_iff_iff, beq_iff_eq, beq_iff_eq]
  exact hkey j _ _ hc hc'

theorem linkName?_iff (h : Renamed table.newNames table table') {c c' : Binding} {j : Nat}
    (hb : table.bindings[i]? = some b) (hb' : table'.bindings[i]? = some b')
    (hlink : linkName? (b, i) = some b.name) (hc : table.bindings[j]? = some c)
    (hc' : table'.bindings[j]? = some c') :
    linkName? (c', j) = some b'.name ↔ linkName? (c, j) = some b.name := by
  have hname := (h.bindings.each i b b' hb hb').name
  have hcname := (h.bindings.each j c c' hc hc').name
  have hmirrors := h.mirrors hc hc'
  rw [linkName?, linkName?, hmirrors.extent, hmirrors.linked, hname, hcname]
  by_cases hlinked : (c.extent = .global && c.linked) = true
  · have hclink : linkName? (c, j) = some c.name := by rw [linkName?, if_pos hlinked]
    rw [if_pos hlinked, if_pos hlinked, Option.some.injEq, Option.some.injEq]
    exact nameOf_linked_iff hc hb hclink hlink
  · rw [if_neg hlinked, if_neg hlinked]
    simp

/-- Where the same globals are `Alike`, those that are declared by the text of one with a partner in
the other stage are the same. -/
theorem exists_ownSignature? (h : Renamed table.newNames table table')
    (halike : ∀ i j, table'.Alike i j ↔ table.Alike i j) (hb : table.bindings[i]? = some b)
    (hb' : table'.bindings[i]? = some b') (htext : ownSignature? (b, i) = some text)
    (hpartner : ∃ j, table.Alike i j) :
    ∃ text', ownSignature? (b', i) = some text' ∧
      (withKey ownSignature? text' table'.bindings.zipIdx).map outline =
        (withKey ownSignature? text table.bindings.zipIdx).map outline := by
  obtain ⟨j, hij⟩ := hpartner
  obtain ⟨b₀, c, text₀, hb₀, hc, htext₀, hctext, hne⟩ := hij.exists_bindings
  obtain rfl : b = b₀ := Option.some.inj (hb.symm.trans hb₀)
  obtain rfl : text = text₀ := Option.some.inj (htext.symm.trans htext₀)
  obtain ⟨b₁, c', text', hb₁, hc', htext', hctext', hne'⟩ := ((halike i j).2 hij).exists_bindings
  obtain rfl : b' = b₁ := Option.some.inj (hb'.symm.trans hb₁)
  refine ⟨text', htext', h.map_outline_withKey fun k d d' hd hd' => ?_⟩
  have hstage := (h.mirrors hd hd').stage
  -- A global of the stage of `b` is compared with the partner, every other one with `b`.
  by_cases hsame : d.stage = b.stage
  · have hdc : d.stage ≠ c.stage := hsame ▸ hne.symm
    have hdc' : d'.stage ≠ c'.stage := by rwa [hstage, (h.mirrors hc hc').stage]
    rw [← alike_iff_of_ne hc' hd' hctext' hdc', ← alike_iff_of_ne hc hd hctext hdc, halike]
  · have hdb' : d'.stage ≠ b'.stage := by rwa [hstage, (h.mirrors hb hb').stage]
    rw [← alike_iff_of_ne hb' hd' htext' hdb', ← alike_iff_of_ne hb hd htext hsame, halike]

theorem hasGroup_of_alone (h : Renamed table.newNames table table')
    (halike : ∀ i j, table'.Alike i j ↔ table.Alike i j) (hb : table.bindings[i]? = some b)
    (hb' : table'.bindings[i]? = some b') (hlink : linkName? (b, i) = none)
    (hno : ∀ j, ¬ table.Alike i j) {slot : Slot} (hslot : Slot.Suits b.stage b.extent slot)
    (hne : slot ≠ .shared) : HasGroup table'.bindings.zipIdx (b', i) (alone slot (b, i)) := by
  have hmirrors := h.mirrors hb hb'
  have hlink' : linkName? (b', i) = none := by
    rw [linkName?] at hlink ⊢
    rw [hmirrors.extent, hmirrors.linked]
    split at hlink
    · cases hlink
    · rename_i hlinked
      rw [if_neg hlinked]
  have hgroup := hasGroup_alone hb' hlink' (fun j hj => hno j ((halike i j).1 hj))
    (by rwa [hmirrors.stage, hmirrors.extent]) hne
  rwa [alone, hmirrors.sites] at hgroup

theorem hasGroup (h : Renamed table.newNames table table')
    (halike : ∀ i j, table'.Alike i j ↔ table.Alike i j) (hb : table.bindings[i]? = some b)
    (hb' : table'.bindings[i]? = some b') (hg : HasGroup table.bindings.zipIdx (b, i) g) :
    HasGroup table'.bindings.zipIdx (b', i) g := by
  cases hg with
  | @unshared _ hg =>
    obtain ⟨hlink, hown, slot, rfl, hslot, hne⟩ := unsharedGroup?_eq_some_iff.1 hg
    refine h.hasGroup_of_alone halike hb hb' hlink (fun j hj => hj.1 ?_) hslot hne
    rw [signatureAt?_eq hb, hown]
  | @linked name hlink =>
    obtain ⟨-, rfl⟩ := linkName?_eq_some hlink
    have hlink' := (h.linkName?_iff hb hb' hlink hb hb').2 hlink
    have hgroup : HasGroup table'.bindings.zipIdx (b', i) _ := .linked hlink'
    rwa [together_congr (h.map_outline_withKey fun j c c' hc hc' =>
      h.linkName?_iff hb hb' hlink hc hc')] at hgroup
  | @shared text htext hboth =>
    obtain ⟨text', htext', houtline⟩ :=
      h.exists_ownSignature? halike hb hb' htext ((exists_alike_iff hb htext).2 hboth)
    rw [← inBothStages_congr houtline] at hboth
    rw [← together_congr houtline]
    exact .shared htext' hboth
  | @single text htext hboth =>
    have hno : ∀ j, ¬ table.Alike i j := by
      intro j hj
      rw [(exists_alike_iff hb htext).1 ⟨j, hj⟩] at hboth
      cases hboth
    obtain ⟨hglobal, hlinked⟩ := not_linked_of_ownSignature? htext
    have hlink : linkName? (b, i) = none := by
      rw [linkName?, hlinked, Bool.and_false]
      rfl
    refine h.hasGroup_of_alone halike hb hb' hlink hno ?_ Slot.noConfusion
    rw [hglobal]
    exact .global

theorem mem_groups_iff (h : Renamed table.newNames table table')
    (halike : ∀ i j, table'.Alike i j ↔ table.Alike i j) :
    g ∈ table'.groups ↔ g ∈ table.groups := by
  rw [mem_groups, mem_groups]
  constructor
  · rintro ⟨⟨b', i⟩, hb', hg'⟩
    rw [mem_zipIdx] at hb'
    obtain ⟨b, hb⟩ := h.exists_old hb'
    obtain ⟨g₀, hg⟩ := HasGroup.exists_group table.bindings.zipIdx (b, i)
    obtain rfl := (h.hasGroup halike hb hb' hg).unique hg'
    exact ⟨(b, i), mem_zipIdx.2 hb, hg⟩
  · rintro ⟨⟨b, i⟩, hb, hg⟩
    rw [mem_zipIdx] at hb
    obtain ⟨b', hb'⟩ := h.exists_binding hb
    exact ⟨(b', i), mem_zipIdx.2 hb', h.hasGroup halike hb hb' hg⟩

/-! ## The names that stay -/

theorem name_of_isPinned (h : Renamed table.newNames table table') (hg : g ∈ table.groups)
    (hpinned : table.isPinned g = true) (hi : i ∈ g.members)
    (hb : table.bindings[i]? = some b) (hb' : table'.bindings[i]? = some b') :
    b'.name = b.name := by
  have hnone := (newName?_eq_none_iff hb (hasGroup_of_mem hg hi hb)).2 hpinned
  rw [(h.mirrors hb hb').name, hnone, Option.getD_none]

theorem name_of_not_isPinned (h : Renamed table.newNames table table') (hg : g ∈ table.groups)
    (hpinned : table.isPinned g = false) (hi : i ∈ g.members)
    (hb : table.bindings[i]? = some b) (hb' : table'.bindings[i]? = some b') :
    b'.name ∉ table.directiveWords b.stage := by
  have hgroup := hasGroup_of_mem hg hi hb
  cases hname : newName? table.allocation i with
  | none =>
    rw [(newName?_eq_none_iff hb hgroup).1 hname] at hpinned
    cases hpinned
  | some name =>
    rw [(h.mirrors hb hb').name, hname, Option.getD_some]
    exact newName_not_word hb hname

theorem isPinned_eq (h : Renamed table.newNames table table') (hg : g ∈ table.groups) :
    table'.isPinned g = table.isPinned g := by
  rw [Bool.eq_iff_iff]
  constructor
  · intro hpinned
    obtain ⟨i, hi, b', hb', hword⟩ := isPinned_iff.1 hpinned
    obtain ⟨b, hb⟩ := h.exists_old hb'
    rw [h.directiveWords, (h.mirrors hb hb').stage] at hword
    by_contra hnot
    rw [Bool.not_eq_true] at hnot
    exact h.name_of_not_isPinned hg hnot hi hb hb' hword
  · intro hpinned
    obtain ⟨i, hi, b, hb, hword⟩ := isPinned_iff.1 hpinned
    obtain ⟨b', hb'⟩ := h.exists_binding hb
    refine isPinned_iff.2 ⟨i, hi, b', hb', ?_⟩
    rwa [h.directiveWords, (h.mirrors hb hb').stage, h.name_of_isPinned hg hpinned hi hb hb']

theorem namesAlike (h : Renamed table.newNames table table')
    (halike : ∀ i j, table'.Alike i j ↔ table.Alike i j) : NamesAlike table table' where
  length := h.bindings.length
  groups := fun _ => h.mem_groups_iff halike
  pinned := fun _ hg => h.isPinned_eq hg
  kept := fun _ hg hpinned _ hi _ _ hb hb' =>
    ⟨(h.mirrors hb hb').stage, h.name_of_isPinned hg hpinned hi hb hb'⟩
  words := fun stage _ => by rw [h.directiveWords stage]
  free := fun stage _ => by rw [h.freeNames stage]

theorem newNames_eq (h : Renamed table.newNames table table')
    (halike : ∀ i j, table'.Alike i j ↔ table.Alike i j) : table'.newNames = table.newNames :=
  (h.namesAlike halike).newNames_eq

end Renamed

theorem not_alike_of_linked {stage : Stage}
    (hlinked : ∀ b ∈ table.bindings, b.stage = stage → b.extent = .global → b.linked = true) :
    ¬ table.Alike i j := by
  intro halike
  obtain ⟨b, c, text, hb, hc, htext, hctext, hne⟩ := halike.exists_bindings
  obtain ⟨hglobal, hfree⟩ := not_linked_of_ownSignature? htext
  obtain ⟨hcglobal, hcfree⟩ := not_linked_of_ownSignature? hctext
  by_cases hstage : b.stage = stage
  · have := hlinked b (List.mem_of_getElem? hb) hstage hglobal
    exact absurd (hfree.symm.trans this) (by decide)
  · have := hlinked c (List.mem_of_getElem? hc) (Stage.eq_of_ne hne hstage) hcglobal
    exact absurd (hcfree.symm.trans this) (by decide)

theorem Renamed.linked (h : Renamed table.newNames table table') {stage : Stage}
    (hlinked : ∀ b ∈ table.bindings, b.stage = stage → b.extent = .global → b.linked = true) :
    ∀ b ∈ table'.bindings, b.stage = stage → b.extent = .global → b.linked = true := by
  intro b' hb' hstage hglobal
  obtain ⟨i, hb'⟩ := List.mem_iff_getElem?.1 hb'
  obtain ⟨b, hb⟩ := h.exists_old hb'
  have hmirrors := h.mirrors hb hb'
  rw [hmirrors.stage] at hstage
  rw [hmirrors.extent] at hglobal
  rw [hmirrors.linked]
  exact hlinked b (List.mem_of_getElem? hb) hstage hglobal

end BindingTable

/-! ## Repeating -/

/-- Names that `renamedSites` puts in place of other ones, where nothing with a new name is left
without one later. -/
theorem renamedSites_of_renamedSites {names names' : NewNames} {sites sites' : List Site}
    {ids : List (Option Nat)}
    (h : List.Forall₂ (fun s s' => Role.Like s.role s'.role) sites sites')
    (hnames : sites'.map Site.name = renamedSites names sites ids)
    (hcover : ∀ id, some id ∈ ids → names'.get id = none → names.get id = none) :
    renamedSites names' sites' ids = renamedSites names' sites ids := by
  induction h generalizing ids with
  | nil => rfl
  | @cons s s' sites sites' hs _ ih =>
    rw [renamedSites, List.map_cons] at hnames
    rw [renamedSites, renamedSites, hs.isVariable_eq]
    split
    · rename_i hrole
      rw [if_pos hrole, List.cons.injEq] at hnames
      rw [ih hnames.2 fun id hid => hcover id (List.mem_of_mem_tail hid)]
      refine congrArg (· :: _) ?_
      cases hid : ids.head?.join with
      | none =>
        rw [hid] at hnames
        exact hnames.1
      | some id =>
        have hmem : some id ∈ ids := List.mem_of_mem_head? (Option.join_eq_some_iff.1 hid)
        rw [hid, Option.bind_some] at hnames
        rw [Option.bind_some]
        cases hnew : names'.get id with
        | some name => rfl
        | none =>
          rw [hnames.1, hcover id hmem hnew]
          rfl
    · rename_i hrole
      rw [if_neg hrole, List.cons.injEq] at hnames
      rw [hnames.1, ih hnames.2 hcover]

theorem Shader.renameVariables_of_renameVariables (shader : Shader) {ids : List (Option Nat)}
    {names names' : NewNames}
    (hcover : ∀ id, some id ∈ ids → names'.get id = none → names.get id = none) :
    (shader.renameVariables ids names).renameVariables ids names' =
      shader.renameVariables ids names' := by
  have hnames : (shader.renameVariables ids names).sites.map Site.name =
      renamedSites names shader.sites ids :=
    names_withNames (length_renamedSites names shader.sites ids)
  rw [renameVariables, renamedSites_of_renamedSites (shader.aligned_renameVariables ids names)
    hnames hcover, renameVariables, renameVariables,
    withNames_of_withNames shader (length_renamedSites names' shader.sites ids)]

theorem Shader.renameVariables_renameVariables (shader : Shader) (ids : List (Option Nat))
    (names : NewNames) :
    (shader.renameVariables ids names).renameVariables ids names =
      shader.renameVariables ids names :=
  shader.renameVariables_of_renameVariables fun _ _ hnone => hnone

/-- A shader with an array whose size is a constant of this name and value, so the array's
declaration has the name in its text. -/
def Shader.sized (name : String) (value : UInt64) : Shader := ⟨[
  .declaration ⟨⟨some .const, none, .named "int"⟩, [⟨name, none, some (.int value)⟩]⟩,
  .declaration ⟨⟨none, none, .named "float"⟩, [⟨"t", some (.sized (.identifier name)), none⟩]⟩,
  .function ⟨⟨none, none, .named "void"⟩, "main", []⟩ []]⟩

/-- A shader with a global of this name beside the uniform `w`. -/
def Shader.withUniform (name : String) : Shader := ⟨[
  .declaration ⟨⟨none, none, .named "float"⟩, [⟨name, none, none⟩]⟩,
  .declaration ⟨⟨some .uniform, none, .named "float"⟩, [⟨"w", none, none⟩]⟩,
  .function ⟨⟨none, none, .named "void"⟩, "main", []⟩ []]⟩

namespace Program

open BindingTable

variable {vertex fragment vertex' fragment' : Shader}

theorem result_renameVariables_of_newNames_eq (hvertex : vertex.Legible)
    (hfragment : fragment.Legible)
    (h : (renameVariables ⟨some vertex, some fragment⟩).result =
      .ok ⟨some vertex', some fragment'⟩)
    (hnames : (ofShaders vertex' fragment').newNames = (ofShaders vertex fragment).newNames) :
    (renameVariables ⟨some vertex', some fragment'⟩).result =
      .ok ⟨some vertex', some fragment'⟩ := by
  rw [result_renameVariables] at h
  cases h
  have hrenamed := renamed_newNames hvertex hfragment
  have hvertexIds := congrArg StageBindings.sites (Option.some.inj hrenamed.vertex)
  have hfragmentIds := congrArg StageBindings.sites (Option.some.inj hrenamed.fragment)
  simp only [stageOf] at hvertexIds hfragmentIds
  rw [result_renameVariables, hnames, hvertexIds, hfragmentIds,
    Shader.renameVariables_renameVariables, Shader.renameVariables_renameVariables]

theorem renamed_of_result (hvertex : vertex.Legible) (hfragment : fragment.Legible)
    (h : (renameVariables ⟨some vertex, some fragment⟩).result =
      .ok ⟨some vertex', some fragment'⟩) :
    Renamed (ofShaders vertex fragment).newNames (ofShaders vertex fragment)
      (ofShaders vertex' fragment') := by
  rw [result_renameVariables] at h
  cases h
  exact renamed_newNames hvertex hfragment

/-- `renameVariables` changes nothing the second time where the same globals are `Alike` after the
first time as before. The condition is sufficient and not necessary: `float t;` beside `float s;`
come to be `Alike`, and keep the name that both have. -/
theorem renameVariables_repeat (hvertex : vertex.Legible) (hfragment : fragment.Legible)
    (h : (renameVariables ⟨some vertex, some fragment⟩).result =
      .ok ⟨some vertex', some fragment'⟩)
    (halike : ∀ i j,
      (ofShaders vertex' fragment').Alike i j ↔ (ofShaders vertex fragment).Alike i j) :
    (renameVariables ⟨some vertex', some fragment'⟩).result =
      .ok ⟨some vertex', some fragment'⟩ :=
  result_renameVariables_of_newNames_eq hvertex hfragment h
    ((renamed_of_result hvertex hfragment h).newNames_eq halike)

/-- With one constant in both stages, the arrays are declared alike before and afterwards: a program
for `renameVariables_repeat` in which some globals are `Alike`. -/
theorem renameVariables_repeat_sized :
    ∃ vertex' fragment', (Shader.sized "m" 1).Legible ∧
      (renameVariables ⟨some (.sized "m" 1), some (.sized "m" 1)⟩).result =
        .ok ⟨some vertex', some fragment'⟩ ∧
      (∀ i j, (ofShaders vertex' fragment').Alike i j ↔
        (ofShaders (.sized "m" 1) (.sized "m" 1)).Alike i j) ∧
      (renameVariables ⟨some vertex', some fragment'⟩).result =
        .ok ⟨some vertex', some fragment'⟩ := by
  have hparse : Shader.parse "const int m=1;float t[m];void main()\x7b\x7d" .vertex =
      .ok (.sized "m" 1) := by decide +kernel
  have hlegible := Shader.legible_of_parse hparse
  have halike : ∀ i j,
      (ofRenamed (.sized "m" 1) (.sized "m" 1)
        (ofShaders (.sized "m" 1) (.sized "m" 1)).newNames).Alike i j ↔
      (ofShaders (.sized "m" 1) (.sized "m" 1)).Alike i j :=
    alike_congr (by decide +kernel) (by decide +kernel)
  exact ⟨_, _, hlegible, result_renameVariables _ _, halike,
    renameVariables_repeat hlegible hlegible (result_renameVariables _ _) halike⟩

/-- The globals `t` and `s` come to be `Alike`: the second time they are one shared group, as heavy
as that of the uniform `w` and declared before it, and take over its name. -/
theorem renameVariables_swaps_uniform :
    ∃ vertex fragment vertex' fragment' vertex'' fragment'',
      Shader.parse "float t;uniform float w;void main()\x7b\x7d" .vertex = .ok vertex ∧
      Shader.parse "float s;uniform float w;void main()\x7b\x7d" .fragment = .ok fragment ∧
      (renameVariables ⟨some vertex, some fragment⟩).result =
        .ok ⟨some vertex', some fragment'⟩ ∧
      (renameVariables ⟨some vertex', some fragment'⟩).result =
        .ok ⟨some vertex'', some fragment''⟩ ∧
      vertex'.emit = "float b;uniform float a;void main()\x7b\x7d" ∧
      vertex''.emit = "float a;uniform float b;void main()\x7b\x7d" := by
  have hvertex : Shader.parse "float t;uniform float w;void main()\x7b\x7d" .vertex =
      .ok (.withUniform "t") := by decide +kernel
  have hfragment : Shader.parse "float s;uniform float w;void main()\x7b\x7d" .fragment =
      .ok (.withUniform "s") := by decide +kernel
  exact ⟨_, _, _, _, _, _, hvertex, hfragment, result_renameVariables _ _,
    result_renameVariables _ _, by decide +kernel, by decide +kernel⟩

/-- If all globals of one stage are linked, as uniforms, attributes and varyings are, then
`renameVariables` changes nothing the second time. -/
theorem renameVariables_repeat_of_linked (hvertex : vertex.Legible) (hfragment : fragment.Legible)
    {stage : Stage}
    (hlinked : ∀ b ∈ (ofShaders vertex fragment).bindings,
      b.stage = stage → b.extent = .global → b.linked = true)
    (h : (renameVariables ⟨some vertex, some fragment⟩).result =
      .ok ⟨some vertex', some fragment'⟩) :
    (renameVariables ⟨some vertex', some fragment'⟩).result =
      .ok ⟨some vertex', some fragment'⟩ := by
  have hrenamed := renamed_of_result hvertex hfragment h
  refine result_renameVariables_of_newNames_eq hvertex hfragment h
    (hrenamed.newNames_eq fun i j => ?_)
  exact iff_of_false (not_alike_of_linked (hrenamed.linked hlinked)) (not_alike_of_linked hlinked)

end Program

end ShaderMinifier
