import ShaderMinifier.Proofs.Variable.Plan
import ShaderMinifier.Proofs.Variable.Weight

/-
  The names of a slot are as short as they can be. Each group gets a name as short as any that is
  left, and of the groups of a slot the heavier ones are served first. So no other way to tell
  the groups of the slot apart writes fewer characters at their sites: exchanging two names makes
  any other way agree on the group that is served first, and never makes it longer.
-/

namespace ShaderMinifier

open ShortName

/-! ## The order of slots -/

namespace Slot

theorem before_irrefl (slot : Slot) : slot.before slot = false := by
  simp [before]

theorem before_cases (a b : Slot) : a.before b = true ∨ a = b ∨ b.before a = true := by
  have hrank : a.rank.1 = b.rank.1 → a.rank.2.1 = b.rank.2.1 → a.rank.2.2 = b.rank.2.2 → a = b :=
    fun h₁ h₂ h₃ => rank_inj (Prod.ext h₁ (Prod.ext h₂ h₃))
  simp only [before, Bool.or_eq_true, Bool.and_eq_true, decide_eq_true_eq, beq_iff_eq]
  by_cases heq : a = b
  · exact .inr (.inl heq)
  · have hne : ¬ (a.rank.1 = b.rank.1 ∧ a.rank.2.1 = b.rank.2.1 ∧ a.rank.2.2 = b.rank.2.2) :=
      fun h => heq (hrank h.1 h.2.1 h.2.2)
    omega

theorem meets_self (slot : Slot) : slot.meets slot = true := by
  cases slot <;> simp [meets]

end Slot

theorem Group.of_not_before {g h : Group} (hbefore : h.before g = false) :
    h.slot.before g.slot = false ∧ (h.slot = g.slot → h.weight ≤ g.weight) := by
  simp only [before, Bool.or_eq_false_iff, Bool.and_eq_false_iff,
    decide_eq_false_iff_not] at hbefore
  refine ⟨hbefore.1, fun hslot => ?_⟩
  rcases hbefore.2 with hne | hle
  · simp [hslot] at hne
  · omega

/-! ## Serving, name by name -/

namespace Given

/-- Each name is the first that can be given (`firstFree`), where `given` holds what was given
before. -/
def Served (reserved : List (Stage × String)) : (given new : Given) → Prop
  | _, [] => True
  | given, e :: new =>
    e.2 = firstFree (reservedFor reserved e.1.slot ++ given.blocking e.1.slot) ∧
      Served reserved (e :: given) new

/-- Each name is as short as one that is not taken yet can be (`Usable`). -/
def Shortest : (taken : List String) → Given → Prop
  | _, [] => True
  | taken, e :: rest =>
    Usable taken e.2 ∧ (∀ word, Usable taken word → e.2.length ≤ word.length) ∧
      Shortest (e.2 :: taken) rest

/-- The entries of the groups in this slot, in the order in which they were served. -/
def inSlot (given : Given) (slot : Slot) : Given := given.filter fun e => e.1.slot = slot

/-- The entries of the groups in earlier slots (`Slot.before`). -/
def earlier (given : Given) (slot : Slot) : Given := given.filter fun e => e.1.slot.before slot

variable {reserved : List (Stage × String)} {taken : List String} {given new : Given}
  {slot : Slot}

theorem mem_blocking {name : String} :
    name ∈ given.blocking slot ↔ ∃ e ∈ given, slot.meets e.1.slot = true ∧ e.2 = name := by
  simp only [blocking, List.mem_map, List.mem_filter, and_assoc]

theorem mem_blocking_cons {e : Group × String} {name : String} :
    name ∈ blocking (e :: given) slot ↔
      (slot.meets e.1.slot = true ∧ e.2 = name) ∨ name ∈ given.blocking slot := by
  rw [mem_blocking, mem_blocking, List.exists_mem_cons_iff]

/-- In a slot the names that are `Served` are as short as they can be, next to what was given in
earlier slots. -/
theorem Served.shortest (h : Served reserved given new)
    (horder : new.Pairwise fun e e' => e'.1.before e.1 = false)
    (htaken : ∀ name, name ∈ taken ↔
      name ∈ reservedFor reserved slot ∨ name ∈ (given ++ new.earlier slot).blocking slot) :
    Shortest taken (new.inSlot slot) := by
  induction new generalizing given taken with
  | nil => trivial
  | cons e new ih =>
    obtain ⟨hname, hrest⟩ := h
    rw [List.pairwise_cons] at horder
    rcases e.1.slot.before_cases slot with hbefore | hslot | hafter
    · -- The name is one of those that block the slot.
      have hne : e.1.slot ≠ slot := by
        rintro rfl
        simp [Slot.before_irrefl] at hbefore
      rw [inSlot, List.filter_cons_of_neg (by simpa using hne)]
      refine ih hrest horder.2 fun name => ?_
      rw [htaken, earlier, List.filter_cons_of_pos (by exact hbefore), mem_blocking, mem_blocking]
      simp [earlier, or_left_comm]
    · have hearlier : earlier new slot = [] := by
        refine List.filter_eq_nil_iff.2 fun e' he' => ?_
        rw [← hslot, (Group.of_not_before (horder.1 e' he')).1]
        exact Bool.false_ne_true
      have hfree : ∀ name, name ∈ taken ↔
          name ∈ reservedFor reserved slot ++ given.blocking slot := by
        intro name
        rw [htaken, earlier, List.filter_cons_of_neg (by simp [hslot, Slot.before_irrefl]),
          ← earlier, hearlier, List.append_nil, List.mem_append]
      rw [hslot, ← firstFree_congr hfree] at hname
      rw [inSlot, List.filter_cons_of_pos (by simpa using hslot)]
      refine ⟨hname ▸ usable_firstFree taken, fun word hword => hname ▸ hword.length_firstFree_le,
        ih hrest horder.2 fun name => ?_⟩
      rw [List.mem_cons, hfree, List.mem_append, hearlier, List.append_nil, mem_blocking_cons,
        hslot, Slot.meets_self, or_left_comm]
      exact or_congr_right (or_congr_left (by simp [eq_comm]))
    · -- Nothing in the slot is left.
      have hnone : inSlot (e :: new) slot = [] := by
        refine List.filter_eq_nil_iff.2 fun e' he' => ?_
        rw [decide_eq_true_eq]
        rintro rfl
        rcases List.mem_cons.1 he' with rfl | he'
        · simp [Slot.before_irrefl] at hafter
        · simp [(Group.of_not_before (horder.1 e' he')).1] at hafter
      rw [hnone]
      trivial

/-! ## The exchange -/

/-- The number of characters that names take, each written as often as its group has `weight`. -/
def total (given : Given) (name : Group × String → String) : Nat :=
  (given.map fun e => e.1.weight * (name e).length).sum

/-- A group that weighs at least as much as others takes the shorter of two names, and leaves the
longer one to the group that had the shorter one; `total` does not grow. -/
theorem total_swap_le {name : Group × String → String} {short long : String} {weight : Nat}
    (hlength : short.length ≤ long.length) (hweight : ∀ e ∈ given, e.1.weight ≤ weight)
    (hnodup : (given.map name).Nodup) (hlong : long ∉ given.map name) :
    weight * short.length + given.total (fun e => Equiv.swap long short (name e)) ≤
      weight * long.length + given.total name := by
  induction given with
  | nil => simpa [total] using Nat.mul_le_mul_left weight hlength
  | cons e given ih =>
    rw [List.forall_mem_cons] at hweight
    rw [List.map_cons, List.nodup_cons] at hnodup
    rw [List.map_cons, List.mem_cons, not_or] at hlong
    simp only [total, List.map_cons, List.sum_cons] at ih ⊢
    by_cases heq : name e = short
    · -- No other group has either name.
      have hrest : ∀ e' ∈ given, Equiv.swap long short (name e') = name e' := by
        intro e' he'
        refine Equiv.swap_apply_of_ne_of_ne ?_ ?_
        · rintro rfl
          exact hlong.2 (List.mem_map_of_mem he')
        · rintro hshort
          exact hnodup.1 (List.mem_map.2 ⟨e', he', by rw [hshort, heq]⟩)
      have hsame : (given.map fun e => e.1.weight * (Equiv.swap long short (name e)).length) =
          given.map fun e => e.1.weight * (name e).length :=
        List.map_congr_left fun e' he' => by rw [hrest e' he']
      rw [hsame, heq, Equiv.swap_apply_right]
      have hswap := mul_add_mul_le_mul_add_mul hweight.1 hlength
      omega
    · rw [Equiv.swap_apply_of_ne_of_ne (Ne.symm hlong.1) heq]
      have hrest := ih hweight.2 hnodup.2 hlong.2
      omega

theorem Shortest.usable (h : Shortest taken given) : ∀ e ∈ given, Usable taken e.2 := by
  induction given generalizing taken with
  | nil => simp
  | cons e given ih =>
    obtain ⟨hfirst, -, hrest⟩ := h
    refine List.forall_mem_cons.2 ⟨hfirst, fun e' he' => ?_⟩
    have husable := ih hrest e' he'
    exact ⟨husable.isName, husable.notReserved, husable.notBuiltin,
      fun hmem => husable.notTaken (List.mem_cons_of_mem _ hmem)⟩

/-- Names as short as they can be (`Shortest`), given to groups of decreasing weight, take the
fewest characters. By induction on the groups with `total_swap_le`. -/
theorem Shortest.total_le (h : Shortest taken given)
    (hweight : given.Pairwise fun e e' => e'.1.weight ≤ e.1.weight)
    {name : Group × String → String} (husable : ∀ e ∈ given, Usable taken (name e))
    (hnodup : (given.map name).Nodup) : given.total Prod.snd ≤ given.total name := by
  induction given generalizing taken name with
  | nil => exact Nat.le_refl _
  | cons e given ih =>
    obtain ⟨hfirst, hshortest, hrest⟩ := h
    rw [List.pairwise_cons] at hweight
    rw [List.forall_mem_cons] at husable
    rw [List.map_cons, List.nodup_cons] at hnodup
    have hne : ∀ e' ∈ given, name e' ≠ name e := by
      intro e' he' heq
      exact hnodup.1 (heq ▸ List.mem_map_of_mem he')
    -- The first group takes its name from whichever group has it.
    have hexchange := total_swap_le (hshortest _ husable.1) hweight.1 hnodup.2 hnodup.1
    have htail : total given Prod.snd ≤
        total given fun e' => Equiv.swap (name e) e.2 (name e') := by
      refine ih hrest hweight.2 (fun e' he' => ?_) ?_
      · by_cases heq : name e' = e.2
        · rw [heq, Equiv.swap_apply_right]
          refine ⟨husable.1.isName, husable.1.notReserved, husable.1.notBuiltin, ?_⟩
          rw [List.mem_cons, not_or]
          exact ⟨fun hsame => hne e' he' (heq.trans hsame.symm), husable.1.notTaken⟩
        · have hold := husable.2 e' he'
          rw [Equiv.swap_apply_of_ne_of_ne (hne e' he') heq]
          refine ⟨hold.isName, hold.notReserved, hold.notBuiltin, ?_⟩
          rw [List.mem_cons, not_or]
          exact ⟨heq, hold.notTaken⟩
      · have hmap : given.map (fun e' => Equiv.swap (name e) e.2 (name e')) =
            (given.map name).map (Equiv.swap (name e) e.2) := by rw [List.map_map]; rfl
        rw [hmap]
        exact hnodup.2.map (Equiv.injective _)
    simp only [total, List.map_cons, List.sum_cons] at hexchange htail ⊢
    omega

end Given

theorem serve_eq (reserved : List (Stage × String)) (given : Given) (groups : List Group) :
    ∃ new : Given, serve reserved given groups = new.reverse ++ given ∧
      Given.Served reserved given new := by
  induction groups generalizing given with
  | nil => exact ⟨[], rfl, trivial⟩
  | cons g groups ih =>
    obtain ⟨name, hname⟩ : ∃ name,
        name = firstFree (reservedFor reserved g.slot ++ given.blocking g.slot) := ⟨_, rfl⟩
    obtain ⟨new, heq, hserved⟩ := ih ((g, name) :: given)
    refine ⟨(g, name) :: new, ?_, hname, hserved⟩
    rw [serve, ← hname, heq, List.reverse_cons, List.append_assoc]
    rfl

/-! ## The names of a slot -/

namespace BindingTable

/-- The groups of a slot that get a name, those without `isPinned`. -/
def groupsIn (table : BindingTable) (slot : Slot) : List Group :=
  table.groups.filter fun g => g.slot = slot && !table.isPinned g

/-- The names that no group of a slot may get if groups have these names: those reserved where the
slot is visible (`reservedFor`), and those of groups in earlier slots that are visible at one place
with it. -/
def blockedFor (table : BindingTable) (name : Group → String) (slot : Slot) : List String :=
  reservedFor table.reserved slot ++
    (table.groups.filter fun g => g.slot.before slot && slot.meets g.slot && !table.isPinned g).map
      name

/-- The names tell the groups of a slot apart and can be given next to those that are `blocked`: any
naming that a renamer may choose. -/
structure Admissible (table : BindingTable) (blocked : List String) (slot : Slot)
    (name : Group → String) : Prop where
  usable : ∀ g ∈ table.groupsIn slot, Usable blocked (name g)
  apart : ∀ g ∈ table.groupsIn slot, ∀ h ∈ table.groupsIn slot, name g = name h → g = h

/-- The number of characters that names take at all sites of the groups of a slot (`siteCount`). -/
def written (table : BindingTable) (slot : Slot) (name : Group → String) : Nat :=
  ((table.groupsIn slot).map fun g => table.siteCount g * (name g).length).sum

/-- The name that a group gets in `allocation`, that of its first member. -/
def nameOf (table : BindingTable) (g : Group) : String :=
  (newName? table.allocation g.first).getD ""

variable {table : BindingTable} {slot : Slot} {g : Group} {id : Nat} {name : String}

theorem served_allocation (table : BindingTable) :
    Given.Served table.reserved [] table.allocation := by
  obtain ⟨new, heq, hserved⟩ := serve_eq table.reserved [] table.servedGroups
  rwa [allocation, heq, List.append_nil, List.reverse_reverse]

theorem pairwise_allocation (table : BindingTable) :
    table.allocation.Pairwise fun e e' => e'.1.before e.1 = false := by
  have hsorted := Group.ranks_before.pairwise_sort (table.groups.filter fun g => !table.isPinned g)
  rw [← servedGroups, ← map_fst_allocation, List.pairwise_map] at hsorted
  exact hsorted

theorem pairwise_weight_inSlot (table : BindingTable) (slot : Slot) :
    (table.allocation.inSlot slot).Pairwise fun e e' => e'.1.weight ≤ e.1.weight := by
  refine (table.pairwise_allocation.filter _).imp_of_mem fun he he' hbefore => ?_
  have hslot := (List.mem_filter.1 he).2
  have hslot' := (List.mem_filter.1 he').2
  rw [decide_eq_true_eq] at hslot hslot'
  exact (Group.of_not_before hbefore).2 (hslot'.trans hslot.symm)

theorem perm_groupsIn (table : BindingTable) (slot : Slot) :
    ((table.allocation.inSlot slot).map Prod.fst).Perm (table.groupsIn slot) := by
  have hmap : (table.allocation.inSlot slot).map Prod.fst =
      table.servedGroups.filter fun g => g.slot = slot := by
    rw [← map_fst_allocation, List.filter_map]
    rfl
  have hgroups : table.groupsIn slot =
      (table.groups.filter fun g => !table.isPinned g).filter fun g => g.slot = slot := by
    rw [List.filter_filter, groupsIn]
  rw [hmap, hgroups]
  exact (Sorting.perm_sort _ _).filter _

theorem sum_groupsIn (table : BindingTable) (slot : Slot) (f : Group → Nat) :
    ((table.groupsIn slot).map f).sum =
      ((table.allocation.inSlot slot).map fun e => f e.1).sum := by
  rw [← ((table.perm_groupsIn slot).map f).sum_eq, List.map_map]
  rfl

theorem exists_member (hg : g ∈ table.groups) (hid : id ∈ g.members) :
    ∃ b, table.bindings[id]? = some b := by
  obtain ⟨⟨b, i⟩, hb, hgroup⟩ := mem_groups.1 hg
  rcases hgroup.of_mem hid with rfl | ⟨c, hc, rfl, -⟩
  · exact ⟨b, mem_zipIdx.1 hb⟩
  · exact ⟨c.1, mem_zipIdx.1 hc⟩

theorem mem_servedGroups_of_mem (h : (g, name) ∈ table.allocation) : g ∈ table.servedGroups := by
  rw [← map_fst_allocation]
  exact List.mem_map_of_mem h

theorem newName?_of_mem (h : (g, name) ∈ table.allocation) (hid : id ∈ g.members)
    {b : Binding} (hb : table.bindings[id]? = some b) :
    newName? table.allocation id = some name := by
  obtain ⟨hg, hpinned⟩ := mem_servedGroups.1 (mem_servedGroups_of_mem h)
  have hgroup := hasGroup_of_mem hg hid hb
  cases hnew : newName? table.allocation id with
  | none =>
    rw [newName?_eq_none_iff hb hgroup, hpinned] at hnew
    cases hnew
  | some name' =>
    obtain ⟨g', hentry, hgroup'⟩ := newName?_eq_some hnew hb
    obtain rfl := hgroup.unique hgroup'
    have hnodup : (table.allocation.map Prod.fst).Nodup := by
      rw [map_fst_allocation]
      exact (Sorting.perm_sort _ _).nodup_iff.2 (table.nodup_groups.filter _)
    have hsame := List.inj_on_of_nodup_map hnodup hentry h rfl
    rw [(Prod.mk.inj hsame).2]

theorem nameOf_eq (h : (g, name) ∈ table.allocation) : table.nameOf g = name := by
  obtain ⟨hfirst, b, hb⟩ := first_mem (mem_servedGroups.1 (mem_servedGroups_of_mem h)).1
  rw [nameOf, newName?_of_mem h hfirst hb, Option.getD_some]

theorem mem_allocation (hg : g ∈ table.servedGroups) :
    (g, table.nameOf g) ∈ table.allocation := by
  rw [← map_fst_allocation] at hg
  obtain ⟨⟨g, name⟩, hentry, rfl⟩ := List.mem_map.1 hg
  rwa [nameOf_eq hentry]

theorem mem_inSlot (hg : g ∈ table.groupsIn slot) :
    (g, table.nameOf g) ∈ table.allocation.inSlot slot := by
  obtain ⟨hg, hslot⟩ := List.mem_filter.1 hg
  rw [Bool.and_eq_true, Bool.not_eq_true'] at hslot
  exact List.mem_filter.2 ⟨mem_allocation (mem_servedGroups.2 ⟨hg, hslot.2⟩), hslot.1⟩

theorem mem_blockedFor : name ∈ table.blockedFor table.nameOf slot ↔
    name ∈ reservedFor table.reserved slot ∨
      name ∈ (table.allocation.earlier slot).blocking slot := by
  rw [blockedFor, List.mem_append, Given.mem_blocking]
  simp only [List.mem_map, List.mem_filter, Bool.and_eq_true, Bool.not_eq_true']
  refine or_congr_right ⟨?_, ?_⟩
  · rintro ⟨g, ⟨hg, ⟨hbefore, hmeets⟩, hpinned⟩, rfl⟩
    have hentry := mem_allocation (mem_servedGroups.2 ⟨hg, hpinned⟩)
    exact ⟨_, List.mem_filter.2 ⟨hentry, hbefore⟩, hmeets, rfl⟩
  · rintro ⟨⟨g, name⟩, hentry, hmeets, rfl⟩
    obtain ⟨hentry, hbefore⟩ := List.mem_filter.1 hentry
    obtain ⟨hg, hpinned⟩ := mem_servedGroups.1 (mem_servedGroups_of_mem hentry)
    exact ⟨g, ⟨hg, ⟨hbefore, hmeets⟩, hpinned⟩, nameOf_eq hentry⟩

theorem shortest_allocation (table : BindingTable) (slot : Slot) :
    Given.Shortest (table.blockedFor table.nameOf slot) (table.allocation.inSlot slot) :=
  table.served_allocation.shortest table.pairwise_allocation fun _ => mem_blockedFor

theorem admissible_nameOf (table : BindingTable) (slot : Slot) :
    table.Admissible (table.blockedFor table.nameOf slot) slot table.nameOf where
  usable := fun _ hg => (table.shortest_allocation slot).usable _ (mem_inSlot hg)
  apart := by
    intro g hg h hh hname
    obtain ⟨hentry, hslot⟩ := List.mem_filter.1 (mem_inSlot hg)
    obtain ⟨hentry', hslot'⟩ := List.mem_filter.1 (mem_inSlot hh)
    rw [decide_eq_true_eq] at hslot hslot'
    have hmeets : g.slot.meets h.slot = true := by
      rw [hslot, hslot', Slot.meets_self]
    exact congrArg Prod.fst (table.allocation_apart.eq_of_meets hentry hentry' hmeets hname)

theorem written_nameOf_le (hweight : ∀ g ∈ table.groups, g.weight = table.siteCount g)
    {other : Group → String}
    (h : table.Admissible (table.blockedFor table.nameOf slot) slot other) :
    table.written slot table.nameOf ≤ table.written slot other := by
  have hmem : ∀ e ∈ table.allocation.inSlot slot, e.1 ∈ table.groupsIn slot :=
    fun e he => (table.perm_groupsIn slot).mem_iff.1 (List.mem_map_of_mem he)
  have hwritten : ∀ name, table.written slot name =
      (table.allocation.inSlot slot).total fun e => name e.1 := by
    intro name
    rw [written, sum_groupsIn]
    refine congrArg List.sum (List.map_congr_left fun e he => ?_)
    rw [hweight e.1 (List.mem_of_mem_filter (hmem e he))]
  have hnames : ((table.allocation.inSlot slot).total fun e => table.nameOf e.1) =
      (table.allocation.inSlot slot).total Prod.snd := by
    refine congrArg List.sum (List.map_congr_left fun e he => ?_)
    exact congrArg (fun name => e.1.weight * String.length name)
      (nameOf_eq (List.mem_of_mem_filter he))
  have hgroups : ((table.allocation.inSlot slot).map Prod.fst).Nodup :=
    (table.perm_groupsIn slot).nodup_iff.2 (table.nodup_groups.filter _)
  have hnodup : ((table.allocation.inSlot slot).map fun e => other e.1).Nodup := by
    have hmap := hgroups.map_on fun g hg g' hg' => h.apart g
      ((table.perm_groupsIn slot).mem_iff.1 hg) g' ((table.perm_groupsIn slot).mem_iff.1 hg')
    rwa [List.map_map] at hmap
  rw [hwritten, hwritten, hnames]
  exact (table.shortest_allocation slot).total_le (table.pairwise_weight_inSlot slot)
    (fun e he => h.usable e.1 (hmem e he)) hnodup

end BindingTable

namespace Program

open BindingTable

/-- `renameVariables` is optimal slot by slot: every member of a group of the slot is spelled by the
name of the group, these names tell the groups apart and can be given in the slot (`Admissible`),
and no other such names take fewer characters at the sites of the groups (`written`). -/
theorem renameVariables_optimal (vertex fragment : Shader) :
    ∃ table result name,
      (BindingTable.build ⟨some vertex, some fragment⟩).result = .ok table ∧
      (renameVariables ⟨some vertex, some fragment⟩).result = .ok result ∧
      ∀ slot,
        (∀ g ∈ table.groupsIn slot, ∀ id ∈ g.members, table.Spelled result id (name g)) ∧
        table.Admissible (table.blockedFor name slot) slot name ∧
        ∀ other, table.Admissible (table.blockedFor name slot) slot other →
          table.written slot name ≤ table.written slot other := by
  have hresult := result_renameVariables vertex fragment
  refine ⟨_, _, (ofShaders vertex fragment).nameOf, result_build vertex fragment, hresult,
    fun slot => ⟨?_, admissible_nameOf _ slot, fun other =>
      written_nameOf_le fun g hg => weight_eq_siteCount hg⟩⟩
  intro g hg id hid
  obtain ⟨b, hb⟩ := exists_member (List.mem_of_mem_filter hg) hid
  have hspelled := spelled_renameVariables hresult hb
  rwa [newName?_of_mem (List.mem_of_mem_filter (mem_inSlot hg)) hid hb] at hspelled

end Program

end ShaderMinifier
