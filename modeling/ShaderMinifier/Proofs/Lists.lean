import Mathlib

/-
  General facts about lists that the development uses: lists that correspond entry by entry
  (`List.Forall₂`), entries that are looked for, entries at an index and lists that change there,
  counting, and orders.
-/

namespace ShaderMinifier

/-! ## Lists that correspond -/

section Related

variable {α : Type} {R : α → α → Prop} {P Q : α → Prop}

theorem forall_of_optionRel {x x' : Option α} (h : Option.Rel R x x')
    (hPQ : ∀ a a', R a a' → P a → Q a') (hx : ∀ a ∈ x, P a) : ∀ a ∈ x', Q a := by
  cases h with
  | none => simp
  | some h =>
    rintro a ⟨⟩
    exact hPQ _ _ h (hx _ rfl)

theorem forall_of_forall₂ {xs xs' : List α} (h : List.Forall₂ R xs xs')
    (hPQ : ∀ a a', R a a' → P a → Q a') (hxs : ∀ a ∈ xs, P a) : ∀ a ∈ xs', Q a := by
  induction h with
  | nil => simp
  | cons ha _ ih =>
    rw [List.forall_mem_cons] at hxs ⊢
    exact ⟨hPQ _ _ ha hxs.1, ih hxs.2⟩

theorem eq_nil_of_forall₂ {xs xs' : List α} (h : List.Forall₂ R xs xs') (hxs : xs' = []) :
    xs = [] := by
  subst hxs
  exact List.forall₂_nil_right_iff.1 h

end Related

theorem exists_of_forall₂ {α β : Type} {R : α → β → Prop} {xs : List α} {ys : List β}
    (h : List.Forall₂ R xs ys) {x : α} (hx : x ∈ xs) : ∃ y, R x y := by
  induction h with
  | nil => cases hx
  | cons hxy _ ih =>
    rcases List.mem_cons.1 hx with rfl | hx
    · exact ⟨_, hxy⟩
    · exact ih hx

theorem exists_append_of_forall₂ {α β : Type} {R : α → β → Prop} {xs ys : List α} {zs : List β}
    (h : List.Forall₂ R (xs ++ ys) zs) :
    ∃ zs₁ zs₂, zs = zs₁ ++ zs₂ ∧ List.Forall₂ R xs zs₁ ∧ List.Forall₂ R ys zs₂ := by
  induction xs generalizing zs with
  | nil => exact ⟨[], zs, rfl, .nil, h⟩
  | cons x xs ih =>
    obtain ⟨z, zs, hz, hzs, rfl⟩ := List.forall₂_cons_left_iff.1 h
    obtain ⟨zs₁, zs₂, rfl, h₁, h₂⟩ := ih hzs
    exact ⟨z :: zs₁, zs₂, rfl, .cons hz h₁, h₂⟩

theorem filterMap_eq_of_forall₂ {α β γ : Type} {f : α → Option γ} {g : β → Option γ}
    {xs : List α} {ys : List β} (h : List.Forall₂ (fun x y => g y = f x) xs ys) :
    ys.filterMap g = xs.filterMap f := by
  induction h with
  | nil => rfl
  | cons hxy _ ih => rw [List.filterMap_cons, List.filterMap_cons, hxy, ih]

theorem countP_eq_of_forall₂ {α β : Type} {p : α → Bool} {q : β → Bool} {xs : List α}
    {ys : List β} (h : List.Forall₂ (fun x y => q y = p x) xs ys) : ys.countP q = xs.countP p := by
  induction h with
  | nil => rfl
  | cons hxy _ ih => rw [List.countP_cons, List.countP_cons, hxy, ih]

theorem map_filter_congr {α β : Type} {f : α → β} {p q : α → Bool} {xs ys : List α}
    (h : List.Forall₂ (fun x y => f y = f x ∧ q y = p x) xs ys) :
    (ys.filter q).map f = (xs.filter p).map f := by
  induction h with
  | nil => rfl
  | cons hxy _ ih =>
    rw [List.filter_cons, List.filter_cons, hxy.2]
    split
    · rw [List.map_cons, List.map_cons, hxy.1, ih]
    · exact ih

theorem forall₂_filter_filterMap {α β : Type} {R : α → β → Prop} {p : α → Bool}
    {f : α → Option β} {xs : List α}
    (h : ∀ x ∈ xs, (p x = true ∧ ∃ y, f x = some y ∧ R x y) ∨ (p x = false ∧ f x = none)) :
    List.Forall₂ R (xs.filter p) (xs.filterMap f) := by
  induction xs with
  | nil => exact .nil
  | cons x xs ih =>
    rw [List.forall_mem_cons] at h
    obtain ⟨⟨hp, y, hf, hxy⟩ | ⟨hp, hf⟩, hxs⟩ := h
    · rw [List.filter_cons_of_pos hp, List.filterMap_cons_some hf]
      exact .cons hxy (ih hxs)
    · rw [List.filter_cons_of_neg (by simp [hp]), List.filterMap_cons_none hf]
      exact ih hxs

/-! ## Entries that are looked for -/

theorem find?_of_unique {α : Type} {p : α → Bool} {xs : List α} {x : α} (hx : x ∈ xs)
    (h : ∀ y ∈ xs, p y = true → y = x) : xs.find? p = if p x = true then some x else none := by
  split
  · rename_i hp
    cases hfind : xs.find? p with
    | none => exact absurd hp (List.find?_eq_none.1 hfind x hx)
    | some y => rw [h y (List.mem_of_find?_eq_some hfind) (List.find?_some hfind)]
  · rename_i hp
    refine List.find?_eq_none.2 fun y hy hpy => hp ?_
    rwa [← h y hy hpy]

theorem find?_eq_none_of_not_mem {α : Type} {all : List α} {f : α → String} {w : String}
    (h : w ∉ all.map f) : (all.find? fun a => f a == w) = none := by
  rw [List.find?_eq_none]
  intro a ha heq
  exact h (List.mem_map.2 ⟨a, ha, by simpa using heq⟩)

theorem mem_of_lookup {α β : Type} [BEq α] [LawfulBEq α] {entries : List (α × β)} {key : α}
    {value : β} (h : entries.lookup key = some value) : (key, value) ∈ entries := by
  obtain ⟨before, after, rfl, -⟩ := List.lookup_eq_some_iff.1 h
  simp

/-- Looking up each key of `entries`, in which no key is repeated, gives the values in order; `f` is
any function that agrees with `List.lookup`. -/
theorem map_lookup_keys {α β : Type} [BEq α] [LawfulBEq α] {entries : List (α × β)} {f : α → β}
    (hkeys : (entries.map Prod.fst).Nodup)
    (hf : ∀ key value, entries.lookup key = some value → f key = value) :
    (entries.map Prod.fst).map f = entries.map Prod.snd := by
  rw [List.map_map]
  refine List.map_congr_left fun entry hentry => hf _ _ ?_
  obtain ⟨before, after, rfl⟩ := List.append_of_mem hentry
  refine List.lookup_eq_some_iff.2 ⟨before, after, rfl, fun other hother => ?_⟩
  rw [bne_iff_ne]
  intro hkey
  rw [List.map_append, List.nodup_append] at hkeys
  exact hkeys.2.2 _ (List.mem_map_of_mem hother) _ (by simp) hkey.symm

theorem takeWhile_append_stop {α : Type} {p : α → Bool} {s rest : List α}
    (hs : ∀ c ∈ s, p c = true) (hrest : ∀ c, rest.head? = some c → p c = false) :
    (s ++ rest).takeWhile p = s ∧ (s ++ rest).dropWhile p = rest := by
  rw [List.takeWhile_append_of_pos hs, List.dropWhile_append_of_pos hs]
  cases rest with
  | nil => simp
  | cons c rest => simp [hrest c rfl]

theorem eq_nil_of_append_singleton {α : Type} {xs : List α} {x y : α} (h : xs ++ [x] = [y]) :
    xs = [] := by
  simpa using congrArg List.length h

/-- A member `x` of `xs ++ ys`, given by what stands before and after it, is one of `xs` or one of
`ys`. -/
theorem append_eq_append_cons {α : Type} {xs ys before after : List α} {x : α}
    (h : xs ++ ys = before ++ x :: after) :
    (∃ rest, xs = before ++ x :: rest) ∨ ∃ mid, before = xs ++ mid ∧ ys = mid ++ x :: after := by
  rcases List.append_eq_append_iff.1 h with ⟨mid, hbefore, hys⟩ | ⟨tail, hxs, htail⟩
  · exact .inr ⟨mid, hbefore, hys⟩
  · cases tail with
    | nil => exact .inr ⟨[], by simpa using hxs.symm, htail.symm⟩
    | cons first rest =>
      obtain ⟨rfl, -⟩ := List.cons.inj htail
      exact .inl ⟨rest, hxs⟩

/-! ## Entries at an index -/

theorem eq_of_getElem? {α : Type} {xs : List α} (hxs : xs.Nodup) {i j : Nat} {x : α}
    (hi : xs[i]? = some x) (hj : xs[j]? = some x) : i = j := by
  obtain ⟨hlt, -⟩ := List.getElem?_eq_some_iff.1 hi
  exact (List.getElem?_inj hlt hxs).1 (hi.trans hj.symm)

theorem map_modify_comm {α β : Type} {g : α → β} {f : α → α} {f' : β → β}
    (h : ∀ a, g (f a) = f' (g a)) (xs : List α) (i : Nat) :
    (xs.modify i f).map g = (xs.map g).modify i f' := by
  apply List.ext_getElem?
  intro j
  rw [List.getElem?_map, List.getElem?_modify, List.getElem?_modify, List.getElem?_map]
  cases xs[j]? with
  | none => rfl
  | some a => by_cases hij : i = j <;> simp [hij, h]

theorem map_modify {α β : Type} (g : α → β) {f : α → α} (h : ∀ a, g (f a) = g a) (xs : List α)
    (i : Nat) : (xs.modify i f).map g = xs.map g := by
  have hcomm : ∀ a, g (f a) = id (g a) := h
  rw [map_modify_comm hcomm, List.modify_id]

theorem mem_modify {α : Type} {xs : List α} {f : α → α} {i : Nat} {x : α}
    (h : x ∈ xs.modify i f) : ∃ y ∈ xs, x = y ∨ x = f y := by
  obtain ⟨j, hj⟩ := List.mem_iff_getElem?.1 h
  rw [List.getElem?_modify, Option.map_eq_map, Option.map_eq_some_iff] at hj
  obtain ⟨y, hy, rfl⟩ := hj
  refine ⟨y, List.mem_of_getElem? hy, ?_⟩
  by_cases hij : i = j <;> simp [hij]

theorem getElem?_of_isPrefix {α : Type} {xs ys : List α} (hxs : xs <+: ys) {i : Nat} {x : α}
    (h : xs[i]? = some x) : ys[i]? = some x := by
  obtain ⟨rest, rfl⟩ := hxs
  obtain ⟨hi, -⟩ := List.getElem?_eq_some_iff.1 h
  rw [List.getElem?_append_left hi, h]

theorem getElem?_concat_cases {α : Type} {xs : List α} {x y : α} {i : Nat}
    (h : (xs ++ [x])[i]? = some y) : xs[i]? = some y ∨ i = xs.length ∧ y = x := by
  rw [List.getElem?_append] at h
  split at h
  · exact .inl h
  · obtain ⟨hi, hx⟩ := List.getElem?_eq_some_iff.1 h
    have hi' : i - xs.length = 0 := by simpa using hi
    exact .inr ⟨by omega, by simpa [hi'] using hx.symm⟩

/-! ## Counting and repeated entries -/

theorem sum_indicator (id : Nat) (ids : List Nat) :
    (ids.map fun i => if id = i then 1 else 0).sum = ids.count id := by
  induction ids with
  | nil => rfl
  | cons i ids ih =>
    rw [List.map_cons, List.sum_cons, ih, List.count_cons, Nat.add_comm]
    simp only [beq_iff_eq, @eq_comm _ i id]

/-- Indexes that are all different are counted one by one: the sum of `List.count` is the number of
entries that are any of them. -/
theorem sum_count_some {ids : List Nat} (hids : ids.Nodup) (noted : List (Option Nat)) :
    (ids.map fun id => noted.count (some id)).sum =
      noted.countP fun entry => entry.any fun id => ids.contains id := by
  induction noted with
  | nil => simp
  | cons entry noted ih =>
    rw [List.countP_cons, ← ih]
    simp only [List.count_cons, List.sum_map_add, Nat.add_left_cancel_iff]
    cases entry with
    | none => simp
    | some id => simp [sum_indicator, hids.count]

theorem nodup_eraseDups {α : Type} [DecidableEq α] (xs : List α) : xs.eraseDups.Nodup := by
  cases xs with
  | nil => simp
  | cons x xs =>
    rw [List.eraseDups_cons, List.nodup_cons, List.mem_eraseDups]
    exact ⟨by simp, nodup_eraseDups _⟩
termination_by xs.length
decreasing_by
  have hle := List.length_filter_le (fun y => !y == x) xs
  rw [List.length_cons]
  omega

theorem eraseDups_map_of_injOn {α β : Type} [DecidableEq α] [DecidableEq β] {f : α → β} :
    (xs : List α) → (∀ x ∈ xs, ∀ y ∈ xs, f x = f y → x = y) →
    (xs.map f).eraseDups = xs.eraseDups.map f
  | [], _ => by simp
  | x :: xs, hf => by
    have hfilter : (xs.map f).filter (fun b => !b == f x) =
        (xs.filter fun y => !y == x).map f := by
      rw [List.filter_map]
      refine congrArg (List.map f) (List.filter_congr fun y hy => ?_)
      have hiff : f y = f x ↔ y = x :=
        ⟨hf y (List.mem_cons_of_mem x hy) x List.mem_cons_self, congrArg f⟩
      simp [hiff]
    have hsub : ∀ y ∈ xs.filter (fun y => !y == x), y ∈ x :: xs :=
      fun y hy => List.mem_cons_of_mem x (List.mem_of_mem_filter hy)
    rw [List.map_cons, List.eraseDups_cons, List.eraseDups_cons, List.map_cons, hfilter,
      eraseDups_map_of_injOn _ fun a ha b hb => hf a (hsub a ha) b (hsub b hb)]
termination_by xs => xs.length
decreasing_by exact Nat.lt_succ_of_le (List.length_filter_le _ _)

/-! ## Orders of lists -/

section Orders

variable {α : Type} {r : α → α → Prop} {xs ys xs' ys' : List α}

theorem lex_append (h : List.Lex r xs ys) (hlength : xs.length = ys.length) :
    List.Lex r (xs ++ xs') (ys ++ ys') := by
  induction h with
  | nil => simp at hlength
  | cons h ih => exact .cons (ih (by simpa using hlength))
  | rel h => exact .rel h

/-- A longer list stays behind a shorter one, and two lists of one length in their order:
`List.Shortlex` is kept by one entry more on both. -/
theorem shortlex_append (h : List.Shortlex r xs ys) (x y : α) :
    List.Shortlex r (xs ++ [x]) (ys ++ [y]) := by
  rcases List.shortlex_def.1 h with hlt | ⟨heq, hlex⟩
  · exact .of_length_lt (by simpa using hlt)
  · exact .of_lex (by simpa using heq) (lex_append hlex heq)

end Orders

end ShaderMinifier
