import Mathlib
import ShaderMinifier.Function.CallGraph
import ShaderMinifier.Proofs.Lists

/-
  Sorting keeps the members of a list and puts them in order. Where the order tells all members
  apart, the result does not depend on how the list was arranged. Members can be exchanged for
  others that rank alike, and members can be dropped, before or after.
-/

namespace ShaderMinifier

namespace Sorting

variable {α : Type} {before : α → α → Bool} {xs ys : List α}

theorem perm_insert (before : α → α → Bool) (x : α) (xs : List α) :
    (insert before x xs).Perm (x :: xs) := by
  induction xs with
  | nil => rfl
  | cons y ys ih =>
    rw [insert]
    split
    · exact (ih.cons y).trans (List.Perm.swap x y ys)
    · rfl

theorem perm_sort (before : α → α → Bool) (xs : List α) : (sort before xs).Perm xs := by
  induction xs with
  | nil => rfl
  | cons x xs ih => exact (perm_insert before x (sort before xs)).trans (ih.cons x)

theorem mem_sort {x : α} : x ∈ sort before xs ↔ x ∈ xs := (perm_sort before xs).mem_iff

/-- The order `before` ranks elements: what one element need not stand before, and another need not
stand before that, the other need not stand before either. It may leave elements of one rank
apart. -/
structure Ranks (before : α → α → Bool) : Prop where
  asymm : ∀ a b, before a b = true → before b a = false
  trans : ∀ a b c, before b a = false → before c b = false → before c a = false

theorem Ranks.pairwise_insert (h : Ranks before) (x : α)
    (hxs : xs.Pairwise fun a b => before b a = false) :
    (insert before x xs).Pairwise fun a b => before b a = false := by
  induction xs with
  | nil => simp [insert]
  | cons y ys ih =>
    rw [List.pairwise_cons] at hxs
    rw [insert]
    split
    · rename_i hyx
      refine List.pairwise_cons.2 ⟨fun z hz => ?_, ih hxs.2⟩
      rcases List.mem_cons.1 ((perm_insert before x ys).mem_iff.1 hz) with rfl | hz
      · exact h.asymm _ _ hyx
      · exact hxs.1 z hz
    · rename_i hyx
      rw [Bool.not_eq_true] at hyx
      refine List.pairwise_cons.2 ⟨fun z hz => ?_, List.pairwise_cons.2 hxs⟩
      rcases List.mem_cons.1 hz with rfl | hz
      · exact hyx
      · exact h.trans x y z hyx (hxs.1 z hz)

theorem Ranks.pairwise_sort (h : Ranks before) (xs : List α) :
    (sort before xs).Pairwise fun a b => before b a = false := by
  induction xs with
  | nil => exact .nil
  | cons x xs ih => exact h.pairwise_insert x ih

/-- The same members in another arrangement are sorted in the same way by `sort`, if the order tells
all of them apart. -/
theorem Ranks.sort_eq (h : Ranks before) (hperm : xs.Perm ys)
    (hapart : ∀ a ∈ xs, ∀ b ∈ xs, before a b = false → before b a = false → a = b) :
    sort before xs = sort before ys := by
  have hsorted : (sort before xs).Perm (sort before ys) :=
    (perm_sort before xs).trans (hperm.trans (perm_sort before ys).symm)
  refine hsorted.eq_of_pairwise ?_ (h.pairwise_sort xs) (h.pairwise_sort ys)
  intro a b ha hb hba hab
  exact hapart a (mem_sort.1 ha) b (hperm.mem_iff.2 (mem_sort.1 hb)) hab hba

theorem insert_map {β : Type} {before' : β → β → Bool} {f : α → β} (x : α) (xs : List α)
    (h : ∀ y ∈ xs, before' (f y) (f x) = before y x) :
    insert before' (f x) (xs.map f) = (insert before x xs).map f := by
  induction xs with
  | nil => rfl
  | cons y ys ih =>
    rw [List.forall_mem_cons] at h
    rw [List.map_cons, insert, insert, h.1, ih h.2]
    split <;> rfl

theorem sort_map {β : Type} {before' : β → β → Bool} {f : α → β}
    (h : ∀ x ∈ xs, ∀ y ∈ xs, before' (f y) (f x) = before y x) :
    sort before' (xs.map f) = (sort before xs).map f := by
  induction xs with
  | nil => rfl
  | cons x xs ih =>
    have hxs : ∀ y ∈ xs, ∀ z ∈ xs, before' (f z) (f y) = before z y :=
      fun y hy z hz => h y (List.mem_cons_of_mem x hy) z (List.mem_cons_of_mem x hz)
    show insert before' (f x) (sort before' (xs.map f)) = (insert before x (sort before xs)).map f
    rw [ih hxs]
    refine insert_map x _ fun y hy => ?_
    exact h x List.mem_cons_self y (List.mem_cons_of_mem x (mem_sort.1 hy))

theorem insert_of_first {x : α} (h : ∀ y ∈ xs, before y x = false) :
    insert before x xs = x :: xs := by
  cases xs with
  | nil => rfl
  | cons y ys => rw [insert, if_neg (by simp [h y List.mem_cons_self])]

theorem Ranks.filter_insert (hranks : Ranks before) (p : α → Bool) (x : α)
    (hxs : xs.Pairwise fun a b => before b a = false) :
    (insert before x xs).filter p =
      if p x = true then insert before x (xs.filter p) else xs.filter p := by
  induction xs with
  | nil => cases hp : p x <;> simp [insert, hp]
  | cons y ys ih =>
    rw [List.pairwise_cons] at hxs
    rw [insert]
    split
    · rename_i hyx
      rw [List.filter_cons, ih hxs.2, List.filter_cons]
      cases hpx : p x <;> cases hpy : p y <;> simp [insert, hyx]
    · rename_i hyx
      rw [Bool.not_eq_true] at hyx
      -- all that is left comes behind the new member
      have hbehind : ∀ z ∈ (y :: ys).filter p, before z x = false := by
        intro z hz
        rcases List.mem_cons.1 (List.mem_of_mem_filter hz) with rfl | hz
        · exact hyx
        · exact hranks.trans x y z hyx (hxs.1 z hz)
      rw [insert_of_first hbehind, List.filter_cons]

theorem Ranks.sort_filter (hranks : Ranks before) (p : α → Bool) (xs : List α) :
    sort before (xs.filter p) = (sort before xs).filter p := by
  induction xs with
  | nil => rfl
  | cons x xs ih =>
    have hinsert := hranks.filter_insert p x (hranks.pairwise_sort xs)
    show _ = (insert before x (sort before xs)).filter p
    rw [hinsert, ← ih, List.filter_cons]
    split <;> rfl

theorem nodup_distinctTexts (texts : List String) : (distinctTexts texts).Nodup :=
  (perm_sort _ _).nodup_iff.2 (nodup_eraseDups texts)

theorem mem_distinctTexts {texts : List String} {text : String} :
    text ∈ distinctTexts texts ↔ text ∈ texts := by
  rw [distinctTexts, distinct, mem_sort, List.mem_eraseDups]

end Sorting

end ShaderMinifier
