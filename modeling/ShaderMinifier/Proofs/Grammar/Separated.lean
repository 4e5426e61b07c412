import ShaderMinifier.Proofs.Text.Clean

/-
  Lists with commas between their items, on spelled pieces. The items are read one after the
  other, each with all that stands behind it; `Follow` is what an item's parser asks of that.
-/

namespace ShaderMinifier

open Piece

/-- The items of a list, each behind its comma: the tail of `Piece.commaSeparated`. -/
def Piece.afterCommas {α : Type} (f : α → List Piece) (xs : List α) : List Piece :=
  xs.flatMap fun x => .token "," :: f x

theorem Piece.commaSeparated_map {α : Type} (f : α → List Piece) (x : α) (xs : List α) :
    Piece.commaSeparated ((x :: xs).map f) = f x ++ Piece.afterCommas f xs := by
  induction xs generalizing x with
  | nil => simp [Piece.commaSeparated, Piece.afterCommas]
  | cons y ys ih =>
    have h := ih y
    rw [List.map_cons] at h
    rw [List.map_cons, List.map_cons, Piece.commaSeparated, h]
    · rfl
    · simp

namespace Parser

variable {α : Type} {p q : Parser α} {f : α → List Piece} {Follow : List Piece → Prop}
  {x : α} {xs : List α} {k : List Piece}

/-- The parser reads the pieces of an item back, with anything behind them that `Follow` allows. The
shape of every round trip lemma. -/
def Reads (p : Parser α) (ps : List Piece) (v : α) (Follow : List Piece → Prop) : Prop :=
  ∀ k, Clean (ps ++ k) → Follow k → p (spell (ps ++ k)) = .matched v (spell k)

theorem Reads.commit {ps : List Piece} {v : α} (h : Reads p ps v Follow) :
    Reads (commit p) ps v Follow :=
  fun k hk hf => commit_of_matched (h k hk hf)

theorem Reads.mono {Follow' : List Piece → Prop} {ps : List Piece} {v : α}
    (h : Reads p ps v Follow) (hf : ∀ k, Follow' k → Follow k) : Reads p ps v Follow' :=
  fun k hk hk' => h k hk (hf k hk')

theorem follow_afterCommas (hcomma : ∀ l, Follow (.token "," :: l)) (hf : Follow k) :
    Follow (Piece.afterCommas f xs ++ k) := by
  cases xs with
  | nil => exact hf
  | cons x xs => exact hcomma _

theorem steps_afterCommas
    (hq : ∀ x ∈ xs, Reads q (.token "," :: f x) x Follow)
    (hcomma : ∀ l, Follow (.token "," :: l)) (hk : Clean (Piece.afterCommas f xs ++ k))
    (hf : Follow k) : Steps q (spell (Piece.afterCommas f xs ++ k)) xs (spell k) := by
  induction xs with
  | nil => exact .nil
  | cons x xs ih =>
    have hassoc : Piece.afterCommas f (x :: xs) ++ k =
        (.token "," :: f x) ++ (Piece.afterCommas f xs ++ k) := by
      simp [Piece.afterCommas]
    rw [hassoc] at hk ⊢
    refine .cons (hq x (by simp) _ hk (follow_afterCommas hcomma hf))
      (spell_length_lt (by simp) hk) ?_
    exact ih (fun y hy => hq y (by simp [hy])) hk.right

theorem reads_behind_comma {ps : List Piece} {v : α} (hp : Reads p ps v Follow) :
    Reads (do symbol ","; p) (.token "," :: ps) v Follow := by
  intro k hk hf
  rw [List.cons_append] at hk ⊢
  rw [bind_of_matched (symbol_spell (by decide) hk)]
  exact hp k hk.tail hf

theorem mismatch_behind_comma (hk : Clean k) (h : headSymbol? k ≠ some ",") :
    (do symbol ","; p : Parser α) (spell k) = .mismatch ⟨spell k, .expected (.token ",")⟩ :=
  bind_of_mismatch (symbol_mismatch hk h)

theorem sepBy1_spell (hp : ∀ y ∈ x :: xs, Reads p (f y) y Follow)
    (hcomma : ∀ l, Follow (.token "," :: l))
    (hk : Clean (Piece.commaSeparated ((x :: xs).map f) ++ k)) (hf : Follow k)
    (hend : headSymbol? k ≠ some ",") :
    sepBy1 (symbol ",") p (spell (Piece.commaSeparated ((x :: xs).map f) ++ k)) =
      .matched (x :: xs) (spell k) := by
  rw [commaSeparated_map, List.append_assoc] at hk ⊢
  have hfirst := hp x (by simp) _ hk (follow_afterCommas hcomma hf)
  have hothers := steps_afterCommas (fun y hy => reads_behind_comma (hp y (by simp [hy])))
    hcomma hk.right hf
  rw [sepBy1, bind_of_matched hfirst,
    bind_of_matched (hothers.many (mismatch_behind_comma hk.right.right hend)), pure_apply]

theorem commaList_spell (hp : ∀ y ∈ x :: xs, Reads p (f y) y Follow)
    (hcomma : ∀ l, Follow (.token "," :: l))
    (hk : Clean (Piece.commaSeparated ((x :: xs).map f) ++ k)) (hf : Follow k)
    (hend : headSymbol? k ≠ some ",") :
    commaList (symbol ",") p (spell (Piece.commaSeparated ((x :: xs).map f) ++ k)) =
      .matched (x :: xs) (spell k) := by
  rw [commaSeparated_map, List.append_assoc] at hk ⊢
  have hfirst := hp x (by simp) _ hk (follow_afterCommas hcomma hf)
  have hothers := steps_afterCommas
    (fun y hy => reads_behind_comma (hp y (by simp [hy])).commit) hcomma hk.right hf
  rw [commaList, bind_of_matched hfirst,
    bind_of_matched (hothers.many (mismatch_behind_comma hk.right.right hend)), pure_apply]

end Parser

end ShaderMinifier
