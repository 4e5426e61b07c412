import ShaderMinifier.Proofs.Grammar.Token

/-
  Putting clean pieces together. A word, a directive's line and a symbol that no longer symbol
  starts with may stand before anything; a number may stand before a symbol; any other symbol asks
  for a piece behind it that cannot make it longer.
-/

namespace ShaderMinifier

/-- The symbols that no longer symbol starts with, so `Symbol.grows` is false on them and anything
may stand behind. -/
def Symbol.firm : List String :=
  ["++", "--", "~", "?", ":", "(", ")", "[", "]", "\x7b", "\x7d", ";", ",", "."]

theorem Symbol.mem_of_firm : ∀ t ∈ Symbol.firm, t ∈ Symbol.all := by decide

theorem Symbol.grows_of_firm {t : String} (ht : t ∈ Symbol.firm) (c : Char) :
    Symbol.grows t c = false := by
  have hmax : ∀ t ∈ Symbol.firm, ∀ s ∈ Symbol.all, t.toList <+: s.toList →
      s.toList.length ≤ t.toList.length := by decide
  exact Symbol.grows_eq_false_of_maximal (hmax t ht) c

namespace Piece

/-- Only a symbol of `Symbol.all` stands directly behind, if anything does. -/
def Behind (k : List Piece) : Prop := ∀ p ∈ k.head?, ∃ t ∈ Symbol.all, p = .token t

theorem behind_nil : Behind [] := by simp [Behind]

theorem behind_symbol {t : String} (ht : t ∈ Symbol.all) (k : List Piece) :
    Behind (.token t :: k) := by
  intro p hp
  obtain rfl := by simpa using hp
  exact ⟨t, ht, rfl⟩

theorem Behind.headWord? {k : List Piece} (h : Behind k) : headWord? k = none := by
  cases k with
  | nil => rfl
  | cons p k =>
    obtain ⟨t, ht, rfl⟩ := h p (by simp)
    exact headWord?_symbol ht

namespace Clean

theorem cons {p : Piece} {k : List Piece} (hp : p.isLexeme = true) (hk : Clean k)
    (h : ∀ q ∈ k.head?, p.isApart q = true) : Clean (p :: k) := by
  refine ⟨?_, List.isChain_cons.2 ⟨h, hk.apart⟩⟩
  intro q hq
  rcases List.mem_cons.1 hq with rfl | hq
  · exact hp
  · exact hk.lexemes q hq

theorem word {w : String} (hw : Word.isWordLike w = true) {k : List Piece} (hk : Clean k) :
    Clean (.token w :: k) :=
  cons (by simp [isLexeme, hw]) hk (fun q _ => by simp [isApart, hw])

theorem line {t : String} (ht : t.toList.head? = some '#') {k : List Piece} (hk : Clean k) :
    Clean (.line t :: k) :=
  cons (by simp [isLexeme, ht]) hk (fun q _ => rfl)

theorem symbol {t : String} (ht : t ∈ Symbol.all) {k : List Piece} (hk : Clean k)
    (h : ∀ q ∈ k.head?, (Piece.token t).isApart q = true) : Clean (.token t :: k) :=
  cons (by simp [isLexeme, ht]) hk h

theorem firm {t : String} (ht : t ∈ Symbol.firm) {k : List Piece} (hk : Clean k) :
    Clean (.token t :: k) := by
  refine symbol (Symbol.mem_of_firm t ht) hk fun q _ => ?_
  have hgrow : ∀ c, Symbol.grows t c = false := Symbol.grows_of_firm ht
  cases hq : q.first? <;> simp [isApart, hq, hgrow]

theorem number {t : String} (ht : (Piece.number t).isLexeme = true) {k : List Piece}
    (hk : Clean k) (hb : Behind k) : Clean (.number t :: k) := by
  refine cons ht hk fun q hq => ?_
  obtain ⟨s, hs, rfl⟩ := hb q hq
  exact Symbol.head_not_isPart s hs

end Clean

/-! ## Pieces with something behind them -/

theorem commaSeparated_cons (item : List Piece) {items : List (List Piece)} (h : items ≠ []) :
    commaSeparated (item :: items) = item ++ .token "," :: commaSeparated items := by
  cases items with
  | nil => exact absurd rfl h
  | cons next items => rfl

/-- Whatever `k` with `C` stands behind, if it starts with a symbol (`Behind`), the pieces have the
property with it. -/
def Extends (C : List Piece → Prop) (ps : List Piece) : Prop := ∀ k, C k → Behind k → C (ps ++ k)

namespace Extends

variable {C : List Piece → Prop}

theorem parenthesized {ps : List Piece} (hmark : ∀ t ∈ ["(", ")"], ∀ k, C k → C (.token t :: k))
    (h : Extends C ps) : Extends C (Piece.parenthesized ps) := by
  intro k hk _
  rw [Piece.parenthesized, List.cons_append, List.cons_append, List.append_assoc]
  exact hmark _ (by simp) _ (h _ (hmark _ (by simp) _ hk) (behind_symbol (by decide) _))

/-- `Extends` goes from the items to the items with commas between them, if `C` allows a comma in
front. -/
theorem commaSeparated {items : List (List Piece)} (hmark : ∀ k, C k → C (.token "," :: k))
    (h : ∀ ps ∈ items, Extends C ps) : Extends C (Piece.commaSeparated items) := by
  induction items with
  | nil => exact fun k hk _ => hk
  | cons ps items ih =>
    by_cases hitems : items = []
    · subst hitems
      exact h ps (by simp)
    · intro k hk hb
      rw [commaSeparated_cons _ hitems, List.append_assoc, List.cons_append]
      refine h ps (by simp) _ (hmark _ ?_) (behind_symbol (by decide) _)
      exact ih (fun qs hqs => h qs (by simp [hqs])) k hk hb

end Extends

/-- Whatever stands behind, if it starts with a symbol (`Behind`), the pieces are `Clean` with it.
This is `Extends Clean`, the form in which expressions have it. -/
def CleanPieces (ps : List Piece) : Prop := ∀ k, Clean k → Behind k → Clean (ps ++ k)

/-- `CleanPieces` goes from the items to the items with commas between them. -/
theorem CleanPieces.commaSeparated {items : List (List Piece)}
    (h : ∀ ps ∈ items, CleanPieces ps) : CleanPieces (Piece.commaSeparated items) :=
  Extends.commaSeparated (fun _ hk => Clean.firm (by decide) hk) h

/-- Whatever stands behind, the pieces are `Clean` with it. Statements and items end with a symbol
and have this form. -/
def ClosedPieces (ps : List Piece) : Prop := ∀ k, Clean k → Clean (ps ++ k)

namespace ClosedPieces

theorem nil : ClosedPieces [] := fun _ hk => hk

theorem cleanPieces {ps : List Piece} (h : ClosedPieces ps) : CleanPieces ps :=
  fun k hk _ => h k hk

theorem append {ps qs : List Piece} (hp : ClosedPieces ps) (hq : ClosedPieces qs) :
    ClosedPieces (ps ++ qs) := by
  intro k hk
  rw [List.append_assoc]
  exact hp _ (hq k hk)

theorem word {w : String} (hw : Word.isWordLike w = true) {ps : List Piece}
    (h : ClosedPieces ps) : ClosedPieces (.token w :: ps) :=
  fun k hk => Clean.word hw (h k hk)

theorem firm {t : String} (ht : t ∈ Symbol.firm) {ps : List Piece} (h : ClosedPieces ps) :
    ClosedPieces (.token t :: ps) :=
  fun k hk => Clean.firm ht (h k hk)

theorem flatMap {α : Type} {f : α → List Piece} {xs : List α}
    (h : ∀ x ∈ xs, ClosedPieces (f x)) : ClosedPieces (xs.flatMap f) := by
  induction xs with
  | nil => exact nil
  | cons x xs ih =>
    rw [List.flatMap_cons]
    exact (h x (by simp)).append (ih fun y hy => h y (by simp [hy]))

theorem ofClean {ps qs : List Piece} {t : String} (hp : CleanPieces ps)
    (ht : t ∈ Symbol.all) (hq : ClosedPieces (.token t :: qs)) :
    ClosedPieces (ps ++ .token t :: qs) := by
  intro k hk
  rw [List.append_assoc]
  exact hp _ (hq k hk) (behind_symbol ht _)

end ClosedPieces

/-- Only a directive's line starts with a hash: the text of `Clean` pieces does so only if
`Piece.line` is the first of them. -/
theorem head_spell_ne_hash {k : List Piece} (hk : Clean k) (h : ∀ t l, k ≠ .line t :: l) :
    (spell k).head? ≠ some '#' := by
  cases k with
  | nil => simp [spell, Pen.writeAll]
  | cons p k =>
    rw [Pen.head_spell_cons hk.head]
    intro hfirst
    cases p with
    | token t =>
      have hlex := hk.head
      rw [isLexeme, Bool.or_eq_true, List.contains_iff_mem] at hlex
      rcases hlex with hw | ht
      · simp only [first?, text] at hfirst
        rw [Word.isWordLike, hfirst] at hw
        cases hw
      · have := Symbol.char_of_symbol t ht '#' (List.mem_of_mem_head? hfirst)
        simp at this
    | number t =>
      have hlex := hk.head
      simp only [first?, text] at hfirst
      rw [isLexeme, hfirst] at hlex
      cases hlex
    | line t => exact h t k rfl

/-! ## Lengths -/

/-- A piece adds at least its first character to the text, so `spell` gets longer with each `Clean`
piece. -/
theorem spell_length_lt_cons {p : Piece} {k : List Piece} (h : Clean (p :: k)) :
    (spell k).length < (spell (p :: k)).length := by
  obtain ⟨c, cs, htext⟩ := text_ne_nil h.head
  have hle : (spell k).length ≤ ((Pen.past p).writeAll k).length := by
    cases k with
    | nil => simp [spell, Pen.writeAll]
    | cons q k => simp [Pen.writeAll_cons _ h.tail.head]
  rw [Pen.spell_cons, Pen.start_write, htext, List.length_append, List.length_append,
    List.length_cons]
  omega

theorem spell_length_le {ps k : List Piece} (h : Clean (ps ++ k)) :
    (spell k).length ≤ (spell (ps ++ k)).length := by
  induction ps with
  | nil => simp
  | cons p ps ih => exact (ih h.tail).trans (spell_length_lt_cons h).le

theorem spell_length_lt {ps k : List Piece} (hne : ps ≠ []) (h : Clean (ps ++ k)) :
    (spell k).length < (spell (ps ++ k)).length := by
  cases ps with
  | nil => exact absurd rfl hne
  | cons p ps => exact (spell_length_le h.tail).trans_lt (spell_length_lt_cons h)

end Piece

end ShaderMinifier
