import ShaderMinifier.Proofs.Grammar.Digits
import ShaderMinifier.Proofs.Text.Lexed

/-
  The shortest text with given lexemes. `snug` leaves a gap only where two symbols would be read as
  a longer one or where a decimal integer would take the point behind it, and it writes an integer
  in hexadecimal where that is shorter. Every text with these lexemes among its own is at least as
  long (`Lexed.length_snug_le`). What the layout writes beyond that is `spare`.
-/

namespace ShaderMinifier

open scoped List

namespace Piece

/-- The first character of pieces, that of the first piece (`first?`), which decides what gap the
piece before needs. -/
def headChar? (k : List Piece) : Option Char := k.head?.bind first?

/-- The gap between an integer and the point of a field. Without it, `lexemeAtHead` would read a
floating point literal. -/
def pointGap (k : List Piece) : List Char := if k.head? = some (.token ".") then [' '] else []

/-- The hexadecimal spelling of a value, which `Integer.hexAtHead?` reads and no point can join. -/
def hexText (value : Nat) : List Char := '0' :: 'x' :: Nat.toDigits 16 value

/-- A piece spelled as short as what stands behind it allows, with the gap behind it: after a symbol
that the next character `grows`, and after the digits of an integer before a point. -/
def snugText : Piece → List Piece → List Char
  | .token t, k => t.toList ++ if (headChar? k).any (Symbol.grows t) then [' '] else []
  | .number t, k =>
    if t.toList.all Char.isDigit then
      let hex := hexText (Integer.ofDigits 10 t.toList)
      let decimal := t.toList ++ pointGap k
      if hex.length < decimal.length then hex else decimal
    else t.toList
  | .line t, _ => t.toList

/-- The shortest text of pieces, each by `snugText` before the ones behind it. -/
def snug : List Piece → List Char
  | [] => []
  | p :: k => p.snugText k ++ snug k

/-- What the layout writes for a piece beyond its `snugText`: a gap between a step and its own sign
or between a floating point literal and a point, and the decimal digits of an integer that is
shorter in hexadecimal. -/
def spareAt : Piece → List Piece → Nat
  | .token t, k => if (t = "++" ∨ t = "--") ∧ headChar? k = t.toList.head? then 1 else 0
  | .number t, k =>
    if t.toList.all Char.isDigit then
      (t.toList ++ pointGap k).length - (hexText (Integer.ofDigits 10 t.toList)).length
    else (pointGap k).length
  | .line _, _ => 0

/-- What the layout of pieces has beyond their shortest text, the sum of `spareAt`. -/
def spare : List Piece → Nat
  | [] => 0
  | p :: k => p.spareAt k + spare k

theorem length_snugText_int {t : String} (ht : t.toList.all Char.isDigit = true) (k : List Piece) :
    ((Piece.number t).snugText k).length =
      min (hexText (Integer.ofDigits 10 t.toList)).length
        (t.toList.length + (pointGap k).length) := by
  rw [snugText, if_pos ht, ← List.length_append]
  dsimp only
  split <;> omega

theorem snugText_float {t : String} (ht : t.toList.all Char.isDigit = false) (k : List Piece) :
    (Piece.number t).snugText k = t.toList := by
  rw [snugText, if_neg (by simp [ht])]

/-! ## Leaving pieces out -/

theorem snugText_congr (p : Piece) {k l : List Piece} (h : k.head? = l.head?) :
    p.snugText k = p.snugText l := by
  have hchar : headChar? k = headChar? l := by rw [headChar?, headChar?, h]
  have hgap : pointGap k = pointGap l := by rw [pointGap, pointGap, h]
  cases p <;> simp only [snugText, hchar, hgap]

theorem length_snugText_le (p : Piece) (k l : List Piece) :
    (p.snugText k).length ≤ (p.snugText l).length + 1 := by
  have hone : ∀ (c d : Prop) [Decidable c] [Decidable d],
      (if c then [' '] else []).length ≤ (if d then [' '] else []).length + 1 := by
    intro c d _ _
    split <;> split <;> simp
  cases p with
  | token t =>
    have hgap := hone ((headChar? k).any (Symbol.grows t) = true)
      ((headChar? l).any (Symbol.grows t) = true)
    simp only [snugText, List.length_append]
    omega
  | number t =>
    by_cases ht : t.toList.all Char.isDigit = true
    · have hgap : (pointGap k).length ≤ (pointGap l).length + 1 := hone _ _
      rw [length_snugText_int ht, length_snugText_int ht]
      omega
    · rw [snugText_float (by simpa using ht), snugText_float (by simpa using ht)]
      omega
  | line t => exact Nat.le_succ _

theorem snugText_pos {p : Piece} (h : p.text.toList ≠ []) (k : List Piece) :
    0 < (p.snugText k).length := by
  have hpos := List.length_pos_iff.2 h
  cases p with
  | token t =>
    rw [snugText, List.length_append]
    exact Nat.lt_add_right _ hpos
  | number t =>
    by_cases ht : t.toList.all Char.isDigit = true
    · have hhex : 0 < (hexText (Integer.ofDigits 10 t.toList)).length := by simp [hexText]
      rw [length_snugText_int ht]
      simp only [text] at hpos
      omega
    · rw [snugText_float (by simpa using ht)]
      exact hpos
  | line t => exact hpos

/-- A piece that is left out may make a gap necessary, which costs no more than the piece did:
`snug` of a sublist is no longer. -/
theorem length_snug_of_sublist {ps qs : List Piece} (h : qs <+ ps)
    (hne : ∀ p ∈ ps, p.text.toList ≠ []) :
    (snug qs).length + (if qs.head? = ps.head? then 0 else 1) ≤ (snug ps).length := by
  induction ps generalizing qs with
  | nil =>
    obtain rfl := List.sublist_nil.1 h
    simp
  | cons p ps ih =>
    have hrest : ∀ q ∈ ps, q.text.toList ≠ [] := fun q hq => hne q (by simp [hq])
    rw [snug, List.length_append]
    rcases List.sublist_cons_iff.1 h with hskip | ⟨rs, rfl, hrs⟩
    · have hpos := snugText_pos (hne p (by simp)) ps
      have hle := ih hskip hrest
      split at hle <;> split <;> omega
    · have hle := ih hrs hrest
      rw [snug, List.length_append, List.head?_cons, List.head?_cons, if_pos rfl]
      by_cases hhead : rs.head? = ps.head?
      · rw [snugText_congr p hhead]
        omega
      · have hgap := length_snugText_le p rs ps
        rw [if_neg hhead] at hle
        omega

end Piece

/-! ## No text is shorter -/

/-- The lexer never stops before a character that makes its symbol longer, so `grows` is false
there. -/
theorem Symbol.grows_of_atHead? {input rest : List Char} {t : String} {c : Char}
    (h : Symbol.atHead? input = some (t, c :: rest)) : Symbol.grows t c = false := by
  rw [← Bool.not_eq_true]
  intro hgrow
  obtain ⟨-, hinput⟩ := Symbol.atHead?_eq h
  obtain ⟨s, hs, more, hmore⟩ := Symbol.grows_iff.1 hgrow
  -- with just this character it is a symbol too, and that one stands before the shorter one
  have hclosed : ∀ s ∈ Symbol.all, ∀ n < s.toList.length,
      String.ofList (s.toList.take (n + 1)) ∈ Symbol.all := by decide +kernel
  have hlonger : String.ofList (t.toList ++ [c]) ∈ Symbol.all := by
    have htake : s.toList.take (t.toList.length + 1) = t.toList ++ [c] := by
      rw [← hmore]
      exact List.take_left' (by simp)
    have hlt : t.toList.length < s.toList.length := by
      rw [← hmore]
      simp
    rw [← htake]
    exact hclosed s hs _ hlt
  obtain ⟨earlier, u, later, hall, hfound, hnone⟩ := List.findSome?_eq_some_iff.1 h
  obtain ⟨tail, -, heq⟩ := Option.map_eq_some_iff.1 hfound
  obtain rfl : u = t := (Prod.mk.inj heq).1
  have hne : u ≠ String.ofList (u.toList ++ [c]) := by
    intro heq
    have hlength := congrArg (fun w : String => w.toList.length) heq
    simp at hlength
  have hnot : String.ofList (u.toList ++ [c]) ∉ earlier := by
    intro hmem
    have hread := hnone _ hmem
    have hafter := Symbol.after?_append (u.toList ++ [c]) rest
    rw [List.append_assoc, List.singleton_append, ← hinput] at hafter
    rw [String.toList_ofList, hafter] at hread
    cases hread
  have hbefore : u ∈ Symbol.all.takeWhile (· != String.ofList (u.toList ++ [c])) := by
    rw [hall, List.takeWhile_append_of_pos fun w hw => by
      simpa using ne_of_mem_of_not_mem hw hnot, List.takeWhile_cons_of_pos (by simpa using hne)]
    simp
  exact Symbol.earlier_not_within _ hlonger u hbefore (by simp)

theorem Blank.length_skip_lt {rest : List Char} (h : skip rest ≠ rest) :
    1 + (skip rest).length ≤ rest.length := by
  have hle := (skip_suffix rest).length_le
  have hne : (skip rest).length ≠ rest.length := fun heq => h ((skip_suffix rest).eq_of_length heq)
  omega

/-- No word is the start of a symbol, so `grows` is false on words. -/
theorem Symbol.grows_word {w : String} (hw : Word.isWord w = true) (c : Char) :
    Symbol.grows w c = false := by
  rw [← Bool.not_eq_true]
  intro hgrow
  obtain ⟨s, hs, hstart⟩ := Symbol.grows_iff.1 hgrow
  obtain ⟨d, ds, hlist, hd, -⟩ := Word.isWord_iff.1 hw
  have hpart := Symbol.isPart_eq_false hs (hstart.subset (by simp [hlist] : d ∈ w.toList ++ [c]))
  rw [Word.isPart_of_isStart hd] at hpart
  cases hpart

namespace Piece.AtHead

variable {p : Piece} {input rest : List Char}

theorem text_ne_nil (h : p.AtHead input rest) : p.text.toList ≠ [] := by
  cases h with
  | word h =>
    obtain ⟨c, cs, hlist, -⟩ := Word.isWord_iff.1 (Word.isWord_of_atHead? h)
    simp [text, hlist]
  | symbol h =>
    obtain ⟨c, cs, hlist, -⟩ := Symbol.exists_cons (Symbol.atHead?_eq h).1
    simp [text, hlist]
  | float h =>
    obtain ⟨c, cs, hlist, -⟩ := (FloatLiteral.lexeme_of_lexemeAtHead h).proper.lexeme.head
    simp [text, hlist]
  | int => simp [text, Nat.toDigits_ne_nil]

theorem token_eq {t : String} (h : (Piece.token t).AtHead input rest) :
    input = t.toList ++ rest := by
  cases h with
  | word h => exact Word.atHead?_eq h
  | symbol h => exact (Symbol.atHead?_eq h).2

/-- The source has the first character of the piece where a symbol could take it, though `AtHead`
lets a number be spelled otherwise. -/
theorem head?_eq (h : p.AtHead input rest) {c : Char} (hc : p.first? = some c) {t : String}
    (ht : t ∈ Symbol.all) (hgrow : Symbol.grows t c = true) : input.head? = some c := by
  have hdigit : c.isDigit = false := by
    rw [← Bool.not_eq_true]
    intro hd
    rw [Symbol.grows_eq_false (by simp [Word.isPart_of_isDigit hd]) t] at hgrow
    cases hgrow
  have htoken : ∀ {s : String}, (Piece.token s).AtHead input rest →
      (Piece.token s).first? = some c → input.head? = some c := by
    intro s h hc
    rw [h.token_eq, List.head?_append]
    rw [first?, text] at hc
    rw [hc, Option.some_or]
  cases h with
  | word h => exact htoken (.word h) hc
  | symbol h hfloat => exact htoken (.symbol h hfloat) hc
  | float h =>
    have hpoint : ∀ s ∈ Symbol.all, '.' ∈ s.toList → s = "." := by decide
    obtain ⟨d, cs, hlist, hd⟩ := (FloatLiteral.lexeme_of_lexemeAtHead h).proper.lexeme.head
    obtain rfl : d = c := by simpa [first?, text, hlist] using hc
    rcases hd with hd | rfl
    · rw [hdigit] at hd
      cases hd
    · obtain ⟨s, hs, hstart⟩ := Symbol.grows_iff.1 hgrow
      obtain rfl := hpoint s hs (hstart.subset (by simp))
      obtain ⟨e, es, hcons, -⟩ := Symbol.exists_cons ht
      have hlength : (t.toList ++ ['.']).length ≤ 1 := hstart.length_le
      simp [hcons] at hlength
  | int =>
    rw [first?, text, String.toList_ofList] at hc
    rw [Integer.allDigits_toDigits _ c (List.mem_of_mem_head? hc)] at hdigit
    cases hdigit

/-- Behind a symbol of the source stands a gap where the next piece would make it longer (`grows`),
so the gap of `snugText` is paid for. -/
theorem length_symbolGap_le {t : String} (h : Symbol.atHead? input = some (t, rest))
    {k : List Piece} {last : List Char} (hk : Lexed (Blank.skip rest) k last) :
    (if (headChar? k).any (Symbol.grows t) then [' '] else []).length +
      (Blank.skip rest).length ≤ rest.length := by
  split
  · next hany =>
    obtain ⟨c, hc, hgrow⟩ := (Option.any_eq_true _ _).1 hany
    refine Blank.length_skip_lt fun heq => ?_
    cases hk with
    | nil => cases hc
    | cons hq _ =>
      have hhead := hq.head?_eq hc (Symbol.atHead?_eq h).1 hgrow
      rw [heq] at hhead
      cases rest with
      | nil => cases hhead
      | cons d rest =>
        obtain rfl : d = c := by simpa using hhead
        rw [Symbol.grows_of_atHead? h] at hgrow
        cases hgrow
  · simpa using (Blank.skip_suffix rest).length_le

/-- Behind a number of the source that no point follows stands a gap before a point, so `pointGap`
is paid for. -/
theorem length_pointGap_le (hpoint : rest.head? ≠ some '.') {k : List Piece} {last : List Char}
    (hk : Lexed (Blank.skip rest) k last) :
    (pointGap k).length + (Blank.skip rest).length ≤ rest.length := by
  unfold pointGap
  split
  · next hhead =>
    refine Blank.length_skip_lt fun heq => ?_
    cases hk with
    | nil => cases hhead
    | cons hq _ =>
      obtain rfl := Option.some.inj hhead
      rw [← heq, hq.token_eq] at hpoint
      exact hpoint rfl
  · simpa using (Blank.skip_suffix rest).length_le

/-- A piece takes at least the characters of its `snugText` of the source, and one more where a gap
is needed. -/
theorem length_snugText_le (h : p.AtHead input rest) {k : List Piece} {last : List Char}
    (hk : Lexed (Blank.skip rest) k last) :
    (p.snugText k).length + (Blank.skip rest).length ≤ input.length := by
  have hle := (Blank.skip_suffix rest).length_le
  cases h with
  | @word w _ _ h =>
    have hgrow : ∀ c, Symbol.grows w c = false := Symbol.grows_word (Word.isWord_of_atHead? h)
    have hany : (headChar? k).any (Symbol.grows w) = false := by
      cases headChar? k <;> simp [hgrow]
    have hlength := congrArg List.length (Word.atHead?_eq h)
    rw [snugText, hany]
    simp only [List.length_append, Bool.false_eq_true, if_false, List.length_nil] at hlength ⊢
    omega
  | @symbol t _ _ h =>
    have hlength := congrArg List.length (Symbol.atHead?_eq h).2
    have hgap := length_symbolGap_le h hk
    rw [snugText, List.length_append]
    rw [List.length_append] at hlength
    omega
  | @float lexeme _ _ h =>
    have hlexeme := FloatLiteral.lexeme_of_lexemeAtHead h
    have htext : (FloatLiteral.ofText (String.ofList lexeme)).text.toList =
        FloatLiteral.canonical lexeme := by simp [FloatLiteral.ofText]
    have hlength := congrArg List.length (FloatLiteral.lexemeAtHead_eq h)
    have hcanonical := FloatLiteral.length_canonical_le hlexeme
    rw [snugText_float hlexeme.proper.lexeme.not_allDigits, htext]
    rw [List.length_append] at hlength
    omega
  | @int value _ _ hfloat h hend =>
    rw [length_snugText_int (Integer.all_isDigit_toDigits value.toNat), String.toList_ofList,
      Integer.ofDigits_toDigits]
    have hhex : (hexText value.toNat).length = 2 + (Nat.toDigits 16 value.toNat).length := by
      rw [hexText, List.length_cons, List.length_cons]
      omega
    rcases Integer.length_of_atHead? h hfloat with hlength | ⟨hlength, hpoint⟩
    · omega
    · have hgap := length_pointGap_le hpoint hk
      omega

end Piece.AtHead

/-- A text is at least as long as the `snug` text of its lexemes, by `length_snugText_le` for each
of them. -/
theorem Lexed.length_snug_le {input rest : List Char} {ps : List Piece} (h : Lexed input ps rest) :
    (Piece.snug ps).length + rest.length ≤ input.length := by
  induction h with
  | nil => simp [Piece.snug]
  | cons hp hk ih =>
    have hle := hp.length_snugText_le hk
    rw [Piece.snug, List.length_append]
    omega

end ShaderMinifier
