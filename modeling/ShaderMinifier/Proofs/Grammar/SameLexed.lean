import ShaderMinifier.Proofs.Grammar.Digits
import ShaderMinifier.Proofs.Statement.Compare
import ShaderMinifier.Proofs.Text.Lexed
import ShaderMinifier.Tree

/-
  Two texts with the same lexemes, however these are spelled and spaced, are read as the same
  expression. The heads of such texts look alike to all parsers of lexemes (`Lexical`), if a number
  that starts with its point does so in both: before such a number some parsers expect a name.
-/

namespace ShaderMinifier

/-! ## What the lexer finds where a piece stands -/

theorem Integer.head_of_atHead? {input rest : List Char} {value : UInt64}
    (h : Integer.atHead? input = some (value, rest)) :
    ∃ c tail, input = c :: tail ∧ c.isDigit = true := by
  cases input with
  | nil => cases h
  | cons c tail =>
    refine ⟨c, tail, rfl, ?_⟩
    by_contra hc
    rw [Integer.atHead?_absent fun d hd => by
      obtain rfl : c = d := by simpa using hd
      simpa using hc] at h
    cases h

namespace Piece

/-- The piece as a word, if it is one: what `Word.atHead?` finds where the piece stands. -/
def word? : Piece → Option String
  | .token t => if Word.isWord t then some t else none
  | _ => none

/-- The piece as a symbol, if it is one: what `Symbol.atHead?` finds where the piece stands, numbers
apart. -/
def symbol? : Piece → Option String
  | .token t => if t ∈ Symbol.all then some t else none
  | _ => none

theorem word?_symbol {t : String} (ht : t ∈ Symbol.all) : (Piece.token t).word? = none := by
  rw [word?, if_neg fun hw => Symbol.not_mem_of_isWord hw ht]

theorem symbol?_word {w : String} (hw : Word.isWord w = true) : (Piece.token w).symbol? = none := by
  rw [symbol?, if_neg (Symbol.not_mem_of_isWord hw)]

namespace AtHead

variable {p : Piece} {input rest : List Char}

theorem number_head {t : String} (h : (Piece.number t).AtHead input rest) :
    ∃ c tail, input = c :: tail ∧
      (c.isDigit = true ∨ c = '.' ∧ ∃ d ds, tail = d :: ds ∧ d.isDigit = true) := by
  cases h with
  | float h =>
    have hlexeme := FloatLiteral.lexeme_of_lexemeAtHead h
    rw [FloatLiteral.lexemeAtHead_eq h]
    obtain ⟨c, cs, rfl, hc | rfl⟩ := hlexeme.head
    · exact ⟨c, cs ++ rest, rfl, .inl hc⟩
    · obtain ⟨d, ds, rfl, hd⟩ := hlexeme.behind_point
      exact ⟨'.', d :: ds ++ rest, rfl, .inr ⟨rfl, d, ds ++ rest, rfl, hd⟩⟩
  | int _ h _ =>
    obtain ⟨c, tail, hinput, hc⟩ := Integer.head_of_atHead? h
    exact ⟨c, tail, hinput, .inl hc⟩

theorem head_ne_point {t : String} (h : (Piece.number t).AtHead input rest)
    (ht : t.toList.all Char.isDigit = true) : input.head? ≠ some '.' := by
  cases h with
  | float h =>
    rw [(FloatLiteral.lexeme_of_lexemeAtHead h).proper.lexeme.not_allDigits] at ht
    cases ht
  | int _ h _ =>
    obtain ⟨c, tail, rfl, hc⟩ := Integer.head_of_atHead? h
    intro hpoint
    obtain rfl : c = '.' := by simpa using hpoint
    cases hc

theorem head_symbol {t : String} (h : Symbol.atHead? input = some (t, rest)) :
    ∃ c tail, input = c :: tail ∧ Word.isPart c = false := by
  obtain ⟨ht, rfl⟩ := Symbol.atHead?_eq h
  obtain ⟨c, cs, hlist, hc⟩ := Symbol.exists_cons ht
  exact ⟨c, cs ++ rest, by rw [hlist]; rfl, hc⟩

theorem head_word {w : String} (h : Word.atHead? input = some (w, rest)) :
    ∃ c tail, input = c :: tail ∧ Word.isStart c = true := by
  obtain ⟨c, cs, hlist, hc, -⟩ := Word.isWord_iff.1 (Word.isWord_of_atHead? h)
  exact ⟨c, cs ++ rest, by rw [Word.atHead?_eq h, hlist]; rfl, hc⟩

theorem ne_nil (h : p.AtHead input rest) : input ≠ [] := by
  rintro rfl
  cases h with
  | word h => cases h
  | symbol h => cases h
  | float h => cases h
  | int _ h => cases h

theorem wordAtHead? (h : p.AtHead input rest) :
    Word.atHead? input = p.word?.map fun w => (w, rest) := by
  have hnumber : ∀ {t : String}, (Piece.number t).AtHead input rest →
      Word.atHead? input = none := by
    intro t h
    obtain ⟨c, tail, rfl, hc | ⟨rfl, -⟩⟩ := h.number_head
    · exact wordAtHead_eq_none (Word.isStart_eq_false_of_isDigit hc) _
    · exact wordAtHead_eq_none rfl _
  cases h with
  | word h => rw [h, word?, if_pos (Word.isWord_of_atHead? h), Option.map_some]
  | symbol h =>
    obtain ⟨c, tail, hinput, hc⟩ := head_symbol h
    rw [word?_symbol (Symbol.atHead?_eq h).1, hinput,
      wordAtHead_eq_none (Word.isStart_eq_false_of_isPart hc), Option.map_none]
  | float h => exact hnumber (.float h)
  | int hfloat h hend => exact hnumber (.int hfloat h hend)

theorem symbolAtHead? {t : String} (h : (Piece.token t).AtHead input rest) :
    Symbol.atHead? input = (Piece.token t).symbol?.map fun s => (s, rest) := by
  cases h with
  | word h =>
    obtain ⟨c, tail, hinput, hc⟩ := head_word h
    rw [symbol?_word (Word.isWord_of_atHead? h), hinput,
      Symbol.atHead?_eq_none_of_isPart (Word.isPart_of_isStart hc), Option.map_none]
  | symbol h => rw [h, symbol?, if_pos (Symbol.atHead?_eq h).1, Option.map_some]

theorem symbolAtHead?_number {t : String} (h : (Piece.number t).AtHead input rest) :
    input.head? ≠ some '.' ∧ Symbol.atHead? input = none ∨
      input.head? = some '.' ∧ Comparison.BarePoint input := by
  obtain ⟨c, tail, rfl, hc | ⟨rfl, d, ds, rfl, hd⟩⟩ := h.number_head
  · refine .inl ⟨?_, Symbol.atHead?_eq_none_of_isPart (Word.isPart_of_isDigit hc) _⟩
    rintro heq
    obtain rfl : c = '.' := by simpa using heq
    cases hc
  · exact .inr ⟨rfl, Comparison.barePoint_digit hd ds⟩

theorem lexemeAtHead_token {t : String} (h : (Piece.token t).AtHead input rest) :
    ∃ place, FloatLiteral.lexemeAtHead input = .error place := by
  cases h with
  | word h =>
    obtain ⟨c, tail, rfl, hc⟩ := head_word h
    refine ⟨_, FloatLiteral.lexemeAtHead_absent fun d hd => ?_⟩
    obtain rfl : c = d := by simpa using hd
    refine ⟨Word.isDigit_eq_false_of_isStart hc, ?_⟩
    rintro rfl
    cases hc
  | symbol _ hfloat => exact hfloat

theorem integerAtHead_token {t : String} (h : (Piece.token t).AtHead input rest) :
    Integer.atHead? input = none := by
  refine Integer.atHead?_absent fun d hd => ?_
  cases h with
  | word h =>
    obtain ⟨c, tail, rfl, hc⟩ := head_word h
    obtain rfl : c = d := by simpa using hd
    exact Word.isDigit_eq_false_of_isStart hc
  | symbol h =>
    obtain ⟨c, tail, rfl, hc⟩ := head_symbol h
    obtain rfl : c = d := by simpa using hd
    exact Word.isDigit_eq_false_of_isPart hc

theorem number_cases {t : String} (h : (Piece.number t).AtHead input rest) :
    (t.toList.all Char.isDigit = false ∧
      Parser.floatLiteral input = .matched ⟨t⟩ (Blank.skip rest)) ∨
    (t.toList.all Char.isDigit = true ∧ (∃ fault, Parser.floatLiteral input = .mismatch fault) ∧
      Parser.intLiteral input =
        .matched (UInt64.ofNat (Integer.ofDigits 10 t.toList)) (Blank.skip rest)) := by
  cases h with
  | float h =>
    refine .inl ⟨(FloatLiteral.lexeme_of_lexemeAtHead h).proper.lexeme.not_allDigits, ?_⟩
    simp only [Parser.floatLiteral, h]
  | @int value _ _ hfloat h hend =>
    obtain ⟨place, hplace⟩ := hfloat
    have hdigits : (Nat.toDigits 10 value.toNat).all Char.isDigit = true :=
      List.all_eq_true.2 (Integer.allDigits_toDigits _)
    refine .inr ⟨by rwa [String.toList_ofList], ⟨⟨place, .unexpected⟩, ?_⟩, ?_⟩
    · simp only [Parser.floatLiteral, hplace]
    · rw [String.toList_ofList, Integer.ofDigits_toDigits, UInt64.ofNat_toNat]
      simp only [Parser.intLiteral, h]
      cases rest with
      | nil => rfl
      | cons c rest => simp [hend c (by simp)]

theorem head_ne_hash (h : p.AtHead input rest) : input.head? ≠ some '#' := by
  intro hhash
  have hnumber : ∀ {t : String}, ¬ (Piece.number t).AtHead input rest := by
    intro t h
    obtain ⟨c, tail, rfl, hc⟩ := h.number_head
    obtain rfl : c = '#' := by simpa using hhash
    rcases hc with hc | ⟨hc, -⟩ <;> cases hc
  cases h with
  | word h =>
    obtain ⟨c, tail, rfl, hc⟩ := head_word h
    obtain rfl : c = '#' := by simpa using hhash
    cases hc
  | @symbol t _ _ h =>
    have hne : ∀ t ∈ Symbol.all, t.toList ≠ [] ∧ t.toList.head? ≠ some '#' := by decide
    obtain ⟨ht, rfl⟩ := Symbol.atHead?_eq h
    rw [List.head?_append_of_ne_nil _ (hne t ht).1] at hhash
    exact (hne t ht).2 hhash
  | float h => exact hnumber (.float h)
  | int hfloat h hend => exact hnumber (.int hfloat h hend)

end AtHead

end Piece

/-! ## Texts with the same lexemes -/

/-- The texts have the same lexemes (`AtHead`), and a number starts with its point in both or in
neither. -/
inductive SameLexed : List Char → List Char → Prop
  | nil : SameLexed [] []
  | cons {p : Piece} {s t rest rest' : List Char} (h : p.AtHead s rest) (h' : p.AtHead t rest')
      (hpoint : s.head? = some '.' ↔ t.head? = some '.')
      (hk : SameLexed (Blank.skip rest) (Blank.skip rest')) : SameLexed s t

namespace Comparison

open ShaderMinifier.Parser

/-- Two runs on texts with the same lexemes (`SameLexed`). Neither may give up alone, so nothing is
`Excused`. -/
def sameLexed : Comparison where
  Alike := SameLexed
  Excused _ := False

theorem lexical_sameLexed : sameLexed.Lexical where
  wordHead := by
    intro s t hst
    cases hst with
    | nil => exact .inl ⟨rfl, rfl⟩
    | @cons p _ _ rest rest' h h' _ hk =>
      rw [h.wordAtHead?, h'.wordAtHead?]
      cases p.word? with
      | none => exact .inl ⟨rfl, rfl⟩
      | some w => exact .inr ⟨w, rest, rest', rfl, rfl, hk⟩
  symbolHead := by
    intro s t hst
    cases hst with
    | nil => exact .inl (.inl ⟨rfl, rfl⟩)
    | @cons p _ _ rest rest' h h' hpoint hk =>
      cases p with
      | token text =>
        rw [h.symbolAtHead?, h'.symbolAtHead?]
        cases (Piece.token text).symbol? with
        | none => exact .inl (.inl ⟨rfl, rfl⟩)
        | some t => exact .inl (.inr ⟨t, rest, rest', rfl, rfl, hk⟩)
      | number text =>
        rcases h.symbolAtHead?_number with ⟨hs, hnone⟩ | ⟨hs, hbare⟩
        · rcases h'.symbolAtHead?_number with ⟨-, hnone'⟩ | ⟨ht, -⟩
          · exact .inl (.inl ⟨hnone, hnone'⟩)
          · exact absurd (hpoint.2 ht) hs
        · rcases h'.symbolAtHead?_number with ⟨ht, -⟩ | ⟨-, hbare'⟩
          · exact absurd (hpoint.1 hs) ht
          · exact .inr ⟨hbare, hbare'⟩
      | line text => cases h
  float := by
    intro s t hst
    cases hst with
    | nil => exact .mismatch _ _
    | @cons p _ _ rest rest' h h' _ hk =>
      cases p with
      | token text =>
        obtain ⟨place, hs⟩ := h.lexemeAtHead_token
        obtain ⟨place', ht⟩ := h'.lexemeAtHead_token
        simp only [floatLiteral, hs, ht]
        exact .mismatch _ _
      | number text =>
        rcases h.number_cases with ⟨hno, hs⟩ | ⟨hall, ⟨fault, hs⟩, -⟩
        · rcases h'.number_cases with ⟨-, ht⟩ | ⟨hall, -⟩
          · rw [hs, ht]
            exact .matched _ hk
          · rw [hno] at hall
            cases hall
        · rcases h'.number_cases with ⟨hno, -⟩ | ⟨-, ⟨fault', ht⟩, -⟩
          · rw [hno] at hall
            cases hall
          · rw [hs, ht]
            exact .mismatch _ _
      | line text => cases h
  int := by
    intro s t fault hst hfloat
    cases hst with
    | nil => exact .mismatch _ _
    | @cons p _ _ rest rest' h h' _ hk =>
      cases p with
      | token text =>
        simp only [intLiteral, h.integerAtHead_token, h'.integerAtHead_token]
        exact .mismatch _ _
      | number text =>
        rcases h.number_cases with ⟨-, hs⟩ | ⟨hall, -, hs⟩
        · rw [hfloat] at hs
          cases hs
        · rcases h'.number_cases with ⟨hno, -⟩ | ⟨-, -, ht⟩
          · rw [hno] at hall
            cases hall
          · rw [hs, ht]
            exact .matched _ hk
      | line text => cases h
  hash := by
    intro s t hst
    cases hst with
    | nil => exact Iff.rfl
    | cons h h' => exact iff_of_false h.head_ne_hash h'.head_ne_hash

end Comparison

theorem Expr.parse_of_sameLexed {first second : String} {e : Expr}
    (hsame : SameLexed (Blank.skip first.toList) (Blank.skip second.toList))
    (h : Expr.parse first = .ok e) : Expr.parse second = .ok e := by
  have hreply := Comparison.follows_expression Comparison.lexical_sameLexed
    (.inl (rfl : Parser.maxNesting = Parser.maxNesting)) _ _ hsame
  have hread : Parser.expression Parser.maxNesting (Blank.skip first.toList) = .matched e [] :=
    Parser.run_eq_ok.1 h
  rw [hread] at hreply
  refine Parser.run_eq_ok.2 ?_
  show Parser.expression Parser.maxNesting (Blank.skip second.toList) = .matched e []
  generalize Parser.expression Parser.maxNesting (Blank.skip second.toList) = reply at hreply ⊢
  cases hreply with
  | matched _ hrest =>
    cases hrest with
    | nil => rfl
    | cons hp => exact absurd rfl hp.ne_nil

end ShaderMinifier
