import ShaderMinifier.Proofs.Grammar.Progress

/-
  The lexemes of an input, as the layout would write them. A piece stands at the head of an input
  if the lexer finds it there, whatever its spelling: a floating point literal counts as its
  canonical spelling and an integer as its decimal one (`Piece.AtHead`). An input is `Lexed` as
  pieces and a rest if these stand at its head one after the other, each behind the blanks that
  follow the one before.
-/

namespace ShaderMinifier

/-- The lexer finds the piece `p` at the head of the input, and the rest behind it. Numbers are
pieces in the spelling that `Expr.pieces` gives them. -/
inductive Piece.AtHead : Piece → List Char → List Char → Prop
  | word {w : String} {input rest : List Char} (h : Word.atHead? input = some (w, rest)) :
    AtHead (.token w) input rest
  /-- The point of a number is no lexeme of its own, hence no `lexemeAtHead` may match. -/
  | symbol {t : String} {input rest : List Char} (h : Symbol.atHead? input = some (t, rest))
      (hfloat : ∃ place, FloatLiteral.lexemeAtHead input = .error place) :
    AtHead (.token t) input rest
  | float {lexeme input rest : List Char}
      (h : FloatLiteral.lexemeAtHead input = .ok (lexeme, rest)) :
    AtHead (.number (FloatLiteral.ofText (String.ofList lexeme)).text) input rest
  /-- An integer is looked for only where `lexemeAtHead` finds no floating point literal. -/
  | int {value : UInt64} {input rest : List Char}
      (hfloat : ∃ place, FloatLiteral.lexemeAtHead input = .error place)
      (h : Integer.atHead? input = some (value, rest))
      (hend : ∀ c ∈ rest.head?, Word.isPart c = false) :
    AtHead (.number (String.ofList (Nat.toDigits 10 value.toNat))) input rest

/-- The pieces stand at the head of the input one after the other (`AtHead`) with blanks between
them, and the rest behind them. -/
inductive Lexed : List Char → List Piece → List Char → Prop
  | nil {input : List Char} : Lexed input [] input
  | cons {p : Piece} {k : List Piece} {input rest last : List Char} (h : p.AtHead input rest)
      (hk : Lexed (Blank.skip rest) k last) : Lexed input (p :: k) last

namespace Lexed

variable {input mid rest : List Char} {k l : List Piece} {p : Piece}

theorem one (h : p.AtHead input rest) : Lexed input [p] (Blank.skip rest) := .cons h .nil

theorem append (h : Lexed input k mid) (h' : Lexed mid l rest) : Lexed input (k ++ l) rest := by
  induction h with
  | nil => exact h'
  | cons hp _ ih => exact .cons hp (ih h')

end Lexed

/-! ## What an input with a piece at its head looks like -/

theorem Word.atHead?_eq {input rest : List Char} {w : String}
    (h : Word.atHead? input = some (w, rest)) : input = w.toList ++ rest := by
  cases input with
  | nil => cases h
  | cons c input =>
    simp only [Word.atHead?] at h
    split at h
    · obtain ⟨rfl, rfl⟩ := Prod.mk.inj (Option.some.inj h)
      simp
    · cases h

theorem Symbol.atHead?_eq {input rest : List Char} {t : String}
    (h : Symbol.atHead? input = some (t, rest)) : t ∈ Symbol.all ∧ input = t.toList ++ rest := by
  obtain ⟨s, hs, hmap⟩ := List.exists_of_findSome?_eq_some h
  obtain ⟨tail, htail, heq⟩ := Option.map_eq_some_iff.1 hmap
  obtain ⟨rfl, rfl⟩ := Prod.mk.inj heq
  exact ⟨hs, Symbol.after?_eq_some htail⟩

/-- Only the point can be the start of a symbol and of a number, so `lexemeAtHead` does not match at
another symbol. -/
theorem Symbol.lexemeAtHead_error {input rest : List Char} {t : String}
    (h : Symbol.atHead? input = some (t, rest)) (ht : t ≠ ".") :
    ∃ place, FloatLiteral.lexemeAtHead input = .error place := by
  obtain ⟨hmem, rfl⟩ := Symbol.atHead?_eq h
  have hhead : ∀ s ∈ Symbol.all, s ≠ "." → s.toList.head?.any
      (fun c => !c.isDigit && c != '.') = true := by decide
  have hc := hhead t hmem ht
  cases hlist : t.toList with
  | nil => simp [hlist] at hc
  | cons c cs =>
    refine ⟨_, FloatLiteral.lexemeAtHead_absent fun d hd => ?_⟩
    obtain rfl : c = d := by simpa using hd
    simpa [hlist] using hc

theorem Symbol.lexemeAtHead_point {input rest : List Char}
    (h : Symbol.atHead? input = some (".", rest)) {w : String} {tail : List Char}
    (hw : Word.atHead? (Blank.skip rest) = some (w, tail)) :
    ∃ place, FloatLiteral.lexemeAtHead input = .error place := by
  obtain ⟨-, rfl⟩ := Symbol.atHead?_eq h
  refine ⟨rest, FloatLiteral.lexemeAtHead_point fun c hc => ?_⟩
  rw [← Bool.not_eq_true]
  intro hd
  obtain ⟨cs, rfl⟩ : ∃ cs, rest = c :: cs := by
    cases rest with
    | nil => cases hc
    | cons d cs => exact ⟨cs, by rw [show d = c by simpa using hc]⟩
  rw [Blank.skip_of_after?_eq_none (after?_digit hd cs),
    wordAtHead_eq_none (Word.isStart_eq_false_of_isDigit hd)] at hw
  cases hw

end ShaderMinifier
