import ShaderMinifier.Proofs.RoundTrip
import ShaderMinifier.Proofs.Statement.Compare

/-
  What happens to an expression that is nested too deeply. A parser with less room follows the one
  with more, up to giving up for want of room (`lessRoom`): a failure is passed on by everything
  around it, so the other parts of the text have no say. With enough room every well-formed
  expression is read back from its text; so with the room that there is, it is read back or its
  nesting is too deep, and which of the two it is depends on its depth alone
  (`parse_emit_wellFormed`).
-/

namespace ShaderMinifier

namespace Comparison

open ShaderMinifier.Parser

/-- The `Comparison` of two runs on one input, of which the first may have less room: it may fail
with `tooDeep` and otherwise does the same. -/
def lessRoom : Comparison where
  Alike s t := s = t
  Excused cause := cause = .tooDeep

theorem lessRoom_follows {α : Type} (p : Parser α) : lessRoom.Follows p p := by
  rintro s _ rfl
  cases p s with
  | matched v rest => exact .matched v rfl
  | mismatch => exact .mismatch _ _
  | failure => exact .failure _ _

theorem lessRoom_sameHead (head : Option (String × List Char)) : lessRoom.SameHead head head := by
  cases head with
  | none => exact .inl ⟨rfl, rfl⟩
  | some head => exact .inr ⟨head.1, head.2, head.2, rfl, rfl, rfl⟩

theorem lexical_lessRoom : lessRoom.Lexical where
  wordHead := by
    rintro s _ rfl
    exact lessRoom_sameHead _
  symbolHead := by
    rintro s _ rfl
    exact .inl (lessRoom_sameHead _)
  float := lessRoom_follows _
  int := by
    rintro s _ _ rfl -
    exact lessRoom_follows _ s s rfl
  hash := by
    rintro s _ rfl
    exact Iff.rfl

theorem lessRoom_matched {α : Type} {p q : Parser α} (h : lessRoom.Follows p q)
    {input rest : List Char} {v : α} (hq : q input = .matched v rest) :
    p input = .matched v rest ∨ ∃ place, p input = .failure ⟨place, .tooDeep⟩ := by
  have hreply := h input input rfl
  rw [hq] at hreply
  generalize p input = reply at hreply ⊢
  cases hreply with
  | matched _ hrest => exact .inl (by rw [show _ = rest from hrest])
  | @excused fault hcause => exact .inr ⟨fault.rest, by rw [← show fault.cause = _ from hcause]⟩

end Comparison

/-! ## Writing any expression and reading it back -/

theorem FloatLiteral.proper_iff {f : FloatLiteral} :
    f.Proper ↔ ∃ lexeme, Lexeme lexeme ∧ f = ofText (String.ofList lexeme) := by
  constructor
  · intro h
    exact ⟨f.text.toList, h.lexeme, by rw [String.ofList_toList, h.fixed]⟩
  · rintro ⟨lexeme, h, rfl⟩
    exact h.proper

namespace Expr

open ShaderMinifier.Parser

theorem expression_emit {e : Expr} (h : e.WellFormed) {room : Nat}
    (hroom : e.enclosedDepth ≤ room) :
    (do blank; expression room : Parser Expr) e.emit.toList = .matched e [] := by
  have hclean : Piece.Clean (e.pieces ++ []) := clean_pieces h [] Piece.Clean.nil Piece.behind_nil
  have hread := (readable h).expression room hroom [] hclean Stops.nil
  rw [List.append_nil] at hclean hread
  rw [emit, layout_toList, bind_of_matched (blank_spell hclean)]
  exact hread

/-- A `WellFormed` expression is read back from its text by `Expr.parse`, unless its `enclosedDepth`
is more than `maxNesting`; then reading fails for that reason. -/
theorem parse_emit_wellFormed {e : Expr} (h : e.WellFormed) :
    (e.enclosedDepth ≤ maxNesting ∧ Expr.parse e.emit = .ok e) ∨
      (maxNesting < e.enclosedDepth ∧ ∃ error, Expr.parse e.emit = .error error ∧
        error.message = "nesting is too deep") := by
  by_cases hroom : e.enclosedDepth ≤ maxNesting
  · exact .inl ⟨hroom, run_eq_ok.2 (expression_emit h hroom)⟩
  · have hfollows : Comparison.lessRoom.Follows (do blank; expression maxNesting : Parser Expr)
        (do blank; expression e.enclosedDepth) :=
      (Comparison.lessRoom_follows blank).bind fun _ =>
        Comparison.follows_expression Comparison.lexical_lessRoom (.inr ⟨by omega, rfl⟩)
    -- with the room that it needs it would be read
    rcases Comparison.lessRoom_matched hfollows (expression_emit h le_rfl) with
      hread | ⟨place, hread⟩
    · obtain ⟨_, _, -, hmatched⟩ := matched_bind.1 hread
      exact absurd (yields_expression maxNesting _ _ _ hmatched).2 hroom
    · exact .inr ⟨by omega, _, by rw [Expr.parse, run, hread], rfl⟩

/-- Signs in a row, a step of a step, a field behind a number, and a sequence as an index, in one
expression that `parse_emit_wellFormed` applies to. -/
theorem parse_emit_wellFormed_signs :
    ∃ e : Expr, e.WellFormed ∧ e.emit = "- -x+(x++)++-1.5e2 .y[a?b:c,d=-1]" ∧
      Expr.parse e.emit = .ok e := by
  have hlexeme : FloatLiteral.lexemeAtHead "01.50E+2".toList = .ok ("01.50E+2".toList, []) := rfl
  have hnumber : (FloatLiteral.ofText "01.50E+2").Proper :=
    FloatLiteral.proper_iff.2 ⟨_, FloatLiteral.lexeme_of_lexemeAtHead hlexeme, rfl⟩
  have hwf : WellFormed (.binary .sub
      (.binary .add (.unary .minus (.unary .minus (.identifier "x")))
        (.step .increment (.step .increment (.identifier "x"))))
      (.index (.field (.float (.ofText "01.50E+2")) "y")
        (.sequence [.ternary (.identifier "a") (.identifier "b") (.identifier "c"),
          .assign .set (.identifier "d") (.unary .minus (.int 1))]))) := by
    simp only [WellFormed, AllWellFormed]
    exact ⟨⟨by decide, by decide⟩, ⟨by decide, hnumber⟩, by decide,
      ⟨by decide, by decide, by decide⟩, ⟨by decide, by decide, trivial⟩, trivial⟩
  have hread := (parse_emit_wellFormed hwf).resolve_right fun h => absurd h.1 (by decide)
  exact ⟨_, hwf, rfl, hread.2⟩

end Expr

end ShaderMinifier
