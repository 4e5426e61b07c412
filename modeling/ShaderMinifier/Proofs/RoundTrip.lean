import ShaderMinifier.Proofs.Item.Parsed
import ShaderMinifier.Proofs.Item.Reading
import ShaderMinifier.Tree

/-
  Writing a tree and reading it back. A tree that was read from an entry point fits into the
  nesting that is allowed there (`fits_of_parse`), and a tree that fits is read back from its own
  text (`parse_emit_of_fits`), if no text on a directive's line ends in a backslash. So the text
  of a tree that was read is read as the same tree (`parse_emit_of_parse`), however its source was
  written.
-/

namespace ShaderMinifier

open ShaderMinifier.Parser

/-- Written pieces start with a lexeme, so `blank` takes nothing. -/
theorem Parser.blank_spell {k : List Piece} (hk : Piece.Clean k) :
    blank (spell k) = .matched () (spell k) := by
  rw [blank, skip_spell hk]

theorem Shader.parse_layout {s : Shader} {stage : Stage}
    (h : Item.AllFit stage s.items maxNesting) (hlines : ∀ e ∈ s.events, e.EndsLine) :
    Shader.parse (layout s.pieces) stage = .ok s := by
  rw [Shader.parse, run_eq_ok, layout_toList]
  exact shader_spell h hlines

theorem Expr.parse_layout {e : Expr} (h : e.FitsEnclosed maxNesting) :
    Expr.parse (layout e.pieces) = .ok e := by
  have hclean : Piece.Clean (e.pieces ++ []) :=
    Expr.clean_pieces h.1 [] Piece.Clean.nil Piece.behind_nil
  have hread := (Expr.readable h.1).expression maxNesting h.2 [] hclean Stops.nil
  rw [List.append_nil] at hclean hread
  rw [Expr.parse, run_eq_ok, layout_toList, bind_of_matched (blank_spell hclean)]
  exact hread

theorem Statement.parse_layout {s : Statement} (h : s.Fits maxNesting) :
    Statement.parse (layout s.pieces) = .ok s := by
  have hclean : Piece.Clean (s.pieces ++ []) := Statement.closed_pieces h [] Piece.Clean.nil
  have hend : Closes s [] := by simp [Closes, headWord?]
  have hread := statement_reads h [] hclean hend
  rw [List.append_nil] at hclean hread
  rw [Statement.parse, run_eq_ok, layout_toList, bind_of_matched (blank_spell hclean)]
  exact hread

namespace Tree

/-- The texts that stand on the lines of directives, conditions among them (`directiveText`). -/
def directiveTexts : Tree → List String
  | shader value => value.events.filterMap Event.directiveText
  | statement _ | expression _ => []

/-- The tree is one that this entry point can give, with `maxNesting` levels of room. -/
def Fits : StartRule → Tree → Prop
  | .shader stage, shader value => Item.AllFit stage value.items maxNesting
  | .condition, expression value => value.FitsEnclosed maxNesting
  | .statement, statement value => value.Fits maxNesting
  | _, _ => False

theorem map_eq_ok {α : Type} {f : α → Tree} {result : Except SyntaxError α} {tree : Tree} :
    f <$> result = .ok tree ↔ ∃ v, result = .ok v ∧ f v = tree := by
  cases result with
  | error e => exact ⟨by simp, by simp⟩
  | ok v =>
    constructor
    · intro h
      exact ⟨v, rfl, Except.ok.inj h⟩
    · rintro ⟨w, h, rfl⟩
      cases h
      rfl

theorem fits_of_parse {source : String} {rule : StartRule} {tree : Tree}
    (h : parse source rule = .ok tree) : tree.Fits rule := by
  cases rule with
  | shader stage =>
    obtain ⟨s, hs, rfl⟩ := map_eq_ok.1 h
    exact yields_shader _ _ _ (run_eq_ok.1 hs)
  | condition =>
    obtain ⟨e, he, rfl⟩ := map_eq_ok.1 h
    obtain ⟨_, _, -, hread⟩ := matched_bind.1 (run_eq_ok.1 he)
    exact yields_expression maxNesting _ _ _ hread
  | statement =>
    obtain ⟨s, hs, rfl⟩ := map_eq_ok.1 h
    obtain ⟨_, _, -, hread⟩ := matched_bind.1 (run_eq_ok.1 hs)
    exact (yieldsStatement_statement maxNesting _ _ _ hread).1

/-- A tree that `Fits` is read back from its text, if no directive's text keeps its line going. -/
theorem parse_emit_of_fits {rule : StartRule} {tree : Tree} (h : tree.Fits rule)
    (hlines : ∀ text ∈ tree.directiveTexts, text.toList.getLast? ≠ some '\\') :
    parse tree.emit rule = .ok tree := by
  cases rule with
  | shader stage =>
    cases tree with
    | shader s =>
      have hends : ∀ e ∈ s.events, e.EndsLine :=
        fun e he text ht => hlines text (List.mem_filterMap.2 ⟨e, he, ht⟩)
      exact map_eq_ok.2 ⟨s, Shader.parse_layout h hends, rfl⟩
    | statement s => exact False.elim h
    | expression e => exact False.elim h
  | condition =>
    cases tree with
    | expression e => exact map_eq_ok.2 ⟨e, Expr.parse_layout h, rfl⟩
    | shader s => exact False.elim h
    | statement s => exact False.elim h
  | statement =>
    cases tree with
    | statement s => exact map_eq_ok.2 ⟨s, Statement.parse_layout h, rfl⟩
    | shader s => exact False.elim h
    | expression e => exact False.elim h

/-- The text that `emit` writes for a tree that was read is read as that tree, if no directive's
text keeps its line going. -/
theorem parse_emit_of_parse {source : String} {rule : StartRule} {tree : Tree}
    (hparse : parse source rule = .ok tree)
    (hlines : ∀ text ∈ tree.directiveTexts, text.toList.getLast? ≠ some '\\') :
    parse tree.emit rule = .ok tree :=
  parse_emit_of_fits (fits_of_parse hparse) hlines

/-- A shader with branches, brackets and a comment, for `parse_emit_of_parse`. -/
theorem parse_emit_of_parse_branches :
    ∃ tree, parse "#if  A \n void main() \x7b a = (b + c) * 2; \x7d // end\n#elif B\nint x;\n#endif"
        (.shader .vertex) = .ok tree ∧
      tree.directiveTexts = ["A", "B"] ∧ parse tree.emit (.shader .vertex) = .ok tree := by
  have hparse : parse
      "#if  A \n void main() \x7b a = (b + c) * 2; \x7d // end\n#elif B\nint x;\n#endif"
      (.shader .vertex) = .ok (shader ⟨[.conditional .ifTrue "A"
        [.function ⟨⟨none, none, .named "void"⟩, "main", []⟩
          [.simple (.expression (some (.assign .set (.identifier "a") (.binary .mul
            (.binary .add (.identifier "b") (.identifier "c")) (.int 2)))))]]
        (.elif "B" [.declaration ⟨⟨none, none, .named "int"⟩, [⟨"x", none, none⟩]⟩] .done)]⟩) :=
    by decide +kernel
  exact ⟨_, hparse, rfl, parse_emit_of_parse hparse (by decide)⟩

end Tree

end ShaderMinifier
