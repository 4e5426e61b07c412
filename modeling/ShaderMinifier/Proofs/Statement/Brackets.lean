import ShaderMinifier.Proofs.Declaration.Brackets
import ShaderMinifier.Proofs.Statement.Shape

/-
  The opening brackets that a statement is written with are all in its source, its declarations
  and its conditions included.
-/

namespace ShaderMinifier

open scoped List

namespace Parser

open Piece

variable {L : Ledger} {n room : Nat} {statement : Parser Statement}

theorem transcribes_expressionStatement (room : Nat) :
    Transcribes L [] (expressionStatement room) SimpleStatement.pieces := by
  refine (transcribes_symbol (by decide)).optional.bind fun mark => ?_
  cases mark with
  | some _ => exact .pure (List.Sublist.refl _)
  | none =>
    exact (transcribes_expression room).bind fun value =>
      ((transcribes_symbol (by decide)).commit.behind _).bind fun _ =>
        .pure (List.Sublist.refl _)

theorem transcribes_simpleStatement (room : Nat) :
    Transcribes (.brackets n) [] (simpleStatement room) SimpleStatement.pieces := by
  refine (transcribes_localDeclaration room).optional.bind fun decl => ?_
  cases decl with
  | some d => exact .pure (List.Sublist.refl _)
  | none => exact transcribes_expressionStatement room

theorem transcribes_condition (room : Nat) :
    Transcribes L [] (condition room) fun e => parenthesized e.pieces :=
  (transcribes_symbol (by decide)).commit.bind fun _ =>
    ((transcribes_expression room).commit.behind _).bind fun e =>
      ((transcribes_symbol (by decide)).commit.behind _).bind fun _ =>
        .pure (List.Sublist.refl _)

theorem transcribes_expressionBefore (room : Nat) {closing : String}
    (hc : closing ≠ ".") :
    Transcribes L [] (expressionBefore room closing) fun v =>
      Expr.optionalPieces v ++ [.token closing] := by
  have hend : ∀ v : Option Expr, Transcribes L (Expr.optionalPieces v) (do
      commit (symbol closing)
      return v) fun v => Expr.optionalPieces v ++ [.token closing] := fun v =>
    ((transcribes_symbol hc).commit.behind _).bind fun _ => .pure (List.Sublist.refl _)
  refine Transcribes.lookingAt.bind fun missing => ?_
  dsimp only
  split
  · exact Transcribes.bind (f := Expr.optionalPieces) (.pure (List.Sublist.refl _)) hend
  · refine Transcribes.bind (f := Expr.optionalPieces) ?_ hend
    exact (transcribes_expression room).commit.bind fun e => .pure (List.Sublist.refl _)

theorem transcribes_blockOf (hs : Transcribes L [] statement Statement.pieces) :
    Transcribes L [] (blockOf statement) fun body => (Statement.block body).pieces := by
  have hround : Transcribes L [] (do
      if ← lookingAt (symbol "\x7d") then mismatch .unexpected
      else commit statement) Statement.pieces := by
    refine Transcribes.lookingAt.bind fun closing => ?_
    cases closing with
    | true => exact .mismatch _
    | false => exact hs.commit
  refine (transcribes_symbol (by decide)).bind fun _ => (hround.many _).bind fun body =>
    ((transcribes_symbol (by decide)).behind _).bind fun _ => .pure ?_
  rw [Statement.pieces, Statement.listPieces_eq_flatMap, List.singleton_append]

theorem transcribes_selectionOf (hs : Transcribes L [] statement Statement.pieces) :
    Transcribes L [] (selectionOf room statement) Statement.pieces := by
  refine (transcribes_keyword "if").bind fun _ => ((transcribes_condition room).behind _).bind
    fun test => (hs.commit.behind _).bind fun whenTrue =>
      ((transcribes_keyword "else").behind _).optional.bind fun mark => ?_
  cases mark with
  | none => exact .pure (List.Sublist.refl _)
  | some _ =>
    refine (hs.commit.behind _).bind fun whenFalse => .pure ?_
    simp [Statement.pieces]

theorem transcribes_whileLoopOf (hs : Transcribes L [] statement Statement.pieces) :
    Transcribes L [] (whileLoopOf room statement) Statement.pieces :=
  (transcribes_keyword "while").bind fun _ => ((transcribes_condition room).behind _).bind
    fun _ => (hs.commit.behind _).bind fun _ => .pure (List.Sublist.refl _)

theorem transcribes_doWhileOf (hs : Transcribes L [] statement Statement.pieces) :
    Transcribes L [] (doWhileOf room statement) Statement.pieces := by
  refine (transcribes_keyword "do").bind fun _ => (hs.commit.behind _).bind fun body =>
    ((transcribes_keyword "while").commit.behind _).bind fun _ =>
      ((transcribes_condition room).behind _).bind fun test =>
        ((transcribes_symbol (by decide)).commit.behind _).bind fun _ => .pure ?_
  simp [Statement.pieces]

theorem transcribes_forLoopOf
    (hs : Transcribes (.brackets n) [] statement Statement.pieces) :
    Transcribes (.brackets n) [] (forLoopOf room statement) Statement.pieces := by
  refine (transcribes_keyword "for").bind fun _ =>
    ((transcribes_symbol (by decide)).commit.behind _).bind fun _ =>
      ((transcribes_simpleStatement room).commit.behind _).bind fun init =>
        ((transcribes_expressionBefore room (by decide)).behind _).bind fun test =>
          ((transcribes_expressionBefore room (by decide)).behind _).bind fun step =>
            (hs.commit.behind _).bind fun body => .pure ?_
  simp [Statement.pieces]

theorem transcribes_jump {word : String} {s : Statement}
    (hs : s.pieces = [.token word, .token ";"]) :
    Transcribes L [] (jump word s) Statement.pieces := by
  refine (transcribes_keyword word).bind fun _ =>
    ((transcribes_symbol (by decide)).commit.behind _).bind fun _ => .pure ?_
  rw [hs]
  exact List.Sublist.refl _

theorem transcribes_returnStatement (room : Nat) :
    Transcribes L [] (returnStatement room) Statement.pieces :=
  (transcribes_keyword "return").bind fun _ =>
    ((transcribes_expressionBefore room (by decide)).behind _).bind fun _ =>
      .pure (List.Sublist.refl _)

theorem transcribes_statementOf
    (hs : Transcribes (.brackets n) [] statement Statement.pieces) :
    Transcribes (.brackets n) [] (statementOf room statement) Statement.pieces := by
  refine Transcribes.here.bind fun input => ?_
  split
  · exact .fail _
  · refine Transcribes.lookingAt.bind fun brace => ?_
    cases brace with
    | true => exact (transcribes_blockOf hs).bind fun _ => .pure (List.Sublist.refl _)
    | false =>
      refine Transcribes.nextWord.bind fun word => ?_
      split
      · exact transcribes_selectionOf hs
      · exact transcribes_whileLoopOf hs
      · exact transcribes_doWhileOf hs
      · exact transcribes_forLoopOf hs
      · exact transcribes_jump rfl
      · exact transcribes_jump rfl
      · exact transcribes_jump rfl
      · exact transcribes_returnStatement room
      · exact (transcribes_simpleStatement room).bind fun _ => .pure (List.Sublist.refl _)

theorem transcribes_statement (room : Nat) :
    Transcribes (.brackets n) [] (Parser.statement room) Statement.pieces := by
  induction room with
  | zero =>
    intro lead input s rest hin hm
    rw [Parser.statement] at hm
    cases hm
  | succ room ih =>
    intro lead input s rest hin hm
    rw [Parser.statement] at hm
    exact transcribes_statementOf ih _ _ _ _ hin hm

theorem transcribes_block (room : Nat) :
    Transcribes (.brackets n) [] (block room) fun body => (Statement.block body).pieces :=
  transcribes_blockOf (transcribes_statement room)

end Parser

end ShaderMinifier
