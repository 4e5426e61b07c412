import ShaderMinifier.Proofs.Declaration.Shape
import ShaderMinifier.Statement.Parser
import ShaderMinifier.Statement.Printer

/-
  Which statements a text can give, with the room that is needed to read them, and that their
  pieces are clean. A statement that ends in an `if` without `else` cannot stand before an `else`.
-/

namespace ShaderMinifier

open Piece

/-- The expression is `WellFormed` and fits where commas are allowed (`enclosedDepth`). -/
def Expr.FitsEnclosed (room : Nat) (e : Expr) : Prop := e.WellFormed ∧ e.enclosedDepth ≤ room

def SimpleStatement.Fits (room : Nat) : SimpleStatement → Prop
  | declaration decl => decl.Fits room .vertex .inBody
  | expression value => ∀ e ∈ value, e.FitsEnclosed room

namespace Statement

/-- Induction on statements with one hypothesis for each statement of a block, the form in which all
proofs about `Statement` go. -/
@[elab_as_elim, induction_eliminator]
theorem inductionOn {motive : Statement → Prop}
    (block : ∀ body, (∀ s ∈ body, motive s) → motive (.block body))
    (simple : ∀ stmt, motive (.simple stmt))
    (ifThen : ∀ condition body, motive body → motive (.ifThen condition body))
    (ifElse : ∀ condition whenTrue whenFalse, motive whenTrue → motive whenFalse →
      motive (.ifElse condition whenTrue whenFalse))
    (whileLoop : ∀ condition body, motive body → motive (.whileLoop condition body))
    (doWhile : ∀ body condition, motive body → motive (.doWhile body condition))
    (forLoop : ∀ init condition step body, motive body →
      motive (.forLoop init condition step body))
    (continueLoop : motive .continueLoop) (breakLoop : motive .breakLoop)
    (returnValue : ∀ value, motive (.returnValue value)) (discard : motive .discard)
    (s : Statement) : motive s := by
  refine @Statement.rec motive (fun body => ∀ s ∈ body, motive s) block simple ifThen ifElse
    whileLoop doWhile forLoop continueLoop breakLoop returnValue discard (by simp) ?_ s
  intro x xs hx hxs y hy
  rcases List.mem_cons.1 hy with rfl | hy
  · exact hx
  · exact hxs y hy

/-- The statement ends in an `if` that an `else` behind it would belong to. No such statement is the
first branch of an `ifElse` that was read. -/
def endsOpen : Statement → Bool
  | ifThen _ _ => true
  | ifElse _ _ whenFalse => whenFalse.endsOpen
  | whileLoop _ body => body.endsOpen
  | forLoop _ _ _ body => body.endsOpen
  | block _ | simple _ | doWhile _ _ | continueLoop | breakLoop | returnValue _ | discard => false

mutual

/-- The statement can be read with this room: its parts fit one level less, and no first branch of
an `ifElse` is open (`endsOpen`). -/
def Fits : Statement → Nat → Prop
  | block body, room => 0 < room ∧ AllFit body (room - 1)
  | simple stmt, room => 0 < room ∧ stmt.Fits (room - 1)
  | ifThen condition body, room =>
    0 < room ∧ condition.FitsEnclosed (room - 1) ∧ body.Fits (room - 1)
  | ifElse condition whenTrue whenFalse, room =>
    0 < room ∧ condition.FitsEnclosed (room - 1) ∧ whenTrue.Fits (room - 1) ∧
      whenTrue.endsOpen = false ∧ whenFalse.Fits (room - 1)
  | whileLoop condition body, room =>
    0 < room ∧ condition.FitsEnclosed (room - 1) ∧ body.Fits (room - 1)
  | doWhile body condition, room =>
    0 < room ∧ condition.FitsEnclosed (room - 1) ∧ body.Fits (room - 1)
  | forLoop init condition step body, room =>
    0 < room ∧ init.Fits (room - 1) ∧ (∀ e ∈ condition, e.FitsEnclosed (room - 1)) ∧
      (∀ e ∈ step, e.FitsEnclosed (room - 1)) ∧ body.Fits (room - 1)
  | continueLoop, room | breakLoop, room | discard, room => 0 < room
  | returnValue value, room => 0 < room ∧ ∀ e ∈ value, e.FitsEnclosed (room - 1)

/-- All the statements of a list can be read with this room (`Fits`). -/
def AllFit : List Statement → Nat → Prop
  | [], _ => True
  | stmt :: body, room => stmt.Fits room ∧ AllFit body room

end

theorem allFit_iff {body : List Statement} {room : Nat} :
    AllFit body room ↔ ∀ s ∈ body, s.Fits room := by
  induction body with
  | nil => simp [AllFit]
  | cons s body ih => simp [AllFit, ih]

theorem Fits.pos {s : Statement} {room : Nat} (h : s.Fits room) : 0 < room := by
  cases s <;> first | exact h.1 | exact h

theorem listPieces_eq_flatMap (body : List Statement) :
    listPieces body = body.flatMap pieces := by
  induction body with
  | nil => rfl
  | cons s body ih => rw [listPieces, ih, List.flatMap_cons]

end Statement

/-! ## Clean pieces -/

theorem Expr.closed_parenthesized {room : Nat} {e : Expr} (h : e.FitsEnclosed room) :
    ClosedPieces (Piece.parenthesized e.pieces) := by
  rw [Piece.parenthesized, List.cons_append]
  exact ClosedPieces.firm (by decide) (ClosedPieces.ofClean (Expr.clean_pieces h.1) (by decide)
    (ClosedPieces.firm (by decide) ClosedPieces.nil))

/-- An expression that may be missing, with the `firm` symbol that ends it, is clean whatever stands
behind. -/
theorem Expr.closed_optionalPieces {room : Nat} {value : Option Expr}
    (h : ∀ e ∈ value, e.FitsEnclosed room) {t : String} (ht : t ∈ Symbol.firm) :
    ClosedPieces (Expr.optionalPieces value ++ [Piece.token t]) := by
  refine ClosedPieces.ofClean ?_ (Symbol.mem_of_firm t ht)
    (ClosedPieces.firm ht ClosedPieces.nil)
  cases value with
  | none => exact ClosedPieces.nil.cleanPieces
  | some e => exact Expr.clean_pieces (h e rfl).1

theorem SimpleStatement.closed_pieces {room : Nat} {s : SimpleStatement}
    (h : s.Fits room) : ClosedPieces s.pieces := by
  cases s with
  | declaration decl => exact Declaration.closed_pieces h
  | expression value => exact Expr.closed_optionalPieces h (by decide)

namespace Statement

theorem closed_pieces {s : Statement} {room : Nat} (h : s.Fits room) : ClosedPieces s.pieces := by
  induction s generalizing room with
  | block body ih =>
    have hall := allFit_iff.1 h.2
    rw [pieces, listPieces_eq_flatMap]
    exact ClosedPieces.firm (by decide)
      ((ClosedPieces.flatMap fun s hs => ih s hs (hall s hs)).append
      (ClosedPieces.firm (by decide) ClosedPieces.nil))
  | simple stmt => exact SimpleStatement.closed_pieces h.2
  | ifThen condition body ih =>
    exact ClosedPieces.word (by decide) ((Expr.closed_parenthesized h.2.1).append (ih h.2.2))
  | ifElse condition whenTrue whenFalse iht ihf =>
    rw [pieces]
    exact ClosedPieces.word (by decide)
      (((Expr.closed_parenthesized h.2.1).append (iht h.2.2.1)).append
      (ClosedPieces.word (by decide) (ihf h.2.2.2.2)))
  | whileLoop condition body ih =>
    exact ClosedPieces.word (by decide) ((Expr.closed_parenthesized h.2.1).append (ih h.2.2))
  | doWhile body condition ih =>
    rw [pieces]
    exact ClosedPieces.word (by decide) (((ih h.2.2).append (ClosedPieces.word (by decide)
      (Expr.closed_parenthesized h.2.1))).append (ClosedPieces.firm (by decide) ClosedPieces.nil))
  | forLoop init condition step body ih =>
    have hinit := SimpleStatement.closed_pieces h.2.1
    have hcondition := Expr.closed_optionalPieces (t := ";") h.2.2.1 (by decide)
    have hstep := Expr.closed_optionalPieces (t := ")") h.2.2.2.1 (by decide)
    have hall := ClosedPieces.word (w := "for") (by decide) (ClosedPieces.firm (t := "(")
      (by decide) (hinit.append (hcondition.append (hstep.append (ih h.2.2.2.2)))))
    simpa [pieces] using hall
  | continueLoop =>
    exact ClosedPieces.word (by decide) (ClosedPieces.firm (by decide) ClosedPieces.nil)
  | breakLoop =>
    exact ClosedPieces.word (by decide) (ClosedPieces.firm (by decide) ClosedPieces.nil)
  | returnValue value =>
    exact ClosedPieces.word (by decide) (Expr.closed_optionalPieces h.2 (by decide))
  | discard =>
    exact ClosedPieces.word (by decide) (ClosedPieces.firm (by decide) ClosedPieces.nil)

end Statement

end ShaderMinifier
