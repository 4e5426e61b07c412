import ShaderMinifier.Expr.Basic
import ShaderMinifier.Layout

/-
  Writing expressions. An operand is parenthesized exactly when it binds looser than its place
  asks; a step behind a step is too, since two steps in a row are not read.
-/

namespace ShaderMinifier

namespace Expr

/-- The pieces of `operand`, given as `inner`, in brackets where it binds looser than `least`. -/
def slotted (least : Precedence) (operand : Expr) (inner : List Piece) : List Piece :=
  if operand.precedence < least then Piece.parenthesized inner else inner

/-- The pieces of the operand of a step: as `slotted` has them, but another step is bracketed too,
since two in a row are not read. -/
def stepped (operand : Expr) (inner : List Piece) : List Piece :=
  if operand.isStep then Piece.parenthesized inner else operand.slotted .suffixed inner

mutual

/-- The pieces of an expression with exactly the brackets that the levels of `Operator` ask for. The
right operand of a binary operator has to bind tighter than it, the left one only as tight. -/
def pieces : Expr → List Piece
  | identifier name => [.token name]
  | int value => [.number (String.ofList (Nat.toDigits 10 value.toNat))]
  | float value => [.number value.text]
  | bool value => [.token (if value then "true" else "false")]
  | unary op operand => .token op.token :: slotted .unary operand (pieces operand)
  | step op operand => stepped operand (pieces operand) ++ [.token op.token]
  | binary op left right =>
    slotted op.precedence left (pieces left) ++ .token op.token ::
      slotted op.precedence.tighter right (pieces right)
  | assign op left right =>
    slotted .unary left (pieces left) ++ .token op.token ::
      slotted .assignment right (pieces right)
  | ternary condition whenTrue whenFalse =>
    slotted .logicalOr condition (pieces condition) ++ .token "?" :: pieces whenTrue ++
      .token ":" :: slotted .assignment whenFalse (pieces whenFalse)
  | index base position =>
    slotted .suffixed base (pieces base) ++ .token "[" :: pieces position ++ [.token "]"]
  | field base name => slotted .suffixed base (pieces base) ++ [.token ".", .token name]
  | call callee args =>
    .token callee :: Piece.parenthesized (Piece.commaSeparated (itemPieces args))
  | sequence items => Piece.commaSeparated (itemPieces items)

/-- The pieces of each item of a list that commas separate, the arguments of a call or a `sequence`.
An item that is a sequence itself is bracketed. -/
def itemPieces : List Expr → List (List Piece)
  | [] => []
  | item :: items => slotted .assignment item (pieces item) :: itemPieces items

end

/-- The pieces of an expression at a place that asks for a level of binding, as declarations and
statements write theirs. -/
def piecesAt (least : Precedence) (operand : Expr) : List Piece :=
  slotted least operand (pieces operand)

/-- The canonical text of an expression: its `pieces` in the `layout` that adds no more blanks than
the lexemes need. -/
def emit (e : Expr) : String := layout e.pieces

end Expr

end ShaderMinifier
