import ShaderMinifier.FloatLiteral
import ShaderMinifier.Operator

/-
  Expressions. A tree may hold what no source text gives, such as an empty sequence; the writer
  and the traversals are total on all of them.
-/

namespace ShaderMinifier

/-- An expression. Brackets are not kept: `Expr.pieces` writes those that the tree needs. -/
inductive Expr where
  /-- A variable, or any other name used as a value; `Word.isReserved` names do not come here from a
  text. -/
  | identifier (name : String)
  /-- An integer constant. Its radix is not kept, and `Expr.pieces` writes it in decimal. -/
  | int (value : UInt64)
  | float (value : FloatLiteral)
  | bool (value : Bool)
  | unary (op : UnaryOp) (operand : Expr)
  /-- An increment or decrement written after its operand; the ones before it are `unary`. -/
  | step (op : StepOp) (operand : Expr)
  | binary (op : BinaryOp) (left right : Expr)
  | assign (op : AssignOp) (left right : Expr)
  | ternary (condition whenTrue whenFalse : Expr)
  | index (base position : Expr)
  /-- A member of a struct, or components of a vector. The `name` is not looked up anywhere and is
  never renamed. -/
  | field (base : Expr) (name : String)
  /-- A call of a function, or a value built by a type's constructor. `Word.isBuiltinType` tells
  them apart where it matters. -/
  | call (callee : String) (args : List Expr)
  /-- Expressions evaluated from left to right, separated by commas. `Parser.expressionOf` builds it
  only for two items or more. -/
  | sequence (items : List Expr)

namespace Expr

/-- How tightly the outermost operator binds, which `slotted` compares with what the operand's place
asks for. -/
def precedence : Expr → Precedence
  | identifier _ | int _ | float _ | bool _ | call _ _ => .primary
  | step _ _ | index _ _ | field _ _ => .suffixed
  | unary _ _ => .unary
  | binary op _ _ => op.precedence
  | ternary _ _ _ => .conditional
  | assign _ _ _ => .assignment
  | sequence _ => .sequence

/-- Whether the expression is a `step`. Two of them in a row are not read, so `stepped` brackets the
inner one. -/
def isStep : Expr → Bool
  | step _ _ => true
  | _ => false

end Expr

end ShaderMinifier
