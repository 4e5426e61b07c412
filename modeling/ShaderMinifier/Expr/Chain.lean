import ShaderMinifier.Expr.Basic

/-
  From a flat chain of operands and binary operators to the tree that precedence and left
  association give it. Operands whose operator may still lose its right operand to a tighter one
  wait on a stack; the stack's operators bind tighter towards its top.
-/

namespace ShaderMinifier

namespace Expr

/-- Left operands that wait for their right operand, the latest first. Each is paired with the
operator behind it, and the `precedence` of the operators falls from the head on. -/
abbrev Pending : Type := List (Expr × BinaryOp)

/-- Gives `right` to the waiting operators that bind at least as tightly as `level`, and returns the
ones that go on waiting with the operand so built. -/
def settle (level : Precedence) : Pending → Expr → Pending × Expr
  | (left, op) :: pending, right =>
    if level ≤ op.precedence then settle level pending (.binary op left right)
    else ((left, op) :: pending, right)
  | [], right => ([], right)

/-- Gives `right` to all waiting operators, from the tightest on; the end of a chain, where `settle`
would have no level to stop at. -/
def settleAll : Pending → Expr → Expr
  | (left, op) :: pending, right => settleAll pending (.binary op left right)
  | [], right => right

/-- Goes on with a chain whose last operand so far is `current`. An operator first settles those
that bind at least as tightly, hence the association to the left. -/
def extendChain (pending : Pending) (current : Expr) : List (BinaryOp × Expr) → Expr
  | (op, next) :: others =>
    let settled := settle op.precedence pending current
    extendChain ((settled.2, op) :: settled.1) next others
  | [] => settleAll pending current

/-- The tree of a chain: `extendChain` from its first operand with nothing pending. -/
def ofChain (first : Expr) (others : List (BinaryOp × Expr)) : Expr := extendChain [] first others

end Expr

end ShaderMinifier
