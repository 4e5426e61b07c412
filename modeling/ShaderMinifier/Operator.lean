/-
  Operators and how tightly they bind. Reader and writer share the levels: an operand is written
  in parentheses exactly when it binds looser than its place asks.
-/

namespace ShaderMinifier

/-- How tightly an expression binds, from the loosest level to the tightest. `Parser.assignmentOf`
and `Expr.slotted` decide by the same levels. -/
inductive Precedence where
  | sequence
  | assignment
  | conditional
  | logicalOr
  | logicalXor
  | logicalAnd
  | bitOr
  | bitXor
  | bitAnd
  | equality
  | relational
  | shift
  | additive
  | multiplicative
  | unary
  | suffixed
  | primary
deriving DecidableEq

namespace Precedence

/-- The level's place in the order, counted from the loosest. `<` and `≤` on levels are those of
their ranks. -/
def rank : Precedence → Nat
  | sequence => 0
  | assignment => 1
  | conditional => 2
  | logicalOr => 3
  | logicalXor => 4
  | logicalAnd => 5
  | bitOr => 6
  | bitXor => 7
  | bitAnd => 8
  | equality => 9
  | relational => 10
  | shift => 11
  | additive => 12
  | multiplicative => 13
  | unary => 14
  | suffixed => 15
  | primary => 16

instance : LT Precedence := ⟨fun a b => a.rank < b.rank⟩

instance : LE Precedence := ⟨fun a b => a.rank ≤ b.rank⟩

instance (a b : Precedence) : Decidable (a < b) := inferInstanceAs (Decidable (a.rank < b.rank))

instance (a b : Precedence) : Decidable (a ≤ b) := inferInstanceAs (Decidable (a.rank ≤ b.rank))

/-- The next tighter level, which `Expr.pieces` asks of the right operand of a binary operator. The
tightest, `primary`, has none and stays. -/
def tighter : Precedence → Precedence
  | sequence => assignment
  | assignment => conditional
  | conditional => logicalOr
  | logicalOr => logicalXor
  | logicalXor => logicalAnd
  | logicalAnd => bitOr
  | bitOr => bitXor
  | bitXor => bitAnd
  | bitAnd => equality
  | equality => relational
  | relational => shift
  | shift => additive
  | additive => multiplicative
  | multiplicative => unary
  | unary => suffixed
  | suffixed => primary
  | primary => primary

end Precedence

/-- Operators written before their operand. `increment` and `decrement` have counterparts behind it
in `StepOp`. -/
inductive UnaryOp where
  | plus
  | minus
  | increment
  | decrement
  | not
  | complement
deriving DecidableEq

namespace UnaryOp

def all : List UnaryOp := [plus, minus, increment, decrement, not, complement]

/-- The operator as it is written. `ofToken?` goes the other way. -/
def token : UnaryOp → String
  | plus => "+"
  | minus => "-"
  | increment => "++"
  | decrement => "--"
  | not => "!"
  | complement => "~"

/-- The operator whose `token` is this symbol, if it can stand before an operand. -/
def ofToken? (text : String) : Option UnaryOp := all.find? fun op => op.token == text

end UnaryOp

/-- Steps written after their operand, which `Parser.suffixOf` reads like the other suffixes. -/
inductive StepOp where
  | increment
  | decrement
deriving DecidableEq

namespace StepOp

def all : List StepOp := [increment, decrement]

/-- The operator as it is written, the same two symbols as in `UnaryOp.token`. -/
def token : StepOp → String
  | increment => "++"
  | decrement => "--"

/-- The step whose `token` is this symbol. -/
def ofToken? (text : String) : Option StepOp := all.find? fun op => op.token == text

end StepOp

/-- Operators between two operands. All associate to the left, which `Expr.ofChain` builds and
`Expr.pieces` relies on. -/
inductive BinaryOp where
  | mul
  | div
  | mod
  | add
  | sub
  | shiftLeft
  | shiftRight
  | lt
  | gt
  | le
  | ge
  | eq
  | ne
  | bitAnd
  | bitXor
  | bitOr
  | and
  | xor
  | or
deriving DecidableEq

namespace BinaryOp

def all : List BinaryOp :=
  [mul, div, mod, add, sub, shiftLeft, shiftRight, lt, gt, le, ge, eq, ne, bitAnd, bitXor, bitOr,
   and, xor, or]

/-- The operator as it is written. `ofToken?` goes the other way. -/
def token : BinaryOp → String
  | mul => "*"
  | div => "/"
  | mod => "%"
  | add => "+"
  | sub => "-"
  | shiftLeft => "<<"
  | shiftRight => ">>"
  | lt => "<"
  | gt => ">"
  | le => "<="
  | ge => ">="
  | eq => "=="
  | ne => "!="
  | bitAnd => "&"
  | bitXor => "^"
  | bitOr => "|"
  | and => "&&"
  | xor => "^^"
  | or => "||"

/-- The operator whose `token` is this symbol, if it can stand between two operands of a chain. -/
def ofToken? (text : String) : Option BinaryOp := all.find? fun op => op.token == text

/-- The level at which the operator binds, one of those between `logicalOr` and `multiplicative`. -/
def precedence : BinaryOp → Precedence
  | mul | div | mod => .multiplicative
  | add | sub => .additive
  | shiftLeft | shiftRight => .shift
  | lt | gt | le | ge => .relational
  | eq | ne => .equality
  | bitAnd => .bitAnd
  | bitXor => .bitXor
  | bitOr => .bitOr
  | and => .logicalAnd
  | xor => .logicalXor
  | or => .logicalOr

end BinaryOp

/-- Assignments. All associate to the right, since `Parser.assignmentOf` reads an assignment behind
the sign. -/
inductive AssignOp where
  | set
  | add
  | sub
  | mul
  | div
  | mod
  | shiftLeft
  | shiftRight
  | bitAnd
  | bitXor
  | bitOr
deriving DecidableEq

namespace AssignOp

def all : List AssignOp :=
  [set, add, sub, mul, div, mod, shiftLeft, shiftRight, bitAnd, bitXor, bitOr]

/-- The operator as it is written. `ofToken?` goes the other way. -/
def token : AssignOp → String
  | set => "="
  | add => "+="
  | sub => "-="
  | mul => "*="
  | div => "/="
  | mod => "%="
  | shiftLeft => "<<="
  | shiftRight => ">>="
  | bitAnd => "&="
  | bitXor => "^="
  | bitOr => "|="

/-- The assignment whose `token` is this symbol. -/
def ofToken? (text : String) : Option AssignOp := all.find? fun op => op.token == text

end AssignOp

end ShaderMinifier
