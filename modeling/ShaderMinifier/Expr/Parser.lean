import ShaderMinifier.Expr.Chain
import ShaderMinifier.Grammar.Number

/-
  Reading expressions. Each parser is given the parsers of the assignments and of the unary
  expressions one level further in; `assignment` and `unary` tie the knot and spend one level of
  nesting each. Chains of binary operators nest no deeper however long they are.
-/

namespace ShaderMinifier

/-- Something written behind an operand, read by `Parser.suffixOf` and put on the operand by
`Suffix.attach`. -/
inductive Suffix where
  | index (position : Expr)
  | field (name : String)
  | step (op : StepOp)

/-- The operand `base` with the suffix behind it. `Parser.suffixedOf` folds it over the suffixes
from left to right. -/
def Suffix.attach (base : Expr) : Suffix → Expr
  | index position => .index base position
  | field name => .field base name
  | step op => .step op base

namespace Parser

/-- Levels of nesting that a text may open before `assignment` and `unary` fail with `tooDeep`. -/
def maxNesting : Nat := 128

/-- An expression, commas included. A single `assignment` stays as it is, and only two or more make
a `sequence`. -/
def expressionOf (assignment : Parser Expr) : Parser Expr := do
  match ← commaList (symbol ",") assignment with
  | [item] => return item
  | items => return .sequence items

/-- Operands with binary operators between them, read flat by `many` and built into a tree by
`Expr.ofChain`. Behind an operator an operand must follow. -/
def chainOf (unary : Parser Expr) : Parser Expr := do
  let first ← unary
  let others ← many do
    let op ← symbolWhere BinaryOp.ofToken?
    let right ← commit unary
    return (op, right)
  return Expr.ofChain first others

/-- A chain of `chainOf`, or a choice between two expressions behind it. The middle one may have
commas, the last one is an `assignment`. -/
def conditionalOf (assignment unary : Parser Expr) : Parser Expr := do
  let condition ← chainOf unary
  match ← optional (symbol "?") with
  | none => return condition
  | some _ =>
    let whenTrue ← commit (expressionOf assignment)
    commit (symbol ":")
    let whenFalse ← commit assignment
    return .ternary condition whenTrue whenFalse

/-- A conditional expression, or an assignment to a unary expression. A looser left side fails with
`assignmentTarget` at the operator. -/
def assignmentOf (assignment unary : Parser Expr) : Parser Expr := do
  let left ← conditionalOf assignment unary
  let place ← here
  match ← optional (symbolWhere AssignOp.ofToken?) with
  | none => return left
  | some op =>
    if left.precedence < .unary then failAt place .assignmentTarget
    else
      let right ← commit assignment
      return .assign op left right

/-- What stands for no arguments or parameters: nothing or `void`, and the closing bracket.
`argumentsOf` and `parameters` share it. -/
def emptyList : Parser Unit :=
  orElse (symbol ")") (do keyword "void"; symbol ")")

/-- Arguments up to the closing bracket, or the `emptyList`. A comma that no argument follows is
left to the bracket, which then does not match. -/
def argumentsOf (assignment : Parser Expr) : Parser (List Expr) := do
  match ← optional emptyList with
  | some _ => return []
  | none =>
    let args ← sepBy1 (symbol ",") assignment
    symbol ")"
    return args

/-- A call. Its callee has to be a possible type name (`isTypeName`), which every function name is.
Behind the bracket there is no way back. -/
def callOf (assignment : Parser Expr) : Parser Expr := do
  match ← nextWord with
  | none => mismatch .unexpected
  | some callee =>
    if Word.isTypeName callee then
      let _ ← anyWord
      symbol "("
      let args ← commit (argumentsOf assignment)
      return .call callee args
    else mismatch (.expected .callee)

/-- A variable: any word that is not reserved, `isBuiltinVariable` or not. -/
def variableName : Parser Expr := do
  match ← nextWord with
  | none => mismatch .unexpected
  | some name =>
    if Word.isReserved name then mismatch (.expected .expression)
    else
      let _ ← anyWord
      return .identifier name

/-- An expression in brackets. The brackets leave no trace in the tree, see `Expr.pieces`. -/
def parenthesizedOf (assignment : Parser Expr) : Parser Expr := do
  symbol "("
  let inner ← commit (expressionOf assignment)
  commit (symbol ")")
  return inner

/-- An operand without operators. A number is tried as a `floatLiteral` first, and a word as a call
before it is a variable. -/
def primaryOf (assignment : Parser Expr) : Parser Expr :=
  orElse (do return .float (← floatLiteral)) <|
  orElse (do return .int (← intLiteral)) <|
  orElse (do return .bool (← boolLiteral)) <|
  orElse (parenthesizedOf assignment) <|
  orElse (callOf assignment) variableName

/-- One suffix, chosen by the symbol at the head. A step directly behind another one fails with
`repeatedStep`. -/
def suffixOf (assignment : Parser Expr) : Parser Suffix := do
  match ← symbolWhere some with
  | "[" =>
    let position ← commit (expressionOf assignment)
    commit (symbol "]")
    return .index position
  | "." =>
    let name ← commit anyWord
    return .field name
  | token =>
    match StepOp.ofToken? token with
    | none => mismatch .unexpected
    | some op =>
      if ← lookingAt (symbolWhere StepOp.ofToken?) then fail .repeatedStep
      else return .step op

/-- An operand of `primaryOf` with its suffixes, the first suffix innermost. -/
def suffixedOf (assignment : Parser Expr) : Parser Expr := do
  let base ← primaryOf assignment
  let suffixes ← many (suffixOf assignment)
  return suffixes.foldl Suffix.attach base

/-- An operand with the operators before and behind it. Each operator before it costs one level of
nesting, the suffixes of `suffixedOf` cost none. -/
def unaryOf (assignment unary : Parser Expr) : Parser Expr := do
  match ← optional (symbolWhere UnaryOp.ofToken?) with
  | some op =>
    let operand ← commit unary
    return .unary op operand
  | none => suffixedOf assignment

mutual

/-- An assignment or anything tighter, with `room` levels of nesting left. Recursion is on `room`;
without room it fails with `tooDeep`. -/
def assignment : (room : Nat) → Parser Expr
  | 0, input => fail .tooDeep input
  | room + 1, input => assignmentOf (assignment room) (unary room) input

/-- A unary expression or anything tighter, with `room` levels of nesting left, which it shares with
`assignment`. -/
def unary : (room : Nat) → Parser Expr
  | 0, input => fail .tooDeep input
  | room + 1, input => unaryOf (assignment room) (unary room) input

end

/-- An expression, commas included, with `room` levels of nesting left. The items of a sequence are
no deeper than the sequence, so `assignment` gets all of the room. -/
def expression (room : Nat) : Parser Expr := expressionOf (assignment room)

/-- A conditional expression or anything tighter. Only the size of an array is read so, see
`arraySize`. -/
def conditional (room : Nat) : Parser Expr := conditionalOf (assignment room) (unary room)

end Parser

end ShaderMinifier
