import ShaderMinifier.Declaration.Parser
import ShaderMinifier.Statement.Basic

/-
  Reading statements. The parser of a statement is given the parser of the statements inside it;
  `statement` ties the knot and spends one level of nesting.
-/

namespace ShaderMinifier

namespace Parser

/-- Statements between braces. Before each the closing brace is looked for, so what does not start a
`statement` is a failure there. -/
def blockOf (statement : Parser Statement) : Parser (List Statement) := do
  symbol "\x7b"
  let body ← many do
    if ← lookingAt (symbol "\x7d") then mismatch .unexpected
    else commit statement
  symbol "\x7d"
  return body

/-- An expression and its semicolon, or the semicolon alone, which is `SimpleStatement.expression
none`. -/
def expressionStatement (room : Nat) : Parser SimpleStatement := do
  match ← optional (symbol ";") with
  | some _ => return .expression none
  | none =>
    let value ← expression room
    commit (symbol ";")
    return .expression (some value)

/-- A declaration, or else an expression. A failure of `localDeclaration` is final; a mismatch, as
for `x;` or `f(1);`, leaves the choice. -/
def simpleStatement (room : Nat) : Parser SimpleStatement := do
  match ← optional (localDeclaration room) with
  | some decl => return .declaration decl
  | none => expressionStatement room

/-- A condition in brackets, behind `if`, `while` and the `while` of a `do` loop. Commas are
allowed, as in `expression`. -/
def condition (room : Nat) : Parser Expr := do
  commit (symbol "(")
  let value ← commit (expression room)
  commit (symbol ")")
  return value

/-- An expression, unless the symbol `closing` stands here already, and that symbol. -/
def expressionBefore (room : Nat) (closing : String) : Parser (Option Expr) := do
  let value ←
    if ← lookingAt (symbol closing) then pure none
    else some <$> commit (expression room)
  commit (symbol closing)
  return value

/-- An `if`, with or without `else`. An `else` goes with the innermost `if` before it, since the
inner `statement` takes it first. -/
def selectionOf (room : Nat) (statement : Parser Statement) : Parser Statement := do
  keyword "if"
  let test ← condition room
  let whenTrue ← commit statement
  match ← optional (keyword "else") with
  | none => return .ifThen test whenTrue
  | some _ => return .ifElse test whenTrue (← commit statement)

/-- A `while` loop. Behind its `condition` any statement may follow, also the empty one. -/
def whileLoopOf (room : Nat) (statement : Parser Statement) : Parser Statement := do
  keyword "while"
  let test ← condition room
  return .whileLoop test (← commit statement)

/-- A `do` loop with its semicolon. Any statement may stand between `do` and `while`, braces or
not. -/
def doWhileOf (room : Nat) (statement : Parser Statement) : Parser Statement := do
  keyword "do"
  let body ← commit statement
  commit (keyword "while")
  let test ← condition room
  commit (symbol ";")
  return .doWhile body test

/-- A `for` loop. Its first part is a `simpleStatement`, which has a semicolon of its own; condition
and step may be missing. -/
def forLoopOf (room : Nat) (statement : Parser Statement) : Parser Statement := do
  keyword "for"
  commit (symbol "(")
  let init ← commit (simpleStatement room)
  let test ← expressionBefore room ";"
  let step ← expressionBefore room ")"
  return .forLoop init test step (← commit statement)

/-- A keyword and its semicolon, one of those that `statementOf` chooses by their word. -/
def jump (word : String) (stmt : Statement) : Parser Statement := do
  keyword word
  commit (symbol ";")
  return stmt

/-- A `return`, with or without a value, up to its semicolon (`expressionBefore`). -/
def returnStatement (room : Nat) : Parser Statement := do
  keyword "return"
  return .returnValue (← expressionBefore room ";")

/-- A statement whose own parts have `room` levels of nesting left, chosen by its first word. A
preprocessor line in a body fails with `directiveInside`. -/
def statementOf (room : Nat) (statement : Parser Statement) : Parser Statement := do
  if (← here).head? = some '#' then fail .directiveInside
  else if ← lookingAt (symbol "\x7b") then return .block (← blockOf statement)
  else
    match ← nextWord with
    | some "if" => selectionOf room statement
    | some "while" => whileLoopOf room statement
    | some "do" => doWhileOf room statement
    | some "for" => forLoopOf room statement
    | some "continue" => jump "continue" .continueLoop
    | some "break" => jump "break" .breakLoop
    | some "discard" => jump "discard" .discard
    | some "return" => returnStatement room
    | _ => return .simple (← simpleStatement room)

/-- A statement, with `room` levels of nesting left. Recursion is on `room`; without room it fails
with `tooDeep`. -/
def statement : (room : Nat) → Parser Statement
  | 0, input => fail .tooDeep input
  | room + 1, input => statementOf room (statement room) input

/-- The body of a function, `blockOf` with the statements that have all of the `room`. -/
def block (room : Nat) : Parser (List Statement) := blockOf (statement room)

end Parser

end ShaderMinifier
