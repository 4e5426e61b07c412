import ShaderMinifier.Declaration.Printer
import ShaderMinifier.Statement.Basic

/-
  Writing statements.
-/

namespace ShaderMinifier

/-- The pieces of an expression that may be missing. No brackets are added, as it stands before a
semicolon or a bracket. -/
def Expr.optionalPieces (value : Option Expr) : List Piece := (value.map Expr.pieces).getD []

namespace SimpleStatement

/-- The statement with its semicolon, so that `Statement.pieces` can put the head of a `for` loop
together. -/
def pieces : SimpleStatement → List Piece
  | declaration decl => decl.pieces
  | expression value => Expr.optionalPieces value ++ [.token ";"]

end SimpleStatement

namespace Statement

mutual

/-- The pieces of a statement. Nothing is added to tie an `else` to its `if`: a tree that was read
has none that could be taken by another. -/
def pieces : Statement → List Piece
  | block body => .token "\x7b" :: listPieces body ++ [.token "\x7d"]
  | simple stmt => stmt.pieces
  | ifThen condition body =>
    .token "if" :: Piece.parenthesized condition.pieces ++ pieces body
  | ifElse condition whenTrue whenFalse =>
    .token "if" :: Piece.parenthesized condition.pieces ++ pieces whenTrue ++
      .token "else" :: pieces whenFalse
  | whileLoop condition body =>
    .token "while" :: Piece.parenthesized condition.pieces ++ pieces body
  | doWhile body condition =>
    .token "do" :: pieces body ++ .token "while" :: Piece.parenthesized condition.pieces ++
      [.token ";"]
  | forLoop init condition step body =>
    .token "for" :: .token "(" :: init.pieces ++ Expr.optionalPieces condition ++
      .token ";" :: Expr.optionalPieces step ++ .token ")" :: pieces body
  | continueLoop => [.token "continue", .token ";"]
  | breakLoop => [.token "break", .token ";"]
  | returnValue value => .token "return" :: Expr.optionalPieces value ++ [.token ";"]
  | discard => [.token "discard", .token ";"]

/-- The `pieces` of statements in a row. Each ends with its own semicolon or brace. -/
def listPieces : List Statement → List Piece
  | [] => []
  | stmt :: body => pieces stmt ++ listPieces body

end

/-- The canonical text of a statement: its `pieces` in the `layout` that adds no more blanks than
the lexemes need. -/
def emit (stmt : Statement) : String := layout stmt.pieces

end Statement

end ShaderMinifier
