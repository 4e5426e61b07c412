import ShaderMinifier.Word

/-
  Laying out lexemes as text. Neighbours are separated by one space where they would otherwise
  be read as something else, and not elsewhere; a preprocessor line stands on a line of its own.
-/

namespace ShaderMinifier

/-- A part of the output: a word or symbol, a number, or a whole preprocessor line. `Pen.write`
treats numbers apart because a point behind one would join it. -/
inductive Piece where
  | token (text : String)
  | number (text : String)
  | line (text : String)
deriving DecidableEq

/-- What the layout remembers of the text written so far, all that `gap` and `lineStart` need to
decide what separates the next piece. -/
structure Pen where
  /-- The last character written, if there is one, which `joins` compares with the next one. -/
  last : Option Char
  /-- Whether the last piece is a `Piece.number`, behind which a point needs a gap. -/
  afterNumber : Bool
deriving DecidableEq

namespace Pen

/-- The pen before anything is written: no `gap` and no `lineStart` yet. -/
def start : Pen := ⟨none, false⟩

/-- Whether the two characters, the end of a lexeme and the start of the next, would be read as one:
parts of words (`isPart`), two signs, or the start of a comment. -/
def joins (last first : Char) : Bool :=
  (Word.isPart last && Word.isPart first) ||
    (last == first && (last == '+' || last == '-')) ||
    (last == '/' && (first == '/' || first == '*'))

/-- What has to stand before a lexeme that starts with `first`: one space where it `joins` the last
character or is a point behind a number, and nothing elsewhere. -/
def gap (pen : Pen) (first : Char) : List Char :=
  match pen.last with
  | none => []
  | some last => if joins last first || (pen.afterNumber && first == '.') then [' '] else []

/-- A lexeme with the `gap` before it. The empty text, which no lexeme is, stays empty. -/
def lexeme (pen : Pen) : List Char → List Char
  | [] => []
  | first :: text => pen.gap first ++ first :: text

/-- What has to stand before a line: a line feed, unless nothing is written yet or the last piece
was a `Piece.line` too. -/
def lineStart (pen : Pen) : List Char :=
  match pen.last with
  | none | some '\n' => []
  | some _ => ['\n']

/-- The characters that a piece adds: a `lexeme` with its gap, or a line with the line feeds on both
sides. -/
def write (pen : Pen) : Piece → List Char
  | .token text | .number text => pen.lexeme text.toList
  | .line text => pen.lineStart ++ text.toList ++ ['\n']

/-- The pen after a piece. A piece without characters leaves `last` as it is. -/
def after (pen : Pen) (piece : Piece) : Pen where
  last := (pen.write piece).getLast?.or pen.last
  afterNumber :=
    match piece with
    | .number _ => true
    | .token _ | .line _ => false

/-- The characters that pieces add, each written with the pen `after` the ones before it. -/
def writeAll (pen : Pen) : List Piece → List Char
  | [] => []
  | piece :: pieces => pen.write piece ++ (pen.after piece).writeAll pieces

end Pen

/-- The text of pieces written from `Pen.start`, the last step of `Expr.emit` and `Shader.emit`. -/
def layout (pieces : List Piece) : String := String.ofList (Pen.start.writeAll pieces)

namespace Piece

/-- Lists of pieces with a comma between neighbours, as the reader's `sepBy1` and `commaList` expect
them. -/
def commaSeparated : List (List Piece) → List Piece
  | [] => []
  | [item] => item
  | item :: items => item ++ .token "," :: commaSeparated items

/-- The pieces `inner` in brackets, for operands that bind too loosely and for the heads of calls
and statements. -/
def parenthesized (inner : List Piece) : List Piece := .token "(" :: inner ++ [.token ")"]

end Piece

end ShaderMinifier
