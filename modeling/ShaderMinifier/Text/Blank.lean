/-
  Blanks between lexemes: white space, comments and line continuations. `skip` leaves the input
  at its first character that belongs to a lexeme. A comment to the end of the line counts only
  if its line ends properly, and a bracketed comment only if it is closed; otherwise its slash
  is the start of a lexeme.
-/

namespace ShaderMinifier

namespace Blank

/-- White space between lexemes. `isSpace` covers the characters that `after?` drops one at a time:
space, tab, carriage return and line feed. -/
def isSpace (c : Char) : Bool := c == ' ' || c == '\t' || c == '\r' || c == '\n'

/-- Either half of a line's end. `afterLineComment?` looks for the first character with `isLineEnd`
and then decides whether the line really ends there. -/
def isLineEnd (c : Char) : Bool := c == '\r' || c == '\n'

/-- What follows a `//` comment, the end of its line still included. A carriage return ends a line
only together with a line feed, so `'\r'` alone gives `none` and the slashes are no comment. -/
def afterLineComment? (input : List Char) : Option (List Char) :=
  match input.dropWhile fun c => !isLineEnd c with
  | [] => some []
  | '\r' :: '\n' :: rest => some ('\r' :: '\n' :: rest)
  | '\r' :: _ => none
  | rest => some rest

/-- What follows the first `*/` of the input, or `none` if the bracketed comment is never closed. -/
def afterClose? : List Char → Option (List Char)
  | '*' :: '/' :: rest => some rest
  | _ :: rest => afterClose? rest
  | [] => none

/-- What follows the one blank at the head of the input: a `//` or `/*` comment, a line continuation
or a character with `isSpace`. `none` means that a lexeme starts here. -/
def after? : List Char → Option (List Char)
  | '/' :: '/' :: rest => afterLineComment? rest
  | '/' :: '*' :: rest => afterClose? rest
  | '\\' :: '\n' :: rest => some rest
  | c :: rest => if isSpace c then some rest else none
  | [] => none

/-- Skips blanks with `after?`, at most one for each character of the first argument, which serves
as fuel. `skip` hands in enough of it. -/
def skipUpTo : List Char → List Char → List Char
  | [], input => input
  | _ :: gas, input =>
    match after? input with
    | some rest => skipUpTo gas rest
    | none => input

/-- The input without the blanks at its head. A blank is at least one character long, so the input
itself is enough fuel for `skipUpTo`. -/
def skip (input : List Char) : List Char := skipUpTo input input

end Blank

end ShaderMinifier
