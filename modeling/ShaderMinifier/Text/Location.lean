/-
  Places in a source text and the errors reported there. A place is a byte offset in UTF-8; its
  line and column count from one, the column in characters.
-/

namespace ShaderMinifier

/-- The number of bytes of `text` in UTF-8, the measure in which `Location.position` and the sizes
of the program are given. -/
def byteLength (text : List Char) : Nat := text.foldr (fun c n => c.utf8Size + n) 0

/-- The longest beginning of `text` that has at most `bytes` bytes; a character that `bytes` would
cut in two is left out. -/
def takeBytes (bytes : Nat) : List Char → List Char
  | [] => []
  | c :: text => if c.utf8Size ≤ bytes then c :: takeBytes (bytes - c.utf8Size) text else []

/-- A place in a text as a reader counts it. `Location.after` computes it from the text before the
place. -/
structure Location where
  position : Nat
  line : Nat
  column : Nat
deriving DecidableEq

/-- The place right after `before`: its `line` is one more than the line feeds in `before`, its
`column` one more than the characters since the last of them. -/
def Location.after (before : List Char) : Location where
  position := byteLength before
  line := before.count '\n' + 1
  column := (before.reverse.takeWhile (· != '\n')).length + 1

/-- Why a text is no shader, statement or expression, and the `Location` where that shows. -/
structure SyntaxError where
  message : String
  location : Location
deriving DecidableEq

namespace SyntaxError

/-- The error with this `message` at the byte offset `position` of `source`. An offset past the end
of `source` means its end. -/
def ofOffset (source : String) (position : Nat) (message : String) : SyntaxError where
  message := message
  location := Location.after (takeBytes position source.toList)

/-- The error as a sentence, with the line and the column of its `location` in front of the
message. -/
def display (e : SyntaxError) : String :=
  "Syntax error at line " ++ e.location.line.repr ++ ", column " ++ e.location.column.repr ++
    ": " ++ e.message

end SyntaxError

end ShaderMinifier
