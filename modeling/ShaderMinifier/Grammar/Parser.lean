import ShaderMinifier.Grammar.Cause
import ShaderMinifier.Text.Location

/-
  Parsers on lists of characters. A parser matches and leaves the rest of its input, or does not
  match, so that another alternative may be tried, or fails for good. Loops are bounded by the
  input itself: every round takes at least one character.
-/

namespace ShaderMinifier

/-- What is wrong, and the input from there on. The length of `rest` says how far a parser got,
which is how `further` compares. -/
structure Fault where
  rest : List Char
  cause : Cause

namespace Fault

/-- Of two faults the one further into the text. At one place it is the later one, unless its cause
`isVague`. -/
def further (earlier later : Fault) : Fault :=
  if earlier.rest.length < later.rest.length then earlier
  else if earlier.rest.length = later.rest.length && later.cause.isVague then earlier
  else later

/-- The fault as an error of the whole `source`: its position is the number of bytes before the
fault's `rest`. -/
def toError (source : String) (fault : Fault) : SyntaxError :=
  SyntaxError.ofOffset source (byteLength source.toList - byteLength fault.rest)
    (fault.cause.message fault.rest.head?)

end Fault

/-- What a parser says about an input. The difference between `mismatch` and `failure` is whether
`orElse` goes on to its second parser. -/
inductive Reply (α : Type) where
  /-- A value, and the input left after it, where the next parser of a `bind` starts. -/
  | matched (value : α) (rest : List Char)
  /-- The input does not start like this. An alternative of `orElse` may fit, and `many` and
  `optional` stop here without an error. -/
  | mismatch (fault : Fault)
  /-- The input starts like this but is wrong. No alternative is tried, and `orElse`, `many` and
  `optional` hand the fault on. -/
  | failure (fault : Fault)

/-- A reader of the beginning of an input. A `Parser` is its run function, so rules are composed
with `bind`, `orElse` and `many` and proved about by unfolding them. -/
def Parser (α : Type) : Type := List Char → Reply α

namespace Parser

variable {α β : Type}

/-- Matches the empty beginning of every input with this value; the unit of `Parser.bind`. -/
protected def pure (value : α) : Parser α := fun input => .matched value input

/-- Runs `p`, then the parser that `f` gives for its value where `p` stopped. A mismatch or a
failure of either is that of the whole. -/
protected def bind (p : Parser α) (f : α → Parser β) : Parser β := fun input =>
  match p input with
  | .matched value rest => f value rest
  | .mismatch fault => .mismatch fault
  | .failure fault => .failure fault

instance : Monad Parser where
  pure := Parser.pure
  bind := Parser.bind

/-- The input at this point, which `failAt` and `mismatchAt` take to report a fault at a place that
has been passed. -/
def here : Parser (List Char) := fun input => .matched input input

/-- Does not match here, for this cause. The fault counts in `orElse` if no other alternative gets
further. -/
def mismatch (cause : Cause) : Parser α := fun input => .mismatch ⟨input, cause⟩

/-- Fails here, for this cause. In contrast to `mismatch` nothing else is tried. -/
def fail (cause : Cause) : Parser α := fun input => .failure ⟨input, cause⟩

/-- Fails at a `place` that was passed before, for faults that show only later, such as a qualifier
that its declaration does not allow. -/
def failAt (place : List Char) (cause : Cause) : Parser α := fun _ => .failure ⟨place, cause⟩

/-- Does not match at a `place` that was passed before. Like `failAt`, but the alternatives of
`orElse` are still open. -/
def mismatchAt (place : List Char) (cause : Cause) : Parser α :=
  fun _ => .mismatch ⟨place, cause⟩

/-- From here on nothing else is tried: a `mismatch` of `p` becomes a `failure`. This is what a rule
does once its first lexemes decide. -/
def commit (p : Parser α) : Parser α := fun input =>
  match p input with
  | .mismatch fault => .failure fault
  | reply => reply

/-- The reply of `p`, or that of `q` where `p` does not match. If neither does, the fault that got
`further` is kept. A failure of `p` is final. -/
def orElse (p q : Parser α) : Parser α := fun input =>
  match p input with
  | .mismatch earlier =>
    match q input with
    | .mismatch later => .mismatch (earlier.further later)
    | reply => reply
  | reply => reply

/-- The value of `p`, or `none` where `p` does not match. A failure of `p` is a failure of the
whole. -/
def optional (p : Parser α) : Parser (Option α) := fun input =>
  match p input with
  | .matched value rest => .matched (some value) rest
  | .mismatch _ => .matched none input
  | .failure fault => .failure fault

/-- Whether `p` matches here. Takes nothing, and turns a `failure` of `p` into the answer no as
well. -/
def lookingAt (p : Parser α) : Parser Bool := fun input =>
  match p input with
  | .matched _ _ => .matched true input
  | _ => .matched false input

/-- The values of `p` while it matches, at most one for each character of the first argument, which
serves as fuel. `many` hands in enough of it. -/
def manyUpTo (p : Parser α) : List Char → Parser (List α)
  | [], input =>
    match p input with
    | .failure fault => .failure fault
    | _ => .matched [] input
  | _ :: gas, input =>
    match p input with
    | .matched value rest =>
      match manyUpTo p gas rest with
      | .matched values rest => .matched (value :: values) rest
      | reply => reply
    | .mismatch _ => .matched [] input
    | .failure fault => .failure fault

/-- As many matches of `p` in a row as there are. The last try, which does not match, takes nothing.
A match takes a character, so the input is enough fuel for `manyUpTo`. -/
def many (p : Parser α) : Parser (List α) := fun input => manyUpTo p input input

/-- One match of `p` or more in a row: the first one must be there, `many` takes the others. -/
def many1 (p : Parser α) : Parser (List α) := do
  let first ← p
  let others ← many p
  return first :: others

/-- One match of `p` or more with a separator between neighbours. A separator that no match follows
is not taken, in contrast to `commaList`. -/
def sepBy1 (separator : Parser β) (p : Parser α) : Parser (List α) := do
  let first ← p
  let others ← many (do let _ ← separator; p)
  return first :: others

/-- One match of `p` or more with a separator between neighbours. After a separator a match must
follow: `commit` turns its absence into a failure. -/
def commaList (separator : Parser β) (p : Parser α) : Parser (List α) := do
  let first ← p
  let others ← many (do let _ ← separator; commit p)
  return first :: others

/-- Reads a whole `source` with `p`. What `p` leaves over is an error with the cause `remaining`,
and a mismatch is one like a failure. -/
def run (p : Parser α) (source : String) : Except SyntaxError α :=
  match p source.toList with
  | .matched value [] => .ok value
  | .matched _ rest => .error (Fault.toError source ⟨rest, .remaining⟩)
  | .mismatch fault => .error (fault.toError source)
  | .failure fault => .error (fault.toError source)

end Parser

end ShaderMinifier
