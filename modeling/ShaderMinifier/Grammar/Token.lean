import ShaderMinifier.Grammar.Parser
import ShaderMinifier.Text.Blank
import ShaderMinifier.Word

/-
  Words and symbols. A parser of a lexeme also takes the blanks after it; the functions with a
  question mark only look at the head of the input and take no blanks.
-/

namespace ShaderMinifier

/-- The word at the head of the input, the longest one that `isStart` and `isPart` allow, and what
follows it. -/
def Word.atHead? : List Char → Option (String × List Char)
  | c :: rest =>
    if Word.isStart c then
      some (String.ofList (c :: rest.takeWhile Word.isPart), rest.dropWhile Word.isPart)
    else none
  | [] => none

namespace Symbol

/-- Operators and punctuation. A symbol stands before the shorter ones that it starts with, so the
first hit of `atHead?` is the longest. -/
def all : List String :=
  ["<<=", ">>=", "++", "--", "<<", ">>", "<=", ">=", "==", "!=", "&&", "||", "^^", "+=", "-=",
   "*=", "/=", "%=", "&=", "^=", "|=", "+", "-", "*", "/", "%", "<", ">", "&", "^", "|", "=",
   "!", "~", "?", ":", "(", ")", "[", "]", "\x7b", "\x7d", ";", ",", "."]

/-- What follows `text` at the head of the input, or `none` if the input starts differently. -/
def after? : (text input : List Char) → Option (List Char)
  | [], input => some input
  | _ :: _, [] => none
  | t :: text, c :: input => if t = c then after? text input else none

/-- The longest symbol of `all` at the head of the input, and what follows it. -/
def atHead? (input : List Char) : Option (String × List Char) :=
  all.findSome? fun text => (after? text.toList input).map fun rest => (text, rest)

end Symbol

namespace Parser

/-- Takes blanks. Every parser of a lexeme ends with it, so that a rule starts at a lexeme. -/
def blank : Parser Unit := fun input => .matched () (Blank.skip input)

/-- Takes exactly this symbol and the blanks behind it. Since `Symbol.atHead?` is maximal, `+` is
not the beginning of `++`. -/
def symbol (text : String) : Parser Unit := fun input =>
  match Symbol.atHead? input with
  | some (found, rest) =>
    if found = text then .matched () (Blank.skip rest)
    else .mismatch ⟨input, .expected (.token text)⟩
  | none => .mismatch ⟨input, .expected (.token text)⟩

/-- Takes the symbol at the head for which `choose` has a value, as `symbol` does for a single one;
the operators of one kind are read like this. -/
def symbolWhere {α : Type} (choose : String → Option α) : Parser α := fun input =>
  match Symbol.atHead? input with
  | some (found, rest) =>
    match choose found with
    | some value => .matched value (Blank.skip rest)
    | none => .mismatch ⟨input, .unexpected⟩
  | none => .mismatch ⟨input, .unexpected⟩

/-- Takes this word, the whole of it: `int` is not the beginning of `integer`, since `Word.atHead?`
is maximal. -/
def keyword (word : String) : Parser Unit := fun input =>
  match Word.atHead? input with
  | some (found, rest) =>
    if found = word then .matched () (Blank.skip rest)
    else .mismatch ⟨input, .expected (.token word)⟩
  | none => .mismatch ⟨input, .expected (.token word)⟩

/-- The word at the head, if there is one. Takes nothing; `statementOf` and `itemOf` choose their
rule by it. -/
def nextWord : Parser (Option String) := fun input =>
  .matched ((Word.atHead? input).map Prod.fst) input

/-- Takes the word at the head if `choose` has a value for it, as `keyword` does for a single
one. -/
def wordWhere {α : Type} (choose : String → Option α) : Parser α := fun input =>
  match Word.atHead? input with
  | some (found, rest) =>
    match choose found with
    | some value => .matched value (Blank.skip rest)
    | none => .mismatch ⟨input, .unexpected⟩
  | none => .mismatch ⟨input, .unexpected⟩

/-- Any word, reserved or not. `suffixOf` reads the name of a field with it; the other rules have
looked at `nextWord` before. -/
def anyWord : Parser String := wordWhere some

/-- A word that is not reserved (`isReserved`), where another reading of a reserved word is still
open. -/
def identifier : Parser String :=
  wordWhere fun word => if Word.isReserved word then none else some word

/-- The name of a type: any word with `isTypeName`, that is built-in or not reserved. -/
def typeName : Parser String :=
  wordWhere fun word => if Word.isTypeName word then some word else none

/-- A name being declared. A reserved word in its place cannot be the start of anything else, so it
is a failure and not a mismatch as in `identifier`. -/
def declaredName : Parser String := do
  match ← nextWord with
  | none => mismatch .unexpected
  | some word =>
    if Word.isReserved word then fail (.reservedName word)
    else if Word.isBuiltinVariable word then fail (.builtinName word)
    else anyWord

end Parser

end ShaderMinifier
