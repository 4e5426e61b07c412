import ShaderMinifier.FloatLiteral
import ShaderMinifier.Grammar.Token

/-
  Numbers. A floating point literal has a point or an exponent; an integer is decimal without a
  leading zero, octal behind `0` or hexadecimal behind `0x`, and is below 2^64.
-/

namespace ShaderMinifier

namespace FloatLiteral

/-- The sign at the head of the input, if there is one, as the part of the exponent's spelling that
`exponentAtHead` puts behind the mark. -/
def signAtHead : List Char → List Char
  | '+' :: _ => ['+']
  | '-' :: _ => ['-']
  | _ => []

/-- The exponent at the head of the input and what follows it, or else where it goes wrong: at the
start if there is no mark (`isExponentMark`), behind mark and sign if no digit follows. -/
def exponentAtHead (input : List Char) : Except (List Char) (List Char × List Char) :=
  match input with
  | [] => .error []
  | mark :: rest =>
    if isExponentMark mark then
      let sign := signAtHead rest
      let rest := rest.drop sign.length
      let digits := rest.takeWhile Char.isDigit
      if digits.isEmpty then .error rest
      else .ok (mark :: sign ++ digits, rest.dropWhile Char.isDigit)
    else .error input

/-- The literal at the head of the input as it is spelled and what follows it, or else the furthest
place at which all its forms have gone wrong. A point makes the exponent of `exponentAtHead`
optional. -/
def lexemeAtHead (input : List Char) : Except (List Char) (List Char × List Char) :=
  let whole := input.takeWhile Char.isDigit
  let rest := input.dropWhile Char.isDigit
  match rest with
  | '.' :: rest =>
    let fraction := rest.takeWhile Char.isDigit
    let tail := rest.dropWhile Char.isDigit
    if whole.isEmpty && fraction.isEmpty then .error rest
    else
      match exponentAtHead tail with
      | .ok (exponent, tail) => .ok (whole ++ '.' :: fraction ++ exponent, tail)
      | .error _ => .ok (whole ++ '.' :: fraction, tail)
  | _ =>
    if whole.isEmpty then .error input
    else
      match exponentAtHead rest with
      | .ok (exponent, tail) => .ok (whole ++ exponent, tail)
      | .error place => .error place

end FloatLiteral

namespace Integer

/-- Whether `c` is an octal digit; `octalAtHead?` takes the digits behind a `0` up to the first
character without it. -/
def isOctal (c : Char) : Bool := '0' ≤ c && c ≤ '7'

/-- Whether `c` is a hexadecimal digit of either case; `hexAtHead?` takes those behind `0x` or
`0X`. -/
def isHex (c : Char) : Bool := c.isDigit || ('a' ≤ c && c ≤ 'f') || ('A' ≤ c && c ≤ 'F')

/-- What a digit stands for. The letters of `isHex` count from ten in both cases; for other
characters the value means nothing. -/
def digitValue (c : Char) : Nat :=
  if c.isDigit then c.toNat - '0'.toNat
  else if 'a' ≤ c then c.toNat - 'a'.toNat + 10
  else c.toNat - 'A'.toNat + 10

/-- The value of `digits` in this base, the first digit being the highest. There is no bound here,
see `ofDigits?`. -/
def ofDigits (base : Nat) (digits : List Char) : Nat :=
  digits.foldl (fun value c => base * value + digitValue c) 0

/-- The value of one or more digits, if it is below 2^64. Larger ones give `none`, so the literal is
rejected and does not wrap around. -/
def ofDigits? (base : Nat) (digits : List Char) : Option UInt64 :=
  let value := ofDigits base digits
  if !digits.isEmpty && value < UInt64.size then some (UInt64.ofNat value) else none

/-- A hexadecimal integer at the head of the input, and what follows it. Without a digit behind the
mark, `ofDigits?` gives `none`. -/
def hexAtHead? : List Char → Option (UInt64 × List Char)
  | '0' :: mark :: rest =>
    if mark == 'x' || mark == 'X' then
      (ofDigits? 16 (rest.takeWhile isHex)).map fun value => (value, rest.dropWhile isHex)
    else none
  | _ => none

/-- An octal integer at the head of the input, and what follows it. The leading `0` is not a digit
of the value, so `ofDigits?` wants another one behind it. -/
def octalAtHead? : List Char → Option (UInt64 × List Char)
  | '0' :: rest =>
    (ofDigits? 8 (rest.takeWhile isOctal)).map fun value => (value, rest.dropWhile isOctal)
  | _ => none

/-- A decimal integer at the head of the input, and what follows it. Only `0` by itself starts with
a zero: `octalAtHead?` reads the others. -/
def decimalAtHead? (input : List Char) : Option (UInt64 × List Char) :=
  let digits := input.takeWhile Char.isDigit
  if digits = ['0'] || digits.head? != some '0' then
    (ofDigits? 10 digits).map fun value => (value, input.dropWhile Char.isDigit)
  else none

/-- The integer at the head of the input, read in the first form that fits of `hexAtHead?`,
`octalAtHead?` and `decimalAtHead?`. -/
def atHead? (input : List Char) : Option (UInt64 × List Char) :=
  hexAtHead? input <|> octalAtHead? input <|> decimalAtHead? input

end Integer

namespace Parser

/-- The parser of a floating point literal: `FloatLiteral.lexemeAtHead` finds it,
`FloatLiteral.ofText` brings it into canonical spelling. -/
def floatLiteral : Parser FloatLiteral := fun input =>
  match FloatLiteral.lexemeAtHead input with
  | .ok (lexeme, rest) =>
    .matched (FloatLiteral.ofText (String.ofList lexeme)) (Blank.skip rest)
  | .error place => .mismatch ⟨place, .unexpected⟩

/-- The parser of an integer: that of `Integer.atHead?`. A character with `Word.isPart` directly
behind it is a failure, since `1x` is neither a number nor two lexemes. -/
def intLiteral : Parser UInt64 := fun input =>
  match Integer.atHead? input with
  | some (value, rest) =>
    match rest with
    | c :: _ =>
      if Word.isPart c then .failure ⟨rest, .badNumber c⟩ else .matched value (Blank.skip rest)
    | [] => .matched value []
  | none => .mismatch ⟨input, .unexpected⟩

/-- The parser of a truth value, one of the keywords `true` and `false`. -/
def boolLiteral : Parser Bool :=
  orElse (do keyword "true"; return true) (do keyword "false"; return false)

end Parser

end ShaderMinifier
