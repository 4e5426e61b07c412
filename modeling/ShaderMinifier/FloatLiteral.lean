/-
  Floating point literals, kept as text so that writing one never changes its digits. Only zeros
  that carry no value and the decoration of the exponent are dropped: `42.0` becomes `42.`,
  `0.50` becomes `.5`, `1E+05` becomes `1e5`.
-/

namespace ShaderMinifier

/-- A floating point literal as its `text`. The parser builds it by `ofText`, so a literal that was
read is in `canonical` spelling. -/
structure FloatLiteral where
  text : String
deriving DecidableEq

namespace FloatLiteral

/-- Whether `c` starts an exponent: `canonical` and `exponentAtHead` accept `e` and `E`. -/
def isExponentMark (c : Char) : Bool := c == 'e' || c == 'E'

/-- The digits without the zeros in front, for the whole part of a number and for its exponent. -/
def dropLeadingZeros (digits : List Char) : List Char := digits.dropWhile (· == '0')

/-- The digits without the zeros at the end, for the part behind the point. -/
def dropTrailingZeros (digits : List Char) : List Char :=
  (digits.reverse.dropWhile (· == '0')).reverse

/-- The digits, or a single zero if `dropLeadingZeros` and `dropTrailingZeros` have left none. -/
def orZero (digits : List Char) : List Char := if digits.isEmpty then ['0'] else digits

/-- The part before the exponent without idle zeros, by `dropLeadingZeros` and `dropTrailingZeros`.
A point stays where there was one, since it is what makes the literal a float. -/
def canonicalMantissa (mantissa : List Char) : List Char :=
  let whole := dropLeadingZeros (mantissa.takeWhile (· != '.'))
  match mantissa.dropWhile (· != '.') with
  | [] => orZero whole
  | _ :: fraction =>
    let fraction := dropTrailingZeros fraction
    if whole.isEmpty && fraction.isEmpty then ['0', '.'] else whole ++ '.' :: fraction

/-- The exponent behind its mark: without zeros in front (`dropLeadingZeros`), and with a sign only
if it is negative and not zero. -/
def canonicalExponent (exponent : List Char) : List Char :=
  match exponent with
  | '-' :: digits =>
    let digits := dropLeadingZeros digits
    if digits.isEmpty then ['0'] else '-' :: digits
  | '+' :: digits => orZero (dropLeadingZeros digits)
  | digits => orZero (dropLeadingZeros digits)

/-- The canonical spelling of a text: `canonicalMantissa` and `canonicalExponent` of its two parts,
where the exponent starts at the first `e` or `E`. -/
def canonical (text : List Char) : List Char :=
  let mantissa := canonicalMantissa (text.takeWhile fun c => !isExponentMark c)
  match text.dropWhile fun c => !isExponentMark c with
  | [] => mantissa
  | _ :: exponent => mantissa ++ 'e' :: canonicalExponent exponent

/-- The literal that a text spells, by `canonical`. It is defined for every text, and the parser
calls it on those of `lexemeAtHead`. -/
def ofText (text : String) : FloatLiteral := ⟨String.ofList (canonical text.toList)⟩

end FloatLiteral

end ShaderMinifier
