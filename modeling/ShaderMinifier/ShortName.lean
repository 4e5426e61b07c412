import ShaderMinifier.Word

/-
  Short names in a fixed order: shorter before longer, names of one length position by position
  in the order of `trailing`. Keywords and built-in functions are no candidates.
-/

namespace ShaderMinifier

namespace ShortName

/-- The characters that a name may start with, in order: the letters, lower case first.
`Word.isStart` allows more. -/
def leading : List Char := "abcdefghijklmnopqrstuvwxyzABCDEFGHIJKLMNOPQRSTUVWXYZ".toList

/-- The characters that a name may go on with, in order: those of `leading`, then the digits. -/
def trailing : List Char := leading ++ "0123456789".toList

/-- The characters of the name of an index, which has at most one character more than `steps`.
Behind the names of one character stand the 62 extensions of each name by `trailing`, in the order
of the names that they extend. -/
def charsWithin : (steps index : Nat) → List Char
  | 0, index => (leading[index]?).toList
  | steps + 1, index =>
    if index < leading.length then (leading[index]?).toList
    else
      let extension := index - leading.length
      charsWithin steps (extension / trailing.length) ++
        (trailing[extension % trailing.length]?).toList

/-- The characters of the name of an index. A name is never longer than its index plus one, so the
index itself is enough for `charsWithin`. -/
def chars (index : Nat) : List Char := charsWithin index index

/-- The name of this index among all names, those of `unusable` words included. -/
def ofIndex (index : Nat) : String := String.ofList (chars index)

/-- The words that are never handed out: keywords, and built-in functions, which a variable of the
name would hide. -/
def unusable : List String := Word.reserved ++ Word.builtinFunctions

/-- The first `count` names that can be handed out. At most as many indexes as there are `unusable`
words have to be passed over. -/
def candidates (count : Nat) : List String :=
  (((List.range (count + unusable.length)).map ofIndex).filter fun name =>
    !unusable.contains name).take count

/-- The first name from `index` on that is neither `unusable` nor taken, among the next `tries`; the
one after them if there is none. -/
def firstFreeFrom (taken : List String) : (tries index : Nat) → String
  | 0, index => ofIndex index
  | tries + 1, index =>
    if unusable.contains (ofIndex index) || taken.contains (ofIndex index) then
      firstFreeFrom taken tries (index + 1)
    else ofIndex index

/-- The first name that can be handed out and is not `taken`. There are no more names to pass over
than are taken or `unusable`, so the tries of `firstFreeFrom` suffice. -/
def firstFree (taken : List String) : String :=
  firstFreeFrom taken (unusable.length + taken.length) 0

end ShortName

end ShaderMinifier
