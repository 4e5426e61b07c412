import ShaderMinifier.ShortName

/-
  The name of an index in machine words. The names of one length are a block; blocks are passed
  over from the shortest names on, and inside its block the index is written in the base of
  `trailing`, the last character first. A product that does not fit into a word and a look into a
  table past its end give no name.
-/

namespace ShaderMinifier

namespace ShortName

/-- The number of characters that a name may go on with, the length of `trailing` as a machine
word. -/
def radix : UInt64 := UInt64.ofNat trailing.length

/-- The number of names of one length. It is never zero, which is what lets `locate?` terminate. -/
structure Block where
  size : UInt64
  pos : 0 < size.toNat

namespace Block

/-- The names of one character, as many as `leading` has. -/
def first : Block where
  size := UInt64.ofNat leading.length
  pos := by decide

/-- The names of one character more, `radix` times as many, if a word holds their number. -/
def larger? (block : Block) : Option Block :=
  if h : block.size.toNat * radix.toNat < UInt64.size then
    some {
      size := block.size * radix
      pos := by
        rw [UInt64.toNat_mul, Nat.mod_eq_of_lt h]
        exact Nat.mul_pos block.pos (by decide) }
  else none

end Block

/-- The place of an index in its block and the length of the names there, where `block` holds the
names of `length` characters and `rest` names stand between its first one and the index. -/
def locate? (rest : UInt64) (block : Block) (length : Nat) : Option (UInt64 × Nat) :=
  if h : rest < block.size then some (rest, length)
  else do
    let larger ← block.larger?
    locate? (rest - block.size) larger (length + 1)
termination_by rest.toNat
decreasing_by
  have hpos := block.pos
  have hle := UInt64.not_lt.1 h
  rw [UInt64.toNat_sub_of_le _ _ hle]
  have := UInt64.le_iff_toNat_le.1 hle
  omega

/-- Takes `count` characters from the end of a name and puts them before `tail`. What is left of
`rest` belongs to the characters in front. -/
def peel? : (count : Nat) → (rest : UInt64) → (tail : List Char) → Option (UInt64 × List Char)
  | 0, rest, tail => some (rest, tail)
  | count + 1, rest, tail => do
    let last ← trailing[(rest % radix).toNat]?
    peel? count (rest / radix) (last :: tail)

/-- The name of this index, computed in machine words: `locate?` finds its length, `peel?` all its
characters but the first. -/
def ofWord? (index : UInt64) : Option String := do
  let (rest, length) ← locate? index .first 1
  let (rest, tail) ← peel? (length - 1) rest []
  let head ← leading[rest.toNat]?
  return String.ofList (head :: tail)

end ShortName

end ShaderMinifier
