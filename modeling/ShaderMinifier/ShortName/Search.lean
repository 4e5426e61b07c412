import ShaderMinifier.ShortName.Block

/-
  The search for a free name in machine words: names are made one after the other, words that are
  never handed out are passed over, and so are names that are taken. The rounds are bounded by the
  words alone: the search has no result where it comes to an index without a name or counts past
  the last word.
-/

namespace ShaderMinifier

namespace ShortName

theorem toNat_succ {index : UInt64} (h : index.toNat + 1 < UInt64.size) :
    (index + 1).toNat = index.toNat + 1 := by
  rw [UInt64.toNat_add, UInt64.toNat_one, Nat.mod_eq_of_lt h]

/-- The first name from an index on that is not `unusable`, and the index behind it. There is none
where `ofWord?` has no name or the index is the last word. -/
def next? (index : UInt64) : Option (String × UInt64) := do
  let name ← ofWord? index
  if h : index.toNat + 1 < UInt64.size then
    if unusable.contains name then next? (index + 1) else return (name, index + 1)
  else none
termination_by UInt64.size - index.toNat
decreasing_by
  rw [toNat_succ h]
  omega

/-- The index that `next?` gives stands behind the one that the loop began with, so `search?`
terminates. -/
theorem lt_of_next? {index behind : UInt64} {name : String}
    (h : next? index = some (name, behind)) : index.toNat < behind.toNat := by
  induction hn : UInt64.size - index.toNat using Nat.strongRecOn generalizing index with
  | ind n ih =>
    rw [next?] at h
    obtain ⟨word, -, h⟩ := Option.bind_eq_some_iff.1 h
    split at h
    · next hsize =>
      have hsucc := toNat_succ hsize
      split at h
      · have hlater := ih _ (by omega) h rfl
        omega
      · cases h
        omega
    · cases h

/-- The first name from an index on that is neither `unusable` nor taken. It asks `next?` again from
behind each name that is taken. -/
def search? (taken : String → Bool) (index : UInt64) : Option String :=
  match _ : next? index with
  | none => none
  | some (name, behind) => if taken name then search? taken behind else some name
termination_by UInt64.size - index.toNat
decreasing_by
  have hlt := lt_of_next? ‹_›
  have hsize := behind.toNat_lt_size
  omega

end ShortName

end ShaderMinifier
