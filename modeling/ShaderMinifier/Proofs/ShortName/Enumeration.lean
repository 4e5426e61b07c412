import ShaderMinifier.Proofs.Lists
import ShaderMinifier.Proofs.ShortName
import ShaderMinifier.ShortName.Block

/-
  The names in machine words. Up to the last block whose size a word holds, every product fits and
  every look into a table finds a character, and the name is the one of the index; from there on
  there is none. In this range the names stand in their order, shorter ones first and names of one
  length position by position, and every word of at most ten letters and digits is reached.
-/

namespace ShaderMinifier

namespace ShortName

/-! ## How many names there are of a length -/

/-- The number of names of at most `length` characters, by recursion: every name is a character or
extends a shorter one. -/
def namesUpTo : (length : Nat) → Nat
  | 0 => 0
  | length + 1 => 52 + namesUpTo length * 62

theorem namesUpTo_succ (length : Nat) :
    namesUpTo (length + 1) = namesUpTo length + 52 * 62 ^ length := by
  induction length with
  | zero => rfl
  | succ length ih =>
    have hpow := pow_succ 62 length
    rw [namesUpTo, ih]
    rw [namesUpTo] at ih
    omega

theorem namesUpTo_mono {m n : Nat} (h : m ≤ n) : namesUpTo m ≤ namesUpTo n := by
  induction h with
  | refl => exact le_rfl
  | step _ ih =>
    rw [namesUpTo_succ]
    omega

theorem length_chars_le_iff {index length : Nat} :
    (chars index).length ≤ length ↔ index < namesUpTo length := by
  induction length generalizing index with
  | zero =>
    obtain ⟨c, cs, hchars, -⟩ := charsWithin_eq_cons (Nat.le_refl index)
    rw [chars, hchars, namesUpTo]
    simp
  | succ length ih =>
    rcases charsWithin_cases (Nat.le_refl index) with ⟨c, hc, heq⟩ | ⟨n, c, hge, -, hle, -, heq⟩
    · have hlt := (List.getElem?_eq_some_iff.1 hc).1
      rw [length_leading] at hlt
      rw [chars, heq, namesUpTo, List.length_singleton]
      omega
    · have hshorter := @ih ((index - 52) / 62)
      rw [chars, heq, charsWithin_congr hle (Nat.le_refl _), ← chars, List.length_append,
        List.length_singleton, namesUpTo]
      omega

/-! ## The order of the names -/

/-- The first character stands before the second in the order of `trailing`. -/
def Earlier (c d : Char) : Prop := trailing.idxOf c < trailing.idxOf d

theorem earlier_of_getElem? {i j : Nat} {c d : Char} (hc : trailing[i]? = some c)
    (hd : trailing[j]? = some d) (h : i < j) : Earlier c d := by
  have hidx : ∀ {k : Nat} {b : Char}, trailing[k]? = some b → trailing.idxOf b = k := by
    intro k b hb
    obtain ⟨hk, rfl⟩ := List.getElem?_eq_some_iff.1 hb
    exact trailing_nodup.idxOf_getElem k hk
  rw [Earlier, hidx hc, hidx hd]
  exact h

theorem trailing_of_leading {i : Nat} {c : Char} (h : leading[i]? = some c) :
    trailing[i]? = some c := by
  rw [trailing, List.getElem?_append_left (List.getElem?_eq_some_iff.1 h).1, h]

theorem shortlex_chars {i j : Nat} (h : i < j) : List.Shortlex Earlier (chars i) (chars j) := by
  induction j using Nat.strongRecOn generalizing i with
  | ind j ih =>
    rcases charsWithin_cases (Nat.le_refl i) with ⟨c, hc, hi⟩ | ⟨n, c, hge, -, hle, hc, hi⟩
    · rcases charsWithin_cases (Nat.le_refl j) with ⟨d, hd, hj⟩ | ⟨m, d, -, -, hle, -, hj⟩
      · rw [chars, chars, hi, hj, List.shortlex_singleton_iff]
        exact earlier_of_getElem? (trailing_of_leading hc) (trailing_of_leading hd) h
      · have hpos := List.length_pos_iff.2 (charsWithin_ne_nil hle)
        rw [chars, chars, hi, hj]
        exact .of_length_lt (by simpa using hpos)
    · rcases charsWithin_cases (Nat.le_refl j) with ⟨d, hd, -⟩ | ⟨m, d, hge', -, hle', hd, hj⟩
      · have hlt := (List.getElem?_eq_some_iff.1 hd).1
        rw [length_leading] at hlt
        omega
      · rw [chars, chars, hi, hj, charsWithin_congr hle (Nat.le_refl _),
          charsWithin_congr hle' (Nat.le_refl _), ← chars, ← chars]
        -- the names that are extended differ, or else the characters behind them
        by_cases hinit : (i - 52) / 62 < (j - 52) / 62
        · exact shortlex_append (ih _ (by omega) hinit) c d
        · have heq : (j - 52) / 62 = (i - 52) / 62 := by omega
          have hearlier := earlier_of_getElem? hc hd (by omega)
          rw [heq]
          exact .append_left ((List.shortlex_singleton_iff c d).2 hearlier) _

/-! ## Passing over the blocks -/

theorem toNat_radix : radix.toNat = 62 := by decide

namespace Block

/-- The `Block` holds the names of one character more than `length`, 52 times a power of 62. -/
def Holds (block : Block) (length : Nat) : Prop := block.size.toNat = 52 * 62 ^ length

theorem holds_first : first.Holds 0 := rfl

theorem fits_iff {length : Nat} : 52 * 62 ^ length < UInt64.size ↔ length ≤ 9 := by
  constructor
  · intro h
    by_contra hlength
    have hpow : 62 ^ 10 ≤ 62 ^ length := Nat.pow_le_pow_right (by decide) (by omega)
    have : UInt64.size ≤ 52 * 62 ^ 10 := by decide
    omega
  · intro h
    have hpow : 62 ^ length ≤ 62 ^ 9 := Nat.pow_le_pow_right (by decide) h
    have : 52 * 62 ^ 9 < UInt64.size := by decide
    omega

theorem larger?_eq_some {block : Block} {length : Nat} (h : block.Holds length)
    (hlength : length < 9) :
    ∃ larger, block.larger? = some larger ∧ larger.Holds (length + 1) := by
  have hproduct : block.size.toNat * radix.toNat = 52 * 62 ^ (length + 1) := by
    rw [h, toNat_radix, pow_succ]
    omega
  have hfits : block.size.toNat * radix.toNat < UInt64.size := by
    rw [hproduct, fits_iff]
    omega
  refine ⟨_, dif_pos hfits, ?_⟩
  rw [Holds, UInt64.toNat_mul, hproduct]
  exact Nat.mod_eq_of_lt (hproduct ▸ hfits)

theorem larger?_eq_none {block : Block} (h : block.Holds 9) : block.larger? = none := by
  refine dif_neg ?_
  rw [h, toNat_radix]
  decide

end Block

theorem locate?_eq_some {rest : UInt64} {block : Block} {length : Nat} (hblock : block.Holds length)
    (hlength : length ≤ 9) (h : namesUpTo length + rest.toNat < namesUpTo 10) :
    ∃ place longer, locate? rest block (length + 1) = some (place, longer + 1) ∧
      place.toNat < 52 * 62 ^ longer ∧
      namesUpTo longer + place.toNat = namesUpTo length + rest.toNat := by
  induction hn : 9 - length generalizing rest block length with
  | zero =>
    obtain rfl : length = 9 := by omega
    have hlt : rest < block.size := by
      have hsize : namesUpTo 10 = namesUpTo 9 + 52 * 62 ^ 9 := namesUpTo_succ 9
      rw [UInt64.lt_iff_toNat_lt, hblock]
      omega
    rw [locate?, dif_pos hlt]
    exact ⟨rest, 9, rfl, hblock ▸ UInt64.lt_iff_toNat_lt.1 hlt, rfl⟩
  | succ n ih =>
    rw [locate?]
    by_cases hlt : rest < block.size
    · rw [dif_pos hlt]
      exact ⟨rest, length, rfl, hblock ▸ UInt64.lt_iff_toNat_lt.1 hlt, rfl⟩
    · obtain ⟨larger, hlarger, hholds⟩ := Block.larger?_eq_some hblock (by omega)
      have hle := UInt64.not_lt.1 hlt
      have hrest : (rest - block.size).toNat = rest.toNat - 52 * 62 ^ length := by
        rw [UInt64.toNat_sub_of_le _ _ hle, hblock]
      have hge : 52 * 62 ^ length ≤ rest.toNat := hblock ▸ UInt64.le_iff_toNat_le.1 hle
      have hsize := namesUpTo_succ length
      rw [dif_neg hlt, hlarger, Option.bind_eq_bind, Option.bind_some]
      obtain ⟨place, longer, hfound, hplace, heq⟩ :=
        @ih (rest - block.size) larger (length + 1) hholds (by omega) (by omega) (by omega)
      exact ⟨place, longer, hfound, hplace, by omega⟩

theorem locate?_eq_none {rest : UInt64} {block : Block} {length : Nat} (hblock : block.Holds length)
    (hlength : length ≤ 9) (h : namesUpTo 10 ≤ namesUpTo length + rest.toNat) :
    locate? rest block (length + 1) = none := by
  induction hn : 9 - length generalizing rest block length with
  | zero =>
    obtain rfl : length = 9 := by omega
    have hnot : ¬ rest < block.size := by
      have hsize : namesUpTo 10 = namesUpTo 9 + 52 * 62 ^ 9 := namesUpTo_succ 9
      rw [UInt64.lt_iff_toNat_lt, hblock]
      omega
    rw [locate?, dif_neg hnot, Block.larger?_eq_none hblock]
    rfl
  | succ n ih =>
    have hsize := namesUpTo_succ length
    have hmono := namesUpTo_mono (by omega : length + 1 ≤ 10)
    have hge : 52 * 62 ^ length ≤ rest.toNat := by omega
    have hle : block.size ≤ rest := by
      rw [UInt64.le_iff_toNat_le, hblock]
      exact hge
    have hrest : (rest - block.size).toNat = rest.toNat - 52 * 62 ^ length := by
      rw [UInt64.toNat_sub_of_le _ _ hle, hblock]
    obtain ⟨larger, hlarger, hholds⟩ := Block.larger?_eq_some hblock (by omega)
    rw [locate?, dif_neg (UInt64.not_lt.2 hle), hlarger, Option.bind_eq_bind, Option.bind_some]
    exact ih hholds (by omega) (by omega) (by omega)

/-! ## The characters of a name -/

/-- The characters that `peel?` takes from a place in a block, with the head of the name before
them, are those of the name. -/
theorem peel?_eq_some {length : Nat} {place : UInt64} (h : place.toNat < 52 * 62 ^ length)
    (tail : List Char) :
    ∃ rest more head, peel? length place tail = some (rest, more) ∧
      leading[rest.toNat]? = some head ∧
      head :: more = chars (namesUpTo length + place.toNat) ++ tail := by
  induction length generalizing place tail with
  | zero =>
    have hlt : place.toNat < leading.length := by simpa [length_leading] using h
    have hhead := List.getElem?_eq_getElem hlt
    refine ⟨place, tail, _, rfl, hhead, ?_⟩
    rw [namesUpTo, Nat.zero_add, chars_of_leading hhead, List.singleton_append]
  | succ length ih =>
    have hmod : (place % radix).toNat = place.toNat % 62 := by rw [UInt64.toNat_mod, toNat_radix]
    have hdiv : (place / radix).toNat = place.toNat / 62 := by rw [UInt64.toNat_div, toNat_radix]
    have hlt : (place % radix).toNat < trailing.length := by
      rw [hmod, length_trailing]
      omega
    have hlast := List.getElem?_eq_getElem hlt
    have hquotient : (place / radix).toNat < 52 * 62 ^ length := by
      rw [pow_succ] at h
      omega
    obtain ⟨rest, more, head, hpeel, hhead, hname⟩ :=
      ih hquotient (trailing[(place % radix).toNat] :: tail)
    refine ⟨rest, more, head, ?_, hhead, ?_⟩
    · rw [peel?, hlast, Option.bind_eq_bind, Option.bind_some, hpeel]
    · -- the name one shorter is extended by the last character
      have hindex : namesUpTo (length + 1) + place.toNat =
          52 + (namesUpTo length + (place / radix).toNat) * 62 + (place % radix).toNat := by
        rw [namesUpTo]
        omega
      rw [hname, hindex, chars_extension hlast, List.append_assoc, List.singleton_append]

theorem ofWord?_eq_some {index : UInt64} (h : index.toNat < namesUpTo 10) :
    ofWord? index = some (ofIndex index.toNat) := by
  obtain ⟨place, longer, hlocate, hplace, heq⟩ :=
    locate?_eq_some Block.holds_first (by decide) (by simpa [namesUpTo] using h)
  obtain ⟨rest, more, head, hpeel, hhead, hname⟩ := peel?_eq_some hplace []
  have hindex : namesUpTo longer + place.toNat = index.toNat := by simpa [namesUpTo] using heq
  rw [List.append_nil, hindex] at hname
  simp only [ofWord?, hlocate, Option.bind_eq_bind, Option.bind_some, Nat.add_sub_cancel, hpeel,
    hhead, Option.pure_def, hname, ofIndex]

theorem ofWord?_eq_none {index : UInt64} (h : namesUpTo 10 ≤ index.toNat) :
    ofWord? index = none := by
  have hlocate : locate? index .first 1 = none :=
    locate?_eq_none Block.holds_first (by decide) (by simpa [namesUpTo] using h)
  simp only [ofWord?, hlocate, Option.bind_eq_bind, Option.bind_none]

/-- In machine words there is a name (`ofWord?`) for exactly the indexes below the end of the tenth
block, and it is the name of the index. The names stand in their order, shorter before longer and
then position by position in the order of `trailing`, and every word of at most ten characters is
one of them. -/
theorem ofWord?_enumerates :
    (∀ index : UInt64, (ofWord? index).isSome ↔ index.toNat < 715468311887765436) ∧
      (∀ i j : UInt64, i < j → j.toNat < 715468311887765436 →
        ∃ earlier later, ofWord? i = some earlier ∧ ofWord? j = some later ∧
          earlier = ofIndex i.toNat ∧ later = ofIndex j.toNat ∧
          List.Shortlex Earlier earlier.toList later.toList) ∧
      ∀ word : String, IsName word → word.length ≤ 10 →
        ∃ index : UInt64, index.toNat < 715468311887765436 ∧ ofWord? index = some word := by
  have hcount : namesUpTo 10 = 715468311887765436 := by decide
  rw [← hcount]
  refine ⟨fun index => ?_, fun i j hij hj => ?_, fun word hword hlength => ?_⟩
  · by_cases h : index.toNat < namesUpTo 10
    · simp [ofWord?_eq_some h, h]
    · simp [ofWord?_eq_none (Nat.not_lt.1 h), h]
  · have hlt := UInt64.lt_iff_toNat_lt.1 hij
    refine ⟨_, _, ofWord?_eq_some (hlt.trans hj), ofWord?_eq_some hj, rfl, rfl, ?_⟩
    rw [ofIndex, ofIndex, String.toList_ofList, String.toList_ofList]
    exact shortlex_chars hlt
  · obtain ⟨index, rfl⟩ := isName_iff.1 hword
    have hindex : index < namesUpTo 10 := by
      rw [← length_chars_le_iff]
      simpa [ofIndex] using hlength
    have hsize : index < UInt64.size := by
      have : namesUpTo 10 < UInt64.size := by decide
      omega
    have hnat : (UInt64.ofNat index).toNat = index := UInt64.toNat_ofNat_of_lt' hsize
    refine ⟨.ofNat index, by rwa [hnat], ?_⟩
    rw [ofWord?_eq_some (by rwa [hnat]), hnat]

end ShortName

end ShaderMinifier
