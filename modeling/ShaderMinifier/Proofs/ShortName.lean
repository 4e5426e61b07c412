import ShaderMinifier.Proofs.Grammar.Token
import ShaderMinifier.Proofs.Lists
import ShaderMinifier.ShortName

/-
  Short names are all different, so one that is not taken is found within as many tries as names
  are taken, and it is the first such name: which name that is depends on nothing but on what is
  taken. Every word of letters and digits that starts with a letter is a short name, the shorter
  words before the longer ones, so none that could be given is shorter than the one that is found.
-/

namespace ShaderMinifier

namespace ShortName

/-! ## All names are different -/

theorem length_leading : leading.length = 52 := by decide

theorem length_trailing : trailing.length = 62 := by decide

theorem leading_nodup : leading.Nodup := by decide

theorem trailing_nodup : trailing.Nodup := by decide

theorem charsWithin_cases {steps index : Nat} (h : index ≤ steps) :
    (∃ c, leading[index]? = some c ∧ charsWithin steps index = [c]) ∨
      ∃ n c, 52 ≤ index ∧ n < steps ∧ (index - 52) / 62 ≤ n ∧
        trailing[(index - 52) % 62]? = some c ∧
        charsWithin steps index = charsWithin n ((index - 52) / 62) ++ [c] := by
  by_cases hlt : index < leading.length
  · have hc := List.getElem?_eq_getElem hlt
    refine .inl ⟨leading[index], hc, ?_⟩
    cases steps with
    | zero => rw [charsWithin, hc, Option.toList_some]
    | succ steps => rw [charsWithin, if_pos hlt, hc, Option.toList_some]
  · have hge : 52 ≤ index := by rwa [length_leading, Nat.not_lt] at hlt
    obtain ⟨n, rfl⟩ : ∃ n, steps = n + 1 := ⟨steps - 1, by omega⟩
    have hmod : (index - 52) % 62 < trailing.length := by
      rw [length_trailing]
      omega
    have hc := List.getElem?_eq_getElem hmod
    refine .inr ⟨n, trailing[(index - 52) % 62], hge, Nat.lt_succ_self n, by omega, hc, ?_⟩
    rw [charsWithin, if_neg hlt]
    simp only [length_leading, length_trailing, hc, Option.toList_some]

theorem charsWithin_ne_nil {steps index : Nat} (h : index ≤ steps) :
    charsWithin steps index ≠ [] := by
  rcases charsWithin_cases h with ⟨c, -, hc⟩ | ⟨n, c, -, -, -, -, hc⟩ <;> simp [hc]

theorem charsWithin_inj {steps steps' i j : Nat} (hi : i ≤ steps) (hj : j ≤ steps')
    (h : charsWithin steps i = charsWithin steps' j) : i = j := by
  induction steps using Nat.strongRecOn generalizing steps' i j with
  | ind steps ih =>
    rcases charsWithin_cases hi with ⟨c, hc, hi'⟩ | ⟨n, c, hi52, hn, hin, hc, hi'⟩ <;>
      rcases charsWithin_cases hj with ⟨d, hd, hj'⟩ | ⟨m, d, hj52, hm, hjm, hd, hj'⟩ <;>
      rw [hi', hj'] at h
    · obtain rfl := List.singleton_inj.1 h
      exact eq_of_getElem? leading_nodup hc hd
    · exact absurd (eq_nil_of_append_singleton h.symm) (charsWithin_ne_nil hjm)
    · exact absurd (eq_nil_of_append_singleton h) (charsWithin_ne_nil hin)
    · obtain ⟨hinit, hlast⟩ := List.append_inj' h rfl
      obtain rfl := List.singleton_inj.1 hlast
      have hdiv := ih n hn hin hjm hinit
      have hmod := eq_of_getElem? trailing_nodup hc hd
      omega

theorem ofIndex_inj {i j : Nat} (h : ofIndex i = ofIndex j) : i = j :=
  charsWithin_inj (Nat.le_refl i) (Nat.le_refl j) (String.ofList_injective h)

/-! ## The first name that is not taken -/

/-- The name of this index cannot be given: `firstFreeFrom` passes over it. -/
def IsTaken (taken : List String) (index : Nat) : Prop :=
  ofIndex index ∈ unusable ∨ ofIndex index ∈ taken

/-- No more names in a row are taken (`IsTaken`) than there are names that cannot be given, since
all names are different. -/
theorem le_of_isTaken {taken : List String} {count : Nat} (h : ∀ i < count, IsTaken taken i) :
    count ≤ unusable.length + taken.toFinset.card := by
  have hnodup : ((List.range count).map ofIndex).Nodup :=
    List.nodup_range.map fun _ _ => ofIndex_inj
  have hsubset : (List.range count).map ofIndex ⊆ unusable ++ taken.dedup := by
    intro name hname
    obtain ⟨index, hindex, rfl⟩ := List.mem_map.1 hname
    rw [List.mem_append, List.mem_dedup]
    exact h index (List.mem_range.1 hindex)
  have hlength := (hnodup.subperm hsubset).length_le
  rwa [List.length_map, List.length_range, List.length_append, ← List.card_toFinset] at hlength

/-- Among one name more than there are names that cannot be given, one is not `IsTaken`. -/
theorem exists_free (taken : List String) :
    ∃ index, index ≤ unusable.length + taken.length ∧ ¬ IsTaken taken index := by
  by_contra hall
  push Not at hall
  have hle := le_of_isTaken fun index hindex => hall index (Nat.lt_succ_iff.1 hindex)
  have hcard := taken.toFinset_card_le
  omega

theorem firstFreeFrom_eq {taken : List String} {least : Nat} (hfree : ¬ IsTaken taken least)
    (hleast : ∀ index < least, IsTaken taken index) {tries index : Nat} (hindex : index ≤ least)
    (htries : least ≤ index + tries) : firstFreeFrom taken tries index = ofIndex least := by
  induction tries generalizing index with
  | zero =>
    obtain rfl : index = least := by omega
    rfl
  | succ tries ih =>
    rw [firstFreeFrom]
    by_cases heq : index = least
    · subst heq
      rw [if_neg (by simpa [IsTaken] using hfree)]
    · rw [if_pos (by simpa [IsTaken] using hleast index (by omega))]
      exact ih (by omega) (by omega)

theorem firstFree_spec (taken : List String) :
    ∃ least, ¬ IsTaken taken least ∧ (∀ index < least, IsTaken taken index) ∧
      firstFree taken = ofIndex least := by
  classical
  obtain ⟨index, hindex, hfree⟩ := exists_free taken
  have hexists : ∃ index, ¬ IsTaken taken index := ⟨index, hfree⟩
  refine ⟨Nat.find hexists, Nat.find_spec hexists, fun i hi => ?_, ?_⟩
  · exact not_not.1 (Nat.find_min hexists hi)
  · refine firstFreeFrom_eq (Nat.find_spec hexists) (fun i hi => ?_) (Nat.zero_le _) ?_
    · exact not_not.1 (Nat.find_min hexists hi)
    · have hle := Nat.find_min' hexists hfree
      omega

theorem firstFree_not_mem (taken : List String) : firstFree taken ∉ taken := by
  obtain ⟨least, hfree, -, heq⟩ := firstFree_spec taken
  rw [heq]
  exact fun hmem => hfree (.inr hmem)

theorem firstFree_not_mem_unusable (taken : List String) : firstFree taken ∉ unusable := by
  obtain ⟨least, hfree, -, heq⟩ := firstFree_spec taken
  rw [heq]
  exact fun hmem => hfree (.inl hmem)

theorem firstFree_of_subset {taken taken' : List String}
    (hsub : ∀ name ∈ taken, name ∈ taken') (hfree : firstFree taken ∉ taken') :
    firstFree taken' = firstFree taken := by
  obtain ⟨least, -, hleast, heq⟩ := firstFree_spec taken
  obtain ⟨least', hfree', hleast', heq'⟩ := firstFree_spec taken'
  have hunusable := firstFree_not_mem_unusable taken
  rw [heq] at hfree hunusable
  rcases Nat.lt_trichotomy least least' with hlt | rfl | hlt
  · exact absurd (hleast' least hlt) (fun h => h.elim hunusable hfree)
  · rw [heq, heq']
  · exact absurd ((hleast least' hlt).imp_right (hsub _)) hfree'

theorem firstFree_congr {taken taken' : List String} (h : ∀ name, name ∈ taken ↔ name ∈ taken') :
    firstFree taken = firstFree taken' := by
  obtain ⟨least, hfree, hleast, heq⟩ := firstFree_spec taken
  obtain ⟨least', hfree', hleast', heq'⟩ := firstFree_spec taken'
  have htaken : ∀ index, IsTaken taken index ↔ IsTaken taken' index :=
    fun index => or_congr_right (h (ofIndex index))
  have hsame : least = least' := by
    rcases Nat.lt_trichotomy least least' with hlt | hsame | hlt
    · exact absurd ((htaken least).2 (hleast' least hlt)) hfree
    · exact hsame
    · exact absurd ((htaken least').1 (hleast least' hlt)) hfree'
  rw [heq, heq', hsame]

/-! ## Names may be declared -/

theorem charsWithin_eq_cons {steps index : Nat} (h : index ≤ steps) :
    ∃ c cs, charsWithin steps index = c :: cs ∧ c ∈ leading ∧ ∀ d ∈ cs, d ∈ trailing := by
  induction steps using Nat.strongRecOn generalizing index with
  | ind steps ih =>
    rcases charsWithin_cases h with ⟨c, hc, heq⟩ | ⟨n, d, -, hn, hle, hd, heq⟩
    · exact ⟨c, [], heq, List.mem_of_getElem? hc, by simp⟩
    · obtain ⟨c, cs, hcs, hc, htrailing⟩ := ih n hn hle
      refine ⟨c, cs ++ [d], by rw [heq, hcs, List.cons_append], hc, ?_⟩
      rw [List.forall_mem_append, List.forall_mem_singleton]
      exact ⟨htrailing, List.mem_of_getElem? hd⟩

theorem isWord_ofIndex (index : Nat) : Word.isWord (ofIndex index) = true := by
  obtain ⟨c, cs, heq, hc, hcs⟩ := charsWithin_eq_cons (Nat.le_refl index)
  have hstart : leading.all Word.isStart = true := by decide
  have hpart : trailing.all Word.isPart = true := by decide
  rw [List.all_eq_true] at hstart hpart
  rw [Word.isWord_iff]
  exact ⟨c, cs, by rw [ofIndex, String.toList_ofList, chars, heq], hstart c hc,
    fun d hd => hpart d (hcs d hd)⟩

/-- No name has an underscore, so none belongs to the implementation (`isBuiltinVariable`). -/
theorem isBuiltinVariable_ofIndex (index : Nat) :
    Word.isBuiltinVariable (ofIndex index) = false := by
  obtain ⟨c, cs, heq, hc, hcs⟩ := charsWithin_eq_cons (Nat.le_refl index)
  rw [Word.isBuiltinVariable, ofIndex, String.toList_ofList, chars, heq, ← Bool.not_eq_true,
    List.isPrefixOf_iff_prefix]
  rintro ⟨rest, hrest⟩
  have hunderscore : '_' ∈ cs := by
    simp only [List.cons_append, List.cons.injEq] at hrest
    rw [← hrest.2]
    simp
  exact absurd (hcs '_' hunderscore) (by decide)

theorem declarable_firstFree (taken : List String) : Word.Declarable (firstFree taken) := by
  obtain ⟨least, hfree, -, heq⟩ := firstFree_spec taken
  rw [heq]
  refine ⟨isWord_ofIndex least, ?_, isBuiltinVariable_ofIndex least⟩
  rw [← Bool.not_eq_true, Word.isReserved, List.contains_iff_mem]
  exact fun hreserved => hfree (.inl (List.mem_append_left _ hreserved))

/-! ## All words are names, the shorter ones first -/

/-- The word is a letter with letters and digits behind it; by `exists_chars` these words are the
names. -/
def IsName (word : String) : Prop :=
  ∃ c cs, word.toList = c :: cs ∧ c.isAlpha = true ∧ ∀ d ∈ cs, d.isAlphanum = true

theorem charsWithin_congr {steps steps' index : Nat} (h : index ≤ steps) (h' : index ≤ steps') :
    charsWithin steps index = charsWithin steps' index := by
  induction steps using Nat.strongRecOn generalizing steps' index with
  | ind steps ih =>
    rcases charsWithin_cases h with ⟨c, hc, heq⟩ | ⟨n, c, hge, hn, hle, hc, heq⟩ <;>
      rcases charsWithin_cases h' with ⟨d, hd, heq'⟩ | ⟨m, d, hge', hm, hle', hd, heq'⟩ <;>
      rw [heq, heq']
    · rw [Option.some.inj (hc.symm.trans hd)]
    · have hlt := (List.getElem?_eq_some_iff.1 hc).1
      rw [length_leading] at hlt
      omega
    · have hlt := (List.getElem?_eq_some_iff.1 hd).1
      rw [length_leading] at hlt
      omega
    · rw [ih n hn hle hle', Option.some.inj (hc.symm.trans hd)]

theorem chars_of_leading {index : Nat} {c : Char} (h : leading[index]? = some c) :
    chars index = [c] := by
  rcases charsWithin_cases (Nat.le_refl index) with ⟨d, hd, heq⟩ | ⟨n, d, hge, -⟩
  · rw [chars, heq, Option.some.inj (hd.symm.trans h)]
  · have hlt := (List.getElem?_eq_some_iff.1 h).1
    rw [length_leading] at hlt
    omega

/-- Behind the names of one character stand the extensions of all names: the recursion of `chars`
without its bound. -/
theorem chars_extension {index k : Nat} {c : Char} (h : trailing[k]? = some c) :
    chars (52 + index * 62 + k) = chars index ++ [c] := by
  have hk := (List.getElem?_eq_some_iff.1 h).1
  rw [length_trailing] at hk
  rcases charsWithin_cases (Nat.le_refl (52 + index * 62 + k)) with
    ⟨d, hd, -⟩ | ⟨n, d, -, -, hle, hd, heq⟩
  · have hlt := (List.getElem?_eq_some_iff.1 hd).1
    rw [length_leading] at hlt
    omega
  · have hdiv : (52 + index * 62 + k - 52) / 62 = index := by omega
    have hmod : (52 + index * 62 + k - 52) % 62 = k := by omega
    rw [hdiv] at hle heq
    rw [hmod] at hd
    rw [chars, heq, charsWithin_congr hle (Nat.le_refl index), ← chars,
      Option.some.inj (hd.symm.trans h)]

theorem length_chars_mono {i j : Nat} (h : i ≤ j) : (chars i).length ≤ (chars j).length := by
  induction j using Nat.strongRecOn generalizing i with
  | ind j ih =>
    rcases charsWithin_cases (Nat.le_refl i) with ⟨c, hc, heq⟩ | ⟨n, c, hge, hn, hle, hc, heq⟩
    · obtain ⟨d, ds, hd, -⟩ := charsWithin_eq_cons (Nat.le_refl j)
      rw [chars, chars, heq, hd]
      simp
    · rcases charsWithin_cases (Nat.le_refl j) with
        ⟨d, hd, -⟩ | ⟨m, d, hge', hm, hle', hd, heq'⟩
      · have hlt := (List.getElem?_eq_some_iff.1 hd).1
        rw [length_leading] at hlt
        omega
      · have hsmaller := ih ((j - 52) / 62) (by omega) (i := (i - 52) / 62) (by omega)
        rw [chars, chars, heq, heq', List.length_append, List.length_append,
          charsWithin_congr hle (Nat.le_refl _), charsWithin_congr hle' (Nat.le_refl _)]
        exact Nat.add_le_add_right hsmaller 1

theorem length_ofIndex_mono {i j : Nat} (h : i ≤ j) :
    (ofIndex i).length ≤ (ofIndex j).length := by
  rw [ofIndex, ofIndex, String.length_ofList, String.length_ofList]
  exact length_chars_mono h

/-- Every letter and every digit is below the end of the lower case letters, so a statement about
`isAlphanum` can be checked one by one. -/
theorem mem_of_isAlphanum {p : Char → Bool} {chars : List Char}
    (hp : ∀ c, p c = true → c.isAlphanum = true)
    (hchars : ∀ n < 123, p (Char.ofNat n) = true → Char.ofNat n ∈ chars) {c : Char}
    (hc : p c = true) : c ∈ chars := by
  have hlt : c.toNat < 123 := by
    have halnum := hp c hc
    simp only [Char.isAlphanum, Char.isAlpha, Char.isUpper, Char.isLower, Char.isDigit,
      Bool.or_eq_true, decide_eq_true_eq, ge_iff_le, Bool.and_eq_true, UInt32.le_iff_toNat_le,
      Char.toNat_val] at halnum
    rcases halnum with (⟨_, h⟩ | ⟨_, h⟩) | ⟨_, h⟩ <;> exact Nat.lt_of_le_of_lt h (by decide)
  have hmem := hchars c.toNat hlt
  rw [Char.ofNat_toNat] at hmem
  exact hmem hc

theorem mem_leading_iff {c : Char} : c ∈ leading ↔ c.isAlpha = true := by
  constructor
  · have hall : leading.all Char.isAlpha = true := by decide
    exact List.all_eq_true.1 hall c
  · exact mem_of_isAlphanum (fun c hc => by simp [Char.isAlphanum, hc]) (by decide +kernel)

theorem mem_trailing_iff {c : Char} : c ∈ trailing ↔ c.isAlphanum = true := by
  constructor
  · have hall : trailing.all Char.isAlphanum = true := by decide
    exact List.all_eq_true.1 hall c
  · exact mem_of_isAlphanum (fun _ hc => hc) (by decide +kernel)

/-- Every word of a character of `leading` and some of `trailing` is a name, `chars` of some
index. -/
theorem exists_chars {c : Char} {cs : List Char} (hc : c ∈ leading) (hcs : ∀ d ∈ cs, d ∈ trailing) :
    ∃ index, chars index = c :: cs := by
  induction cs using List.reverseRecOn with
  | nil =>
    obtain ⟨index, hindex⟩ := List.mem_iff_getElem?.1 hc
    exact ⟨index, chars_of_leading hindex⟩
  | append_singleton cs d ih =>
    rw [List.forall_mem_append, List.forall_mem_singleton] at hcs
    obtain ⟨index, hindex⟩ := ih hcs.1
    obtain ⟨k, hk⟩ := List.mem_iff_getElem?.1 hcs.2
    exact ⟨52 + index * 62 + k, by rw [chars_extension hk, hindex, List.cons_append]⟩

theorem isName_iff {word : String} : IsName word ↔ ∃ index, ofIndex index = word := by
  constructor
  · rintro ⟨c, cs, hword, hc, hcs⟩
    obtain ⟨index, hindex⟩ := exists_chars (mem_leading_iff.2 hc)
      fun d hd => mem_trailing_iff.2 (hcs d hd)
    exact ⟨index, by rw [ofIndex, hindex, ← hword, String.ofList_toList]⟩
  · rintro ⟨index, rfl⟩
    obtain ⟨c, cs, heq, hc, hcs⟩ := charsWithin_eq_cons (Nat.le_refl index)
    exact ⟨c, cs, by rw [ofIndex, String.toList_ofList, chars, heq], mem_leading_iff.1 hc,
      fun d hd => mem_trailing_iff.1 (hcs d hd)⟩

/-- The word can be given where these names are `taken`, stated without the enumeration of names. -/
structure Usable (taken : List String) (word : String) : Prop where
  isName : IsName word
  notReserved : Word.isReserved word = false
  notBuiltin : Word.isBuiltinFunction word = false
  notTaken : word ∉ taken

theorem not_mem_unusable_iff {word : String} :
    word ∉ unusable ↔ Word.isReserved word = false ∧ Word.isBuiltinFunction word = false := by
  simp [unusable, Word.isReserved, Word.isBuiltinFunction]

theorem usable_firstFree (taken : List String) : Usable taken (firstFree taken) := by
  obtain ⟨least, -, -, heq⟩ := firstFree_spec taken
  obtain ⟨hreserved, hbuiltin⟩ := not_mem_unusable_iff.1 (firstFree_not_mem_unusable taken)
  exact ⟨isName_iff.2 ⟨least, heq.symm⟩, hreserved, hbuiltin, firstFree_not_mem taken⟩

theorem Usable.length_firstFree_le {taken : List String} {word : String} (h : Usable taken word) :
    (firstFree taken).length ≤ word.length := by
  obtain ⟨index, rfl⟩ := isName_iff.1 h.isName
  obtain ⟨least, -, hleast, heq⟩ := firstFree_spec taken
  rw [heq]
  refine length_ofIndex_mono (Nat.not_lt.1 fun hlt => ?_)
  exact (hleast index hlt).elim (not_mem_unusable_iff.2 ⟨h.notReserved, h.notBuiltin⟩) h.notTaken

end ShortName

end ShaderMinifier
