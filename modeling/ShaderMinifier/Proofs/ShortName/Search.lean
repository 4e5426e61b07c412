import ShaderMinifier.Proofs.ShortName.Enumeration
import ShaderMinifier.ShortName.Search

/-
  The search in machine words ends. Names are all different, so at most as many are passed over as
  are unusable or taken; as long as these are fewer than the names of at most ten characters, the
  search meets a free name before the words run out, and it is the name that `firstFree` gives.
  Since the names stand in their order and every word is one of them, no word that can be given
  comes before it.
-/

namespace ShaderMinifier

namespace ShortName

/-! ## The loops -/

/-- Behind an index that has a name (`namesUpTo`) there is one more, so `next?` can count on. -/
theorem succ_lt_size {index : UInt64} (h : index.toNat < namesUpTo 10) :
    index.toNat + 1 < UInt64.size := by
  have hsize : namesUpTo 10 < UInt64.size := by decide
  omega

theorem next?_of_name {index : UInt64} (h : index.toNat < namesUpTo 10) :
    next? index = if ofIndex index.toNat ∈ unusable then next? (index + 1)
      else some (ofIndex index.toNat, index + 1) := by
  rw [next?, ofWord?_eq_some h, Option.bind_eq_bind, Option.bind_some, dif_pos (succ_lt_size h)]
  simp only [List.contains_iff_mem, Option.pure_def]

theorem next?_eq_some {last : Nat} (hlast : last < namesUpTo 10)
    (husable : ofIndex last ∉ unusable) {index : UInt64} (hindex : index.toNat ≤ last) :
    ∃ found behind, next? index = some (ofIndex found, behind) ∧ behind.toNat = found + 1 ∧
      index.toNat ≤ found ∧ found ≤ last ∧ ofIndex found ∉ unusable := by
  induction hn : last - index.toNat generalizing index with
  | zero =>
    obtain rfl : index.toNat = last := by omega
    refine ⟨index.toNat, index + 1, ?_, toNat_succ (succ_lt_size hlast), le_rfl, le_rfl, husable⟩
    rw [next?_of_name hlast, if_neg husable]
  | succ n ih =>
    have hname := Nat.lt_of_le_of_lt hindex hlast
    have hsucc := toNat_succ (succ_lt_size hname)
    rw [next?_of_name hname]
    by_cases hunusable : ofIndex index.toNat ∈ unusable
    · have hnext : (index + 1).toNat ≤ last := by omega
      obtain ⟨found, behind, hfound, hbehind, hge, hle, hfree⟩ := ih hnext (by omega)
      exact ⟨found, behind, by rw [if_pos hunusable, hfound], hbehind, by omega, hle, hfree⟩
    · exact ⟨index.toNat, index + 1, if_neg hunusable, hsucc, le_rfl, hindex, hunusable⟩

theorem search?_of_next? {taken : String → Bool} {index behind : UInt64} {name : String}
    (h : next? index = some (name, behind)) :
    search? taken index = if taken name then search? taken behind else some name := by
  rw [search?]
  split
  · next hnext =>
    rw [h] at hnext
    cases hnext
  · next hnext =>
    rw [h] at hnext
    cases hnext
    rfl

theorem search?_eq_some {taken : List String} {least : Nat} (hfree : ¬ IsTaken taken least)
    (hleast : ∀ i < least, IsTaken taken i) (hlast : least < namesUpTo 10) {index : UInt64}
    (hindex : index.toNat ≤ least) : search? taken.contains index = some (ofIndex least) := by
  induction hn : least - index.toNat using Nat.strongRecOn generalizing index with
  | ind n ih =>
    obtain ⟨found, behind, hnext, hbehind, hge, hle, husable⟩ :=
      next?_eq_some hlast (fun h => hfree (.inl h)) hindex
    rw [search?_of_next? hnext]
    rcases Nat.lt_or_eq_of_le hle with hlt | rfl
    · -- an earlier name that is not unusable is taken
      have htaken := (hleast found hlt).resolve_left husable
      rw [if_pos (List.contains_iff_mem.2 htaken)]
      exact ih (least - behind.toNat) (by omega) (by omega) rfl
    · have hnot : ofIndex found ∉ taken := fun h => hfree (.inr h)
      rw [if_neg fun h => hnot (List.contains_iff_mem.1 h)]

/-- Fewer than `10 ^ 17` taken names leave a free one among those that a word holds, and `search?`
finds it as `firstFree` does. -/
theorem search?_eq_firstFree {taken : List String} (h : taken.toFinset.card < 10 ^ 17) :
    search? taken.contains 0 = some (firstFree taken) := by
  obtain ⟨least, hfree, hleast, heq⟩ := firstFree_spec taken
  have hle := le_of_isTaken hleast
  have hunusable : unusable.length ≤ 200 := by decide +kernel
  have hcount : namesUpTo 10 = 715468311887765436 := by decide
  rw [heq]
  exact search?_eq_some hfree hleast (by omega) (Nat.zero_le least)

/-! ## The order -/

instance : Std.Asymm Earlier := ⟨fun _ _ h => Nat.lt_asymm h⟩

/-- The word stands before the other one in the order of the names, `Shortlex` by `Earlier`. -/
def Before (word other : String) : Prop := List.Shortlex Earlier word.toList other.toList

theorem not_before_of_le {i j : Nat} (h : i ≤ j) : ¬ Before (ofIndex j) (ofIndex i) := by
  rw [Before, ofIndex, ofIndex, String.toList_ofList, String.toList_ofList]
  rcases Nat.lt_or_eq_of_le h with hlt | rfl
  · exact Std.Asymm.asymm _ _ (shortlex_chars hlt)
  · exact fun hself => Std.Asymm.asymm _ _ hself hself

theorem Usable.not_before_firstFree {taken : List String} {word : String} (h : Usable taken word) :
    ¬ Before word (firstFree taken) := by
  obtain ⟨index, rfl⟩ := isName_iff.1 h.isName
  obtain ⟨least, -, hleast, heq⟩ := firstFree_spec taken
  rw [heq]
  refine not_before_of_le (Nat.not_lt.1 fun hlt => ?_)
  exact (hleast index hlt).elim (not_mem_unusable_iff.2 ⟨h.notReserved, h.notBuiltin⟩) h.notTaken

theorem Usable.of_subset {taken more : List String} {word : String} (h : Usable more word)
    (hsub : taken ⊆ more) : Usable taken word :=
  ⟨h.isName, h.notReserved, h.notBuiltin, fun hmem => h.notTaken (hsub hmem)⟩

/-- With fewer than `10 ^ 17` names taken `search?` ends, and what it gives is the best `Usable`
word: none is shorter and none comes before it. With more names taken it never gives an earlier
one. -/
theorem search?_least {taken : List String} (h : taken.toFinset.card < 10 ^ 17) :
    ∃ name, search? taken.contains 0 = some name ∧ name = firstFree taken ∧ Usable taken name ∧
      (∀ word, Usable taken word → name.length ≤ word.length ∧ ¬ Before word name) ∧
      ∀ more : List String, taken ⊆ more → more.toFinset.card < 10 ^ 17 →
        ∃ later, search? more.contains 0 = some later ∧ ¬ Before later name := by
  refine ⟨firstFree taken, search?_eq_firstFree h, rfl, usable_firstFree taken, ?_, ?_⟩
  · exact fun word hword => ⟨hword.length_firstFree_le, hword.not_before_firstFree⟩
  · intro more hsub hmore
    exact ⟨_, search?_eq_firstFree hmore,
      ((usable_firstFree more).of_subset hsub).not_before_firstFree⟩

/-- With `a` and `b` taken `search?` gives `c`, and with `c` taken too nothing before it. -/
theorem search?_least_third :
    ["b", "a"].toFinset.card < 10 ^ 17 ∧ search? ["b", "a"].contains 0 = some "c" ∧
      ∃ later, search? ["c", "b", "a"].contains 0 = some later ∧ ¬ Before later "c" := by
  have hcard : ∀ words : List String, words.length ≤ 3 → words.toFinset.card < 10 ^ 17 := by
    intro words hwords
    have hle := words.toFinset_card_le
    omega
  have htaken := hcard ["b", "a"] (by simp)
  have hfirst : firstFree ["b", "a"] = "c" := by decide +kernel
  obtain ⟨name, hsearch, hname, -, -, hmore⟩ := search?_least htaken
  rw [hname, hfirst] at hsearch hmore
  exact ⟨htaken, hsearch, hmore _ (List.subset_cons_self _ _) (hcard _ (by simp))⟩

end ShortName

end ShaderMinifier
