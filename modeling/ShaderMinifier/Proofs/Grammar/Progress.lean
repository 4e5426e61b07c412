import ShaderMinifier.Proofs.Grammar.Number

/-
  What a parser leaves of its input. Every parser leaves an end of its input (`Keeps`); one that
  reads a lexeme leaves a shorter one (`Takes`). The rounds of `many` therefore shorten what is
  left, and the bound that the input itself sets to their number is never what ends them.
-/

namespace ShaderMinifier

/-! ## Blanks and lexemes -/

namespace Blank

theorem afterLineComment?_suffix {input rest : List Char}
    (h : afterLineComment? input = some rest) : rest <:+ input := by
  have hdrop := List.dropWhile_suffix (l := input) fun c => !isLineEnd c
  unfold afterLineComment? at h
  split at h
  · obtain rfl := Option.some.inj h
    exact List.nil_suffix
  · next heq =>
    obtain rfl := Option.some.inj h
    rwa [heq] at hdrop
  · cases h
  · obtain rfl := Option.some.inj h
    exact hdrop

theorem afterClose?_suffix {input rest : List Char} (h : afterClose? input = some rest) :
    rest <:+ input := by
  fun_induction afterClose? input with
  | case1 tail =>
    obtain rfl := Option.some.inj h
    exact (List.suffix_cons _ _).trans (List.suffix_cons _ _)
  | case2 c tail _ ih => exact (ih h).trans (List.suffix_cons _ _)
  | case3 => cases h

theorem after?_suffix {input rest : List Char} (h : after? input = some rest) :
    rest <:+ input ∧ rest.length < input.length := by
  have hlt : ∀ {c : Char} {tail : List Char}, input = c :: tail → rest <:+ tail →
      rest <:+ input ∧ rest.length < input.length := by
    rintro c tail rfl hsuffix
    have := hsuffix.length_le
    exact ⟨hsuffix.trans (List.suffix_cons _ _), by rw [List.length_cons]; omega⟩
  unfold after? at h
  split at h
  · exact hlt rfl ((afterLineComment?_suffix h).trans (List.suffix_cons _ _))
  · exact hlt rfl ((afterClose?_suffix h).trans (List.suffix_cons _ _))
  · obtain rfl := Option.some.inj h
    exact hlt rfl (List.suffix_cons _ _)
  · split at h
    · obtain rfl := Option.some.inj h
      exact hlt rfl (List.suffix_refl _)
    · cases h
  · cases h

theorem skipUpTo_suffix (gas input : List Char) : skipUpTo gas input <:+ input := by
  induction gas generalizing input with
  | nil => exact List.suffix_refl _
  | cons c gas ih =>
    rw [skipUpTo]
    split
    · next rest hrest => exact (ih rest).trans (after?_suffix hrest).1
    · exact List.suffix_refl _

theorem skip_suffix (input : List Char) : skip input <:+ input := skipUpTo_suffix input input

end Blank

theorem Word.atHead?_suffix {input rest : List Char} {w : String}
    (h : Word.atHead? input = some (w, rest)) : rest <:+ input ∧ rest.length < input.length := by
  cases input with
  | nil => cases h
  | cons c input =>
    simp only [Word.atHead?] at h
    split at h
    · obtain ⟨-, rfl⟩ := Prod.mk.inj (Option.some.inj h)
      have hdrop := List.dropWhile_suffix (l := input) Word.isPart
      have := hdrop.length_le
      exact ⟨hdrop.trans (List.suffix_cons _ _), by rw [List.length_cons]; omega⟩
    · cases h

theorem Symbol.atHead?_suffix {input rest : List Char} {t : String}
    (h : Symbol.atHead? input = some (t, rest)) : rest <:+ input ∧ rest.length < input.length := by
  obtain ⟨s, hs, hmap⟩ := List.exists_of_findSome?_eq_some h
  obtain ⟨tail, htail, heq⟩ := Option.map_eq_some_iff.1 hmap
  obtain ⟨rfl, rfl⟩ := Prod.mk.inj heq
  have hinput := Symbol.after?_eq_some htail
  obtain ⟨c, cs, hlist, -⟩ := Symbol.exists_cons hs
  subst hinput
  exact ⟨List.suffix_append _ _, by rw [List.length_append, hlist, List.length_cons]; omega⟩

namespace FloatLiteral

theorem exponentAtHead_eq {input exponent rest : List Char}
    (h : exponentAtHead input = .ok (exponent, rest)) : input = exponent ++ rest := by
  cases input with
  | nil => cases h
  | cons mark input =>
    simp only [exponentAtHead] at h
    split at h
    · split at h
      · cases h
      · obtain ⟨rfl, rfl⟩ := Prod.mk.inj (Except.ok.inj h)
        have hsign : signAtHead input ++ input.drop (signAtHead input).length = input := by
          unfold signAtHead
          split <;> simp
        simp only [List.cons_append, List.append_assoc, List.takeWhile_append_dropWhile, hsign]
    · cases h

theorem lexemeAtHead_eq {input lexeme rest : List Char}
    (h : lexemeAtHead input = .ok (lexeme, rest)) : input = lexeme ++ rest := by
  have hinput := List.takeWhile_append_dropWhile (p := Char.isDigit) (l := input)
  unfold lexemeAtHead at h
  simp only at h
  split at h
  · next tail htail =>
    have hdigits := List.takeWhile_append_dropWhile (p := Char.isDigit) (l := tail)
    split at h
    · cases h
    · split at h
      · next hexp =>
        obtain ⟨rfl, rfl⟩ := Prod.mk.inj (Except.ok.inj h)
        simp only [List.append_assoc, List.cons_append, ← exponentAtHead_eq hexp, hdigits]
        rw [← htail, hinput]
      · obtain ⟨rfl, rfl⟩ := Prod.mk.inj (Except.ok.inj h)
        simp only [List.append_assoc, List.cons_append, hdigits]
        rw [← htail, hinput]
  · split at h
    · cases h
    · split at h
      · next hexp =>
        obtain ⟨rfl, rfl⟩ := Prod.mk.inj (Except.ok.inj h)
        rw [List.append_assoc, ← exponentAtHead_eq hexp, hinput]
      · cases h

theorem lexemeAtHead_suffix {input lexeme rest : List Char}
    (h : lexemeAtHead input = .ok (lexeme, rest)) :
    rest <:+ input ∧ rest.length < input.length := by
  obtain ⟨c, cs, hlexeme, -⟩ := (lexeme_of_lexemeAtHead h).head
  rw [lexemeAtHead_eq h, hlexeme]
  exact ⟨List.suffix_append _ _, by simp⟩

end FloatLiteral

namespace Integer

/-- How an integer at the head of an input is read: its digits are of one kind, and `rest` follows
them. One constructor for each of `hexAtHead?`, `octalAtHead?` and `decimalAtHead?`. -/
inductive Reads : List Char → UInt64 → List Char → Prop
  | hex {mark : Char} {digits rest : List Char} {value : UInt64} (hmark : mark = 'x' ∨ mark = 'X')
      (hdigits : ∀ c ∈ digits, isHex c = true) (hvalue : ofDigits? 16 digits = some value) :
    Reads ('0' :: mark :: (digits ++ rest)) value rest
  | octal {digits rest : List Char} {value : UInt64} (hdigits : ∀ c ∈ digits, isOctal c = true)
      (hvalue : ofDigits? 8 digits = some value) : Reads ('0' :: (digits ++ rest)) value rest
  | decimal {digits rest : List Char} {value : UInt64} (hdigits : AllDigits digits)
      (hzero : digits = ['0'] ∨ digits.head? ≠ some '0')
      (hvalue : ofDigits? 10 digits = some value) : Reads (digits ++ rest) value rest

theorem digits_of_map {base : Nat} {isDigit : Char → Bool} {input rest : List Char} {value : UInt64}
    (h : (ofDigits? base (input.takeWhile isDigit)).map
      (fun value => (value, input.dropWhile isDigit)) = some (value, rest)) :
    ∃ digits, input = digits ++ rest ∧ digits = input.takeWhile isDigit ∧
      (∀ c ∈ digits, isDigit c = true) ∧ ofDigits? base digits = some value := by
  obtain ⟨v, hv, heq⟩ := Option.map_eq_some_iff.1 h
  obtain ⟨rfl, rfl⟩ := Prod.mk.inj heq
  exact ⟨_, List.takeWhile_append_dropWhile.symm, rfl, fun _ => List.mem_takeWhile_imp, hv⟩

theorem reads_of_atHead? {input rest : List Char} {value : UInt64}
    (h : atHead? input = some (value, rest)) : Reads input value rest := by
  rcases (Option.orElse_eq_some _ _ _).1 h with h | ⟨-, h⟩
  · unfold hexAtHead? at h
    split at h
    · split at h
      · next mark tail hmark =>
        obtain ⟨digits, rfl, -, hdigits, hvalue⟩ := digits_of_map h
        simp only [Bool.or_eq_true, beq_iff_eq] at hmark
        exact .hex hmark hdigits hvalue
      · cases h
    · cases h
  · rcases (Option.orElse_eq_some _ _ _).1 h with h | ⟨-, h⟩
    · unfold octalAtHead? at h
      split at h
      · obtain ⟨digits, rfl, -, hdigits, hvalue⟩ := digits_of_map h
        exact .octal hdigits hvalue
      · cases h
    · unfold decimalAtHead? at h
      simp only at h
      split at h
      · next hzero =>
        obtain ⟨digits, hinput, htake, hdigits, hvalue⟩ := digits_of_map h
        rw [← htake] at hzero
        rw [hinput]
        exact .decimal hdigits (by simpa using hzero) hvalue
      · cases h

theorem ne_nil_of_ofDigits? {base : Nat} {digits : List Char} {value : UInt64}
    (h : ofDigits? base digits = some value) : digits ≠ [] := by
  rintro rfl
  cases h

theorem atHead?_suffix {input rest : List Char} {value : UInt64}
    (h : atHead? input = some (value, rest)) : rest <:+ input ∧ rest.length < input.length := by
  cases reads_of_atHead? h with
  | hex =>
    refine ⟨((List.suffix_append _ _).trans (List.suffix_cons _ _)).trans
      (List.suffix_cons _ _), ?_⟩
    simp only [List.length_cons, List.length_append]
    omega
  | octal =>
    refine ⟨(List.suffix_append _ _).trans (List.suffix_cons _ _), ?_⟩
    simp only [List.length_cons, List.length_append]
    omega
  | decimal _ _ hvalue =>
    have hpos := List.length_pos_iff.2 (ne_nil_of_ofDigits? hvalue)
    refine ⟨List.suffix_append _ _, ?_⟩
    rw [List.length_append]
    omega

end Integer

namespace Parser

variable {α β : Type} {p q : Parser α}

/-- What the parser leaves is an end of its input. It may take nothing, as `optional` and `many`
may. -/
def Keeps (p : Parser α) : Prop := ∀ input v rest, p input = .matched v rest → rest <:+ input

/-- What the parser leaves is a shorter end of its input. This is what a loop asks of its body, see
`many_eq`. -/
def Takes (p : Parser α) : Prop :=
  ∀ input v rest, p input = .matched v rest → rest <:+ input ∧ rest.length < input.length

theorem Takes.keeps (h : Takes p) : Keeps p := fun _ _ _ hm => (h _ _ _ hm).1

/-! ## Combinators -/

namespace Keeps

theorem pure (v : α) : Keeps (pure v) := by
  intro input w rest h
  obtain ⟨-, rfl⟩ := matched_pure.1 h
  exact List.suffix_refl _

theorem bind {f : α → Parser β} (hp : Keeps p) (hf : ∀ v, Keeps (f v)) : Keeps (p >>= f) := by
  intro input w rest h
  obtain ⟨v, mid, hv, hw⟩ := matched_bind.1 h
  exact (hf v _ _ _ hw).trans (hp _ _ _ hv)

theorem here : Keeps here := by
  intro input v rest h
  obtain ⟨-, rfl⟩ := Reply.matched.inj h
  exact List.suffix_refl _

theorem commit (h : Keeps p) : Keeps (commit p) :=
  fun _ _ _ hm => h _ _ _ (matched_commit.1 hm)

theorem optional (h : Keeps p) : Keeps (optional p) := by
  intro input o rest hm
  rcases matched_optional.1 hm with ⟨v, -, hv⟩ | ⟨-, rfl, -⟩
  · exact h _ _ _ hv
  · exact List.suffix_refl _

theorem lookingAt (p : Parser α) : Keeps (lookingAt p) := by
  intro input b rest h
  obtain ⟨rfl, -⟩ := matched_lookingAt.1 h
  exact List.suffix_refl _

theorem many (h : Keeps p) : Keeps (many p) := by
  intro input vs rest hm
  refine many_invariant (I := fun _ left => left <:+ input) ?_ (List.suffix_refl _) hm
  exact fun _ _ v _ hleft hv => (h _ v _ hv).trans hleft

end Keeps

namespace Takes

theorem fail (cause : Cause) : Takes (fail cause : Parser α) := fun _ _ _ h => by cases h

theorem failAt (place : List Char) (cause : Cause) : Takes (failAt place cause : Parser α) :=
  fun _ _ _ h => by cases h

theorem mismatch (cause : Cause) : Takes (mismatch cause : Parser α) := fun _ _ _ h => by cases h

theorem mismatchAt (place : List Char) (cause : Cause) :
    Takes (mismatchAt place cause : Parser α) := fun _ _ _ h => by cases h

theorem bind {f : α → Parser β} (hp : Takes p) (hf : ∀ v, Keeps (f v)) : Takes (p >>= f) := by
  intro input w rest h
  obtain ⟨v, mid, hv, hw⟩ := matched_bind.1 h
  have hmid := hp _ _ _ hv
  have hrest := hf v _ _ _ hw
  exact ⟨hrest.trans hmid.1, hrest.length_le.trans_lt hmid.2⟩

theorem behind {f : α → Parser β} (hp : Keeps p) (hf : ∀ v, Takes (f v)) : Takes (p >>= f) := by
  intro input w rest h
  obtain ⟨v, mid, hv, hw⟩ := matched_bind.1 h
  have hmid := hp _ _ _ hv
  have hrest := hf v _ _ _ hw
  exact ⟨hrest.1.trans hmid, hrest.2.trans_le hmid.length_le⟩

/-- `Takes` of two parts in a row, if the first reads something where it matches, and where it does
not the second one does. -/
theorem optional_bind {f : Option α → Parser β} (hp : Takes p) (hsome : ∀ v, Keeps (f (some v)))
    (hnone : Takes (f none)) : Takes (optional p >>= f) := by
  intro input w rest h
  obtain ⟨o, mid, ho, hw⟩ := matched_bind.1 h
  rcases matched_optional.1 ho with ⟨v, rfl, hv⟩ | ⟨rfl, rfl, -⟩
  · exact Takes.bind hp (fun v => hsome v) _ _ _ (matched_bind.2 ⟨v, mid, hv, hw⟩)
  · exact hnone _ _ _ hw

theorem commit (h : Takes p) : Takes (commit p) :=
  fun _ _ _ hm => h _ _ _ (matched_commit.1 hm)

theorem orElse (hp : Takes p) (hq : Takes q) : Takes (orElse p q) := by
  intro input v rest hm
  rcases matched_orElse hm with hm | hm
  · exact hp _ _ _ hm
  · exact hq _ _ _ hm

/-- The fuel of `manyUpTo` does not matter once it is as long as the input, since every round
`Takes` a character. -/
theorem manyUpTo_eq (h : Takes p) {gas gas' input : List Char} (hgas : input.length ≤ gas.length)
    (hgas' : input.length ≤ gas'.length) : manyUpTo p gas input = manyUpTo p gas' input := by
  induction gas generalizing gas' input with
  | nil =>
    cases hp : p input with
    | matched v rest =>
      have := (h _ _ _ hp).2
      rw [List.length_nil] at hgas
      omega
    | mismatch f => cases gas' <;> simp only [manyUpTo, hp]
    | failure f => cases gas' <;> simp only [manyUpTo, hp]
  | cons c gas ih =>
    cases gas' with
    | nil =>
      cases hp : p input with
      | matched v rest =>
        have := (h _ _ _ hp).2
        rw [List.length_nil] at hgas'
        omega
      | mismatch f => simp only [manyUpTo, hp]
      | failure f => simp only [manyUpTo, hp]
    | cons c' gas' =>
      cases hp : p input with
      | matched v rest =>
        have hlt := (h _ _ _ hp).2
        rw [List.length_cons] at hgas hgas'
        simp only [manyUpTo, hp, ih (by omega : rest.length ≤ gas.length)
          (by omega : rest.length ≤ gas'.length)]
      | mismatch f => simp only [manyUpTo, hp]
      | failure f => simp only [manyUpTo, hp]

/-- The loop `many` without its fuel: one round, and then the others. This equation is all that
later proofs use of it. -/
theorem many_eq (h : Takes p) (input : List Char) :
    many p input =
      match p input with
      | .matched value rest =>
        match many p rest with
        | .matched values rest => .matched (value :: values) rest
        | reply => reply
      | .mismatch _ => .matched [] input
      | .failure fault => .failure fault := by
  unfold many
  cases hp : p input with
  | matched v rest =>
    have hlt := (h _ _ _ hp).2
    cases input with
    | nil => simp at hlt
    | cons c input =>
      rw [List.length_cons] at hlt
      have hgas := h.manyUpTo_eq (by omega : rest.length ≤ input.length) le_rfl
      cases hmany : manyUpTo p rest rest <;> simp only [manyUpTo, hp, hgas, hmany]
  | mismatch f => cases input <;> simp only [manyUpTo, hp]
  | failure f => cases input <;> simp only [manyUpTo, hp]

theorem many1 (h : Takes p) : Takes (many1 p) :=
  h.bind fun _ => h.keeps.many.bind fun _ => .pure _

theorem sepBy1 {separator : Parser β} (hs : Keeps separator) (h : Takes p) :
    Takes (sepBy1 separator p) :=
  h.bind fun _ => (Keeps.many (hs.bind fun _ => h.keeps)).bind fun _ => .pure _

theorem commaList {separator : Parser β} (hs : Keeps separator) (h : Takes p) :
    Takes (commaList separator p) :=
  h.bind fun _ => (Keeps.many (hs.bind fun _ => h.keeps.commit)).bind fun _ => .pure _

end Takes

/-! ## Lexemes -/

/-- What a lexeme leaves, with the blanks behind it skipped, is still a shorter end of the input;
`Blank.skip` only drops more. -/
theorem skip_of_suffix {input rest : List Char} (h : rest <:+ input ∧ rest.length < input.length) :
    Blank.skip rest <:+ input ∧ (Blank.skip rest).length < input.length :=
  ⟨(Blank.skip_suffix rest).trans h.1, (Blank.skip_suffix rest).length_le.trans_lt h.2⟩

theorem keeps_blank : Keeps blank := by
  intro input v rest h
  obtain ⟨-, rfl⟩ := Reply.matched.inj h
  exact Blank.skip_suffix _

theorem takes_symbolWhere (choose : String → Option α) : Takes (symbolWhere choose) := by
  intro input v rest h
  unfold symbolWhere at h
  split at h
  · next hhead =>
    split at h
    · obtain ⟨-, rfl⟩ := Reply.matched.inj h
      exact skip_of_suffix (Symbol.atHead?_suffix hhead)
    · cases h
  · cases h

theorem takes_symbol (text : String) : Takes (symbol text) := by
  intro input v rest h
  unfold symbol at h
  split at h
  · next hhead =>
    split at h
    · obtain ⟨-, rfl⟩ := Reply.matched.inj h
      exact skip_of_suffix (Symbol.atHead?_suffix hhead)
    · cases h
  · cases h

theorem takes_wordWhere (choose : String → Option α) : Takes (wordWhere choose) := by
  intro input v rest h
  unfold wordWhere at h
  split at h
  · next hhead =>
    split at h
    · obtain ⟨-, rfl⟩ := Reply.matched.inj h
      exact skip_of_suffix (Word.atHead?_suffix hhead)
    · cases h
  · cases h

theorem takes_keyword (word : String) : Takes (keyword word) := by
  intro input v rest h
  unfold keyword at h
  split at h
  · next hhead =>
    split at h
    · obtain ⟨-, rfl⟩ := Reply.matched.inj h
      exact skip_of_suffix (Word.atHead?_suffix hhead)
    · cases h
  · cases h

theorem keeps_nextWord : Keeps nextWord := by
  intro input v rest h
  obtain ⟨-, rfl⟩ := Reply.matched.inj h
  exact List.suffix_refl _

theorem takes_anyWord : Takes anyWord := takes_wordWhere _

theorem takes_declaredName : Takes declaredName := by
  refine .behind keeps_nextWord fun word => ?_
  cases word with
  | none => exact .mismatch _
  | some word =>
    dsimp only
    split
    · exact .fail _
    · split
      · exact .fail _
      · exact takes_anyWord

theorem takes_floatLiteral : Takes floatLiteral := by
  intro input v rest h
  unfold floatLiteral at h
  split at h
  · next hhead =>
    obtain ⟨-, rfl⟩ := Reply.matched.inj h
    exact skip_of_suffix (FloatLiteral.lexemeAtHead_suffix hhead)
  · cases h

theorem takes_intLiteral : Takes intLiteral := by
  intro input v rest h
  unfold intLiteral at h
  split at h
  · next hhead =>
    have hsuffix := Integer.atHead?_suffix hhead
    split at h
    · split at h
      · cases h
      · obtain ⟨-, rfl⟩ := Reply.matched.inj h
        exact skip_of_suffix hsuffix
    · obtain ⟨-, rfl⟩ := Reply.matched.inj h
      exact hsuffix
  · cases h

theorem takes_boolLiteral : Takes boolLiteral :=
  .orElse ((takes_keyword _).bind fun _ => .pure _) ((takes_keyword _).bind fun _ => .pure _)

end Parser

end ShaderMinifier
