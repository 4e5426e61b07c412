import Mathlib.Data.Nat.Digits.Defs
import ShaderMinifier.Proofs.Grammar.Progress

/-
  How long numbers are spelled. No spelling of a floating point literal is shorter than the
  canonical one. An integer needs as many digits as its value has in the base that it is spelled
  in: a decimal or an octal spelling is no shorter than the decimal digits of the value, and no
  point can stand directly behind it, which would make it a floating point literal; a hexadecimal
  one may be shorter, and may stand before a point.
-/

namespace ShaderMinifier

/-! ## Floating point literals -/

namespace FloatLiteral

theorem length_dropLeadingZeros_le (s : List Char) : (dropLeadingZeros s).length ≤ s.length :=
  (List.dropWhile_suffix _).length_le

theorem length_dropTrailingZeros_le (s : List Char) : (dropTrailingZeros s).length ≤ s.length := by
  have h := (List.dropWhile_suffix (l := s.reverse) (· == '0')).length_le
  simpa [dropTrailingZeros] using h

theorem length_orZero_le {s t : List Char} (hne : s ≠ []) (h : t.length ≤ s.length) :
    (orZero t).length ≤ s.length := by
  have hpos := List.length_pos_iff.2 hne
  unfold orZero
  split
  · exact hpos
  · exact h

theorem length_canonicalTail_le {exponent : List Char} (h : Exponent exponent) :
    (canonicalTail exponent).length ≤ exponent.length := by
  cases h with
  | absent => exact Nat.le_refl _
  | @present mark sign digits hmark hsign hdigits hne =>
    have hle := length_dropLeadingZeros_le digits
    have hzero := length_orZero_le hne hle
    have hpos := List.length_pos_iff.2 hne
    obtain rfl | rfl | rfl := hsign
    · simpa [canonicalTail, canonicalExponent_digits hdigits] using hzero
    · have hplus : canonicalExponent (['+'] ++ digits) = orZero (dropLeadingZeros digits) := rfl
      rw [canonicalTail, hplus, List.length_cons, List.length_cons, List.length_append]
      omega
    · have hminus : (canonicalExponent (['-'] ++ digits)).length ≤ digits.length + 1 := by
        simp only [List.singleton_append, canonicalExponent]
        split
        · simp
        · simpa using hle
      rw [canonicalTail, List.length_cons, List.length_cons, List.length_append]
      simpa [Nat.add_comm] using hminus

theorem length_canonical_le {lexeme : List Char} (h : Lexeme lexeme) :
    (canonical lexeme).length ≤ lexeme.length := by
  cases h with
  | @pointed whole fraction exponent hwhole hfraction hne hexp =>
    have hmantissa : (canonicalMantissa (whole ++ '.' :: fraction)).length ≤
        whole.length + 1 + fraction.length := by
      rw [canonicalMantissa_pointed hwhole]
      split
      · have hpos : 0 < whole.length + fraction.length := by
          rw [← List.length_append, List.length_pos_iff]
          simpa using hne
        simp only [List.length_cons, List.length_nil]
        omega
      · have hleft := length_dropLeadingZeros_le whole
        have hright := length_dropTrailingZeros_le fraction
        rw [List.length_append, List.length_cons]
        omega
    have htail := length_canonicalTail_le hexp
    rw [show whole ++ '.' :: (fraction ++ exponent) =
      (whole ++ '.' :: fraction) ++ exponent by simp,
      canonical_append (hwhole.not_mark_pointed hfraction) hexp]
    simp only [List.length_append, List.length_cons]
    omega
  | @plain whole exponent hwhole hne hexp _ =>
    have hmantissa := length_orZero_le hne (length_dropLeadingZeros_le whole)
    have htail := length_canonicalTail_le hexp
    rw [canonical_append hwhole.not_mark hexp, canonicalMantissa_plain hwhole,
      List.length_append, List.length_append]
    omega

theorem lexemeAtHead_digits_point {digits rest : List Char} (hdigits : AllDigits digits)
    (hne : digits ≠ []) : ∀ place, lexemeAtHead (digits ++ '.' :: rest) ≠ .error place := by
  have hstop : (digits ++ '.' :: rest).takeWhile Char.isDigit = digits ∧
      (digits ++ '.' :: rest).dropWhile Char.isDigit = '.' :: rest :=
    span_digits hdigits (by simp)
  intro place h
  unfold lexemeAtHead at h
  simp only [hstop.1, hstop.2, List.isEmpty_iff, hne, Bool.and_eq_true, false_and, if_false] at h
  split at h <;> cases h

/-- The text of a literal is not digits alone, so a `Lexeme` is told from the digits of an
integer. -/
theorem Lexeme.not_allDigits {lexeme : List Char} (h : Lexeme lexeme) :
    lexeme.all Char.isDigit = false := by
  have hno : ∀ {c : Char}, c ∈ lexeme → c.isDigit = false → lexeme.all Char.isDigit = false := by
    intro c hc hd
    rw [List.all_eq_false]
    exact ⟨c, hc, by simp [hd]⟩
  cases h with
  | pointed => exact hno (c := '.') (by simp) rfl
  | plain _ _ hexp hpresent =>
    cases hexp with
    | absent => exact absurd rfl hpresent
    | present hmark =>
      exact hno (List.mem_append_right _ (by simp)) (isDigit_eq_false_of_isExponentMark hmark)

end FloatLiteral

/-! ## Integers -/

namespace Integer

theorem all_isDigit_toDigits (n : Nat) :
    (String.ofList (Nat.toDigits 10 n)).toList.all Char.isDigit = true := by
  rw [String.toList_ofList, List.all_eq_true]
  exact allDigits_toDigits n

theorem ofDigits_append (base : Nat) (digits : List Char) (c : Char) :
    ofDigits base (digits ++ [c]) = base * ofDigits base digits + digitValue c := by
  simp [ofDigits]

theorem ofDigits_lt {base : Nat} {digits : List Char} (h : ∀ c ∈ digits, digitValue c < base) :
    ofDigits base digits < base ^ digits.length := by
  induction digits using List.reverseRecOn with
  | nil => simp [ofDigits]
  | append_singleton digits c ih =>
    have hc := h c (by simp)
    have hrest := ih fun d hd => h d (by simp [hd])
    rw [ofDigits_append, List.length_append, List.length_singleton, Nat.pow_succ]
    calc base * ofDigits base digits + digitValue c
        < base * ofDigits base digits + base := by omega
      _ = base * (ofDigits base digits + 1) := by rw [Nat.mul_add, Nat.mul_one]
      _ ≤ base * base ^ digits.length := Nat.mul_le_mul_left _ hrest
      _ = base ^ digits.length * base := Nat.mul_comm _ _

theorem length_toDigits_le {base target : Nat} (hbase : base ≤ target) {digits : List Char}
    {value : UInt64} (hdigits : ∀ c ∈ digits, digitValue c < base)
    (h : ofDigits? base digits = some value) :
    (Nat.toDigits target value.toNat).length ≤ digits.length := by
  unfold ofDigits? at h
  dsimp only at h
  split at h
  · next hsize =>
    simp only [Bool.and_eq_true, Bool.not_eq_true', decide_eq_true_eq] at hsize
    obtain ⟨hne, hlt⟩ := hsize
    obtain rfl := Option.some.inj h
    have hpos : 0 < digits.length := by
      rw [List.length_pos_iff]
      rintro rfl
      cases hne
    rw [UInt64.toNat_ofNat_of_lt' hlt]
    exact Nat.toDigits_length _ _ _ hpos
      ((ofDigits_lt hdigits).trans_le (Nat.pow_le_pow_left hbase _))
  · cases h

theorem digitValue_lt_of_isDigit {c : Char} (h : c.isDigit = true) : digitValue c < 10 := by
  rw [digitValue, if_pos h]
  rw [Char.isDigit_iff_toNat] at h
  have h9 : '9'.toNat = 57 := rfl
  have h0 : '0'.toNat = 48 := rfl
  omega

theorem digitValue_lt_of_isOctal {c : Char} (h : isOctal c = true) : digitValue c < 8 := by
  rw [digitValue, if_pos (isDigit_of_isOctal h)]
  simp only [isOctal, Bool.and_eq_true, decide_eq_true_eq] at h
  have h7 : c.toNat ≤ '7'.toNat := h.2
  have h7' : '7'.toNat = 55 := rfl
  have h0 : '0'.toNat = 48 := rfl
  omega

theorem digitValue_lt_of_isHex {c : Char} (h : isHex c = true) : digitValue c < 16 := by
  simp only [isHex, Bool.or_eq_true, Bool.and_eq_true, decide_eq_true_eq] at h
  by_cases hd : c.isDigit = true
  · have := digitValue_lt_of_isDigit hd
    omega
  · have hf : 'f'.toNat = 102 := rfl
    have hF : 'F'.toNat = 70 := rfl
    have ha : 'a'.toNat = 97 := rfl
    have hA : 'A'.toNat = 65 := rfl
    rw [digitValue, if_neg hd]
    rcases h with (h | ⟨hlo, hhi⟩) | ⟨hlo, hhi⟩
    · exact absurd h hd
    · have hhi' : c.toNat ≤ 'f'.toNat := hhi
      rw [if_pos hlo]
      omega
    · have hhi' : c.toNat ≤ 'F'.toNat := hhi
      have hneg : ¬ 'a' ≤ c := by
        intro hle
        have hle' : 'a'.toNat ≤ c.toNat := hle
        omega
      rw [if_neg hneg]
      omega

theorem head_ne_point {digits rest place : List Char} (hdigits : AllDigits digits)
    (hne : digits ≠ []) (hplace : FloatLiteral.lexemeAtHead (digits ++ rest) = .error place) :
    rest.head? ≠ some '.' := by
  intro hhead
  obtain ⟨tail, rfl⟩ : ∃ tail, rest = '.' :: tail := by
    cases rest with
    | nil => cases hhead
    | cons c tail => exact ⟨tail, by rw [Option.some.inj hhead]⟩
  exact FloatLiteral.lexemeAtHead_digits_point hdigits hne place hplace

/-- An integer is spelled with at least the digits of its value, and the point of a field can stand
directly behind it only if it is hexadecimal. Hence `Piece.snugText` is the shortest spelling. -/
theorem length_of_atHead? {input rest : List Char} {value : UInt64}
    (h : atHead? input = some (value, rest))
    (hfloat : ∃ place, FloatLiteral.lexemeAtHead input = .error place) :
    2 + (Nat.toDigits 16 value.toNat).length + rest.length ≤ input.length ∨
      (Nat.toDigits 10 value.toNat).length + rest.length ≤ input.length ∧
        rest.head? ≠ some '.' := by
  obtain ⟨place, hplace⟩ := hfloat
  cases reads_of_atHead? h with
  | hex _ hdigits hvalue =>
    have hle := length_toDigits_le (Nat.le_refl 16)
      (fun c hc => digitValue_lt_of_isHex (hdigits c hc)) hvalue
    simp only [List.length_cons, List.length_append]
    exact .inl (by omega)
  | @octal digits _ _ hdigits hvalue =>
    have hle := length_toDigits_le (by decide : 8 ≤ 10)
      (fun c hc => digitValue_lt_of_isOctal (hdigits c hc)) hvalue
    have hall : AllDigits ('0' :: digits) := by
      intro c hc
      rcases List.mem_cons.1 hc with rfl | hc
      · rfl
      · exact isDigit_of_isOctal (hdigits c hc)
    simp only [List.length_cons, List.length_append]
    exact .inr ⟨by omega, head_ne_point hall (by simp) hplace⟩
  | decimal hdigits _ hvalue =>
    have hle := length_toDigits_le (Nat.le_refl 10)
      (fun c hc => digitValue_lt_of_isDigit (hdigits c hc)) hvalue
    rw [List.length_append]
    exact .inr ⟨by omega, head_ne_point hdigits (ne_nil_of_ofDigits? hvalue) hplace⟩

/-! ## Hexadecimal spellings -/

theorem isHex_toDigits (n : Nat) : ∀ c ∈ Nat.toDigits 16 n, isHex c = true := by
  induction n using Nat.strong_induction_on with
  | _ n ih =>
    have hdigit : ∀ d < 16, isHex (Nat.digitChar d) = true := by decide
    rw [Nat.toDigits_eq_if (by decide)]
    split
    · next hlt =>
      intro c hc
      rw [List.mem_singleton.1 hc]
      exact hdigit n hlt
    · next hge =>
      intro c hc
      rcases List.mem_append.1 hc with hc | hc
      · exact ih (n / 16) (by omega) c hc
      · rw [List.mem_singleton.1 hc]
        exact hdigit _ (Nat.mod_lt _ (by decide))

theorem ofDigits_toDigits_hex (n : Nat) : ofDigits 16 (Nat.toDigits 16 n) = n := by
  induction n using Nat.strong_induction_on with
  | _ n ih =>
    have hdigit : ∀ d < 16, digitValue (Nat.digitChar d) = d := by decide
    rw [Nat.toDigits_eq_if (by decide)]
    split
    · next hlt =>
      rw [← List.nil_append [_], ofDigits_append, hdigit n hlt]
      simp [ofDigits]
    · next hge =>
      rw [ofDigits_append, ih (n / 16) (by omega), hdigit _ (Nat.mod_lt _ (by decide))]
      exact Nat.div_add_mod n 16

/-- A value is read by `atHead?` from its hexadecimal digits, whatever stands behind them that ends
a word. -/
theorem atHead?_hex (value : UInt64) {tail : List Char} (htail : EndsWord tail) :
    atHead? ('0' :: 'x' :: (Nat.toDigits 16 value.toNat ++ tail)) = some (value, tail) := by
  have hstop : ∀ c, tail.head? = some c → isHex c = false := by
    intro c hc
    rw [← Bool.not_eq_true]
    intro hhex
    have hpart := htail c hc
    rw [isPart_of_isHex hhex] at hpart
    cases hpart
  obtain ⟨htake, hdrop⟩ := takeWhile_append_stop (isHex_toDigits value.toNat) hstop
  have hvalue : ofDigits? 16 (Nat.toDigits 16 value.toNat) = some value := by
    have hlt := value.toNat_lt
    simp [ofDigits?, ofDigits_toDigits_hex, Nat.toDigits_ne_nil, hlt]
  have hhex : hexAtHead? ('0' :: 'x' :: (Nat.toDigits 16 value.toNat ++ tail)) =
      some (value, tail) := by
    simp [hexAtHead?, htake, hdrop, hvalue]
  rw [atHead?, hhex]
  rfl

end Integer

end ShaderMinifier
