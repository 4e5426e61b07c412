import ShaderMinifier.Expr.Printer
import ShaderMinifier.Proofs.Grammar.Digits

/-
  What numbers stand for. A floating point literal denotes a rational number, and its canonical
  spelling denotes the same one: a zero that is dropped from an end of the mantissa or from the
  exponent adds nothing. An integer is read exactly where the whole word is an integer in one of the
  three bases and its positional value fits into a machine word; what is read is that value.
-/

namespace ShaderMinifier

theorem endsWord_nil : EndsWord [] := by
  intro c hc
  cases hc

/-! ## The number that a floating point literal denotes -/

namespace FloatLiteral

/-- The value of digits behind the point, as a rational number; `Integer.ofDigits` of them over a
power of ten. -/
def fractionValue (digits : List Char) : ℚ := Integer.ofDigits 10 digits / 10 ^ digits.length

/-- The value of the part before the exponent. Where there is no point, `fractionValue` is that of
no digits. -/
def mantissaValue (mantissa : List Char) : ℚ :=
  Integer.ofDigits 10 (mantissa.takeWhile (· != '.')) +
    fractionValue ((mantissa.dropWhile (· != '.')).drop 1)

/-- The value of an exponent behind its mark. An exponent that is missing is `[]` here and zero. -/
def exponentValue : List Char → ℤ
  | '-' :: digits => -Integer.ofDigits 10 digits
  | '+' :: digits => Integer.ofDigits 10 digits
  | digits => Integer.ofDigits 10 digits

/-- The rational number that a text denotes: `mantissaValue` times ten to the `exponentValue`. It is
defined without `canonical`, on all texts. -/
def denotedValue (text : List Char) : ℚ :=
  mantissaValue (text.takeWhile fun c => !isExponentMark c) *
    10 ^ exponentValue ((text.dropWhile fun c => !isExponentMark c).drop 1)

/-! ## Idle zeros -/

theorem ofDigits_dropLeadingZeros (s : List Char) :
    Integer.ofDigits 10 (dropLeadingZeros s) = Integer.ofDigits 10 s := by
  induction s with
  | nil => rfl
  | cons c s ih =>
    by_cases hc : c = '0'
    · subst hc
      have hskip : dropLeadingZeros ('0' :: s) = dropLeadingZeros s := rfl
      have hzero : Integer.ofDigits 10 ('0' :: s) = Integer.ofDigits 10 s := rfl
      rw [hskip, ih, hzero]
    · have hkeep : dropLeadingZeros (c :: s) = c :: s := by simp [dropLeadingZeros, hc]
      rw [hkeep]

theorem ofDigits_orZero (s : List Char) :
    Integer.ofDigits 10 (orZero s) = Integer.ofDigits 10 s := by
  cases s <;> rfl

theorem fractionValue_dropTrailingZeros (s : List Char) :
    fractionValue (dropTrailingZeros s) = fractionValue s := by
  induction s using List.reverseRecOn with
  | nil => rfl
  | append_singleton s c ih =>
    by_cases hc : c = '0'
    · subst hc
      have hskip : dropTrailingZeros (s ++ ['0']) = dropTrailingZeros s := by
        simp [dropTrailingZeros]
      have hzero : fractionValue (s ++ ['0']) = fractionValue s := by
        have hdigit : Integer.digitValue '0' = 0 := rfl
        rw [fractionValue, fractionValue, Integer.ofDigits_append, hdigit, List.length_append,
          List.length_singleton, pow_succ]
        push_cast
        field_simp
        ring
      rw [hskip, ih, hzero]
    · have hkeep : dropTrailingZeros (s ++ [c]) = s ++ [c] := by simp [dropTrailingZeros, hc]
      rw [hkeep]

/-! ## The parts of a literal -/

theorem mantissaValue_pointed {whole fraction : List Char} (hwhole : AllDigits whole) :
    mantissaValue (whole ++ '.' :: fraction) =
      Integer.ofDigits 10 whole + fractionValue fraction := by
  have hstop : ∀ c, ('.' :: fraction).head? = some c → (c != '.') = false := by simp
  obtain ⟨htake, hdrop⟩ := takeWhile_append_stop hwhole.ne_point hstop
  rw [mantissaValue, htake, hdrop, List.drop_one, List.tail_cons]

theorem mantissaValue_plain {whole : List Char} (hwhole : AllDigits whole) :
    mantissaValue whole = Integer.ofDigits 10 whole := by
  have htake : whole.takeWhile (· != '.') = whole :=
    List.takeWhile_eq_self_iff.2 hwhole.ne_point
  have hdrop : whole.dropWhile (· != '.') = [] := List.dropWhile_eq_nil_iff.2 hwhole.ne_point
  rw [mantissaValue, htake, hdrop]
  simp [fractionValue, Integer.ofDigits]

theorem mantissaValue_canonical_pointed {whole : List Char} (hwhole : AllDigits whole)
    (fraction : List Char) :
    mantissaValue (canonicalMantissa (whole ++ '.' :: fraction)) =
      mantissaValue (whole ++ '.' :: fraction) := by
  have hleft := ofDigits_dropLeadingZeros whole
  have hright := fractionValue_dropTrailingZeros fraction
  rw [canonicalMantissa_pointed hwhole, mantissaValue_pointed hwhole, ← hleft, ← hright]
  split
  · -- nothing is left on either side of the point, so the value is zero
    next hempty =>
    rw [hempty.1, hempty.2]
    rfl
  · exact mantissaValue_pointed hwhole.dropLeadingZeros

theorem mantissaValue_canonical_plain {whole : List Char} (hwhole : AllDigits whole) :
    mantissaValue (canonicalMantissa whole) = mantissaValue whole := by
  rw [canonicalMantissa_plain hwhole, mantissaValue_plain hwhole.dropLeadingZeros.orZero,
    mantissaValue_plain hwhole, ofDigits_orZero, ofDigits_dropLeadingZeros]

theorem exponentValue_digits {digits : List Char} (h : AllDigits digits) :
    exponentValue digits = Integer.ofDigits 10 digits := by
  unfold exponentValue
  split
  · have := h '-' (by simp)
    cases this
  · have := h '+' (by simp)
    cases this
  · rfl

theorem exponentValue_canonicalTail {exponent : List Char} (h : Exponent exponent) :
    exponentValue ((canonicalTail exponent).drop 1) = exponentValue (exponent.drop 1) := by
  cases h with
  | absent => rfl
  | @present mark sign digits _ hsign hdigits _ =>
    have hzeros := ofDigits_dropLeadingZeros digits
    have hcanonical : exponentValue (orZero (dropLeadingZeros digits)) =
        Integer.ofDigits 10 digits := by
      rw [exponentValue_digits hdigits.dropLeadingZeros.orZero, ofDigits_orZero, hzeros]
    obtain rfl | rfl | rfl := hsign
    · simp only [canonicalTail, List.nil_append, List.drop_one, List.tail_cons,
        canonicalExponent_digits hdigits, hcanonical, exponentValue_digits hdigits]
    · exact hcanonical
    · by_cases hempty : dropLeadingZeros digits = []
      · -- a negative zero loses its sign
        rw [hempty] at hzeros
        have hminus : canonicalExponent ('-' :: digits) = ['0'] := by
          simp [canonicalExponent, hempty]
        simp only [canonicalTail, List.singleton_append, List.drop_one, List.tail_cons, hminus,
          exponentValue, ← hzeros]
        rfl
      · have hminus : canonicalExponent ('-' :: digits) = '-' :: dropLeadingZeros digits := by
          simp [canonicalExponent, hempty]
        simp only [canonicalTail, List.singleton_append, List.drop_one, List.tail_cons, hminus,
          exponentValue, hzeros]

theorem denotedValue_append {mantissa exponent : List Char}
    (hm : ∀ c ∈ mantissa, isExponentMark c = false) (hexp : Exponent exponent) :
    denotedValue (mantissa ++ exponent) =
      mantissaValue mantissa * 10 ^ exponentValue (exponent.drop 1) := by
  obtain ⟨htake, hdrop⟩ := span_mantissa hm hexp
  rw [denotedValue, htake, hdrop]

example : denotedValue "1.50E-2".toList = 3 / 200 := by decide +kernel

theorem denotedValue_canonical {lexeme : List Char} (h : Lexeme lexeme) :
    denotedValue (canonical lexeme) = denotedValue lexeme := by
  cases h with
  | @pointed whole fraction exponent hwhole hfraction _ hexp =>
    obtain ⟨w, f, hw, hf, -, hmant, -⟩ := canonicalMantissa_digits hwhole hfraction
    have hvalue := mantissaValue_canonical_pointed hwhole fraction
    have hassoc : whole ++ '.' :: (fraction ++ exponent) = (whole ++ '.' :: fraction) ++ exponent :=
      by simp
    have hmark := hwhole.not_mark_pointed hfraction
    rw [hmant] at hvalue
    rw [hassoc, canonical_append hmark hexp, hmant,
      denotedValue_append (hw.not_mark_pointed hf) (canonicalTail_spec hexp).1,
      denotedValue_append hmark hexp, hvalue, exponentValue_canonicalTail hexp]
  | @plain whole exponent hwhole _ hexp _ =>
    have hvalue := mantissaValue_canonical_plain hwhole
    rw [canonicalMantissa_plain hwhole] at hvalue
    rw [canonical_append hwhole.not_mark hexp, canonicalMantissa_plain hwhole,
      denotedValue_append hwhole.dropLeadingZeros.orZero.not_mark (canonicalTail_spec hexp).1,
      denotedValue_append hwhole.not_mark hexp, hvalue, exponentValue_canonicalTail hexp]

/-- A text that is one `Lexeme` from its start to its end is read by `floatLiteral` as the literal
that it spells. -/
theorem floatLiteral_of_lexeme {lexeme : List Char} (h : Lexeme lexeme) :
    Parser.floatLiteral lexeme = .matched (ofText (String.ofList lexeme)) [] := by
  have hread := lexemeAtHead_append h endsWord_nil
  rw [List.append_nil] at hread
  rw [Parser.floatLiteral, hread]
  rfl

/-- The canonical spelling by `ofText` of a text that is read as one literal has the same
`denotedValue`, is read as one literal and as the same one, is its own canonical spelling and is no
longer than the text. -/
theorem ofText_keepsValue {text : String}
    (h : lexemeAtHead text.toList = .ok (text.toList, [])) :
    denotedValue (ofText text).text.toList = denotedValue text.toList ∧
      lexemeAtHead (ofText text).text.toList = .ok ((ofText text).text.toList, []) ∧
      Parser.floatLiteral text.toList = .matched (ofText text) [] ∧
      Parser.floatLiteral (ofText text).text.toList = .matched (ofText text) [] ∧
      ofText (ofText text).text = ofText text ∧ (ofText text).text.length ≤ text.length := by
  have hlexeme := lexeme_of_lexemeAtHead h
  have hproper := hlexeme.proper
  rw [String.ofList_toList] at hproper
  have htext : (ofText text).text.toList = canonical text.toList := String.toList_ofList
  have hread := lexemeAtHead_append hproper.lexeme endsWord_nil
  have hsource := floatLiteral_of_lexeme hlexeme
  have hcanonical := floatLiteral_of_lexeme hproper.lexeme
  rw [String.ofList_toList] at hsource hcanonical
  rw [hproper.fixed] at hcanonical
  refine ⟨?_, by simpa using hread, hsource, hcanonical, hproper.fixed, ?_⟩
  · rw [htext, denotedValue_canonical hlexeme]
  · rw [← String.length_toList, ← String.length_toList, htext]
    exact length_canonical_le hlexeme

/-- Zeros go from both ends of the mantissa and from the exponent: `00.50E-030` becomes `.5e-30`. -/
theorem ofText_keepsValue_zeros :
    lexemeAtHead "00.50E-030".toList = .ok ("00.50E-030".toList, []) ∧
      (ofText "00.50E-030").text = ".5e-30" ∧
      denotedValue ".5e-30".toList = denotedValue "00.50E-030".toList := by
  have hread : lexemeAtHead "00.50E-030".toList = .ok ("00.50E-030".toList, []) := by decide +kernel
  have htext : (ofText "00.50E-030").text = ".5e-30" := by decide +kernel
  have hvalue := (ofText_keepsValue hread).1
  rw [htext] at hvalue
  exact ⟨hread, htext, hvalue⟩

end FloatLiteral

/-! ## Integers as they are spelled -/

namespace Integer

/-- An integer as it may be spelled in one of the three bases, whatever its size. `Integer.atHead?`
also wants it below 2^64. -/
inductive Lexeme : List Char → Prop
  | decimal {digits : List Char} (hdigits : AllDigits digits) (hne : digits ≠ [])
      (hzero : digits = ['0'] ∨ digits.head? ≠ some '0') : Lexeme digits
  | octal {digits : List Char} (hdigits : ∀ c ∈ digits, isOctal c = true) (hne : digits ≠ []) :
    Lexeme ('0' :: digits)
  | hex {mark : Char} {digits : List Char} (hmark : mark = 'x' ∨ mark = 'X')
      (hdigits : ∀ c ∈ digits, isHex c = true) (hne : digits ≠ []) : Lexeme ('0' :: mark :: digits)

theorem Lexeme.head {lexeme : List Char} (h : Lexeme lexeme) :
    ∃ c cs, lexeme = c :: cs ∧ c.isDigit = true := by
  cases h with
  | @decimal digits hdigits hne _ =>
    obtain ⟨c, cs, rfl⟩ := List.exists_cons_of_ne_nil hne
    exact ⟨c, cs, rfl, hdigits c (by simp)⟩
  | octal => exact ⟨_, _, rfl, rfl⟩
  | hex => exact ⟨_, _, rfl, rfl⟩

theorem Lexeme.isPart {lexeme : List Char} (h : Lexeme lexeme) :
    ∀ c ∈ lexeme, Word.isPart c = true := by
  intro c hc
  cases h with
  | decimal hdigits _ _ => exact Word.isPart_of_isDigit (hdigits c hc)
  | octal hdigits _ =>
    rcases List.mem_cons.1 hc with rfl | hc
    · rfl
    · exact Word.isPart_of_isDigit (isDigit_of_isOctal (hdigits c hc))
  | hex hmark hdigits _ =>
    rcases List.mem_cons.1 hc with rfl | hc
    · rfl
    · rcases List.mem_cons.1 hc with rfl | hc
      · rcases hmark with rfl | rfl <;> rfl
      · exact isPart_of_isHex (hdigits c hc)

/-- An integer is no floating point literal: `FloatLiteral.lexemeAtHead` goes wrong on it. -/
theorem Lexeme.lexemeAtHead {lexeme tail : List Char} (h : Lexeme lexeme)
    (htail : EndsNumber tail) :
    ∃ place, FloatLiteral.lexemeAtHead (lexeme ++ tail) = .error place := by
  cases h with
  | decimal hdigits hne _ => exact ⟨_, FloatLiteral.lexemeAtHead_digits hdigits hne htail⟩
  | octal hdigits _ =>
    refine ⟨_, FloatLiteral.lexemeAtHead_digits (fun c hc => ?_) (by simp) htail⟩
    rcases List.mem_cons.1 hc with rfl | hc
    · rfl
    · exact isDigit_of_isOctal (hdigits c hc)
  | @hex mark digits hmark _ _ =>
    refine ⟨mark :: (digits ++ tail), ?_⟩
    rcases hmark with rfl | rfl <;> rfl

/-- Characters of one kind end no later than the word that they are in, so `takeWhile` does not see
the `tail` behind it. -/
theorem span_append {p : Char → Bool} (hp : ∀ c, p c = true → Word.isPart c = true)
    {tail : List Char} (htail : EndsWord tail) (s : List Char) :
    (s ++ tail).takeWhile p = s.takeWhile p ∧ (s ++ tail).dropWhile p = s.dropWhile p ++ tail := by
  induction s with
  | nil =>
    cases tail with
    | nil => exact ⟨rfl, rfl⟩
    | cons c tail =>
      have hc : p c = false := by
        rw [← Bool.not_eq_true]
        intro h
        have := htail c rfl
        rw [hp c h] at this
        cases this
      simp [hc]
  | cons c s ih =>
    by_cases hc : p c = true
    · simp [hc, ih.1, ih.2]
    · simp [hc]

/-- Of an integer at the head of the input only the word matters that it is in: `atHead?` does not
see the `tail` behind it. -/
theorem atHead?_append {s tail : List Char} (hne : s ≠ []) (htail : EndsWord tail) :
    atHead? (s ++ tail) = (atHead? s).map fun read => (read.1, read.2 ++ tail) := by
  obtain ⟨c, s, rfl⟩ := List.exists_cons_of_ne_nil hne
  have hspan : ∀ {p : Char → Bool}, (∀ c, p c = true → Word.isPart c = true) → ∀ s,
      (s ++ tail).takeWhile p = s.takeWhile p ∧ (s ++ tail).dropWhile p = s.dropWhile p ++ tail :=
    fun hp s => span_append hp htail s
  have hdecimal : decimalAtHead? (c :: s ++ tail) =
      (decimalAtHead? (c :: s)).map fun read => (read.1, read.2 ++ tail) := by
    obtain ⟨htake, hdrop⟩ := hspan (fun c => Word.isPart_of_isDigit) (c :: s)
    simp only [decimalAtHead?, htake, hdrop]
    split
    · rw [Option.map_map]
      rfl
    · rfl
  have hoctal : octalAtHead? (c :: s ++ tail) =
      (octalAtHead? (c :: s)).map fun read => (read.1, read.2 ++ tail) := by
    rw [List.cons_append]
    by_cases hc : c = '0'
    · obtain ⟨htake, hdrop⟩ :=
        hspan (fun c hc => Word.isPart_of_isDigit (isDigit_of_isOctal hc)) s
      simp only [hc, octalAtHead?, htake, hdrop, Option.map_map]
      rfl
    · rw [octalAtHead?_eq_none hc, octalAtHead?_eq_none hc, Option.map_none]
  have hhex : hexAtHead? (c :: s ++ tail) =
      (hexAtHead? (c :: s)).map fun read => (read.1, read.2 ++ tail) := by
    by_cases hc : c = '0'
    · cases s with
      | nil =>
        rw [hc, List.singleton_append, hexAtHead?_zero htail]
        rfl
      | cons mark s =>
        obtain ⟨htake, hdrop⟩ := hspan (fun c => isPart_of_isHex) s
        simp only [hc, List.cons_append, hexAtHead?, htake, hdrop]
        split
        · rw [Option.map_map]
          rfl
        · rfl
    · rw [List.cons_append, hexAtHead?_eq_none hc, hexAtHead?_eq_none hc, Option.map_none]
  rw [atHead?, atHead?, hdecimal, hoctal, hhex]
  cases hexAtHead? (c :: s) <;> cases octalAtHead? (c :: s) <;> rfl

/-! ## Positional values -/

/-- What a character stands for as a digit, a letter in either case; stated by position, apart from
`digitValue`. -/
def place (c : Char) : Nat := "0123456789abcdef".toList.idxOf c.toLower

/-- The number that digits write in a base: the last digit counts once, and each other one `base`
times as much as the digit behind it (`Nat.ofDigits`). -/
def positional (base : Nat) (digits : List Char) : Nat :=
  Nat.ofDigits base (digits.reverse.map place)

/-- The number that an integer writes: behind `0x` in base 16, behind another `0` in base 8, and
else in base 10, by `positional`. -/
def denotedValue : List Char → Nat
  | '0' :: 'x' :: digits => positional 16 digits
  | '0' :: 'X' :: digits => positional 16 digits
  | '0' :: digits => positional 8 digits
  | digits => positional 10 digits

theorem toNat_lt_of_isHex {c : Char} (h : isHex c = true) : c.toNat < 103 := by
  simp only [isHex, Char.isDigit, Bool.or_eq_true, Bool.and_eq_true, decide_eq_true_eq] at h
  rcases h with (⟨-, h⟩ | ⟨-, h⟩) | ⟨-, h⟩ <;> exact Nat.lt_of_le_of_lt h (by decide)

theorem digitValue_eq_place {c : Char} (h : isHex c = true) : digitValue c = place c := by
  have hall : ∀ n < 103, isHex (Char.ofNat n) = true →
      digitValue (Char.ofNat n) = place (Char.ofNat n) := by decide +kernel
  have hc := hall c.toNat (toNat_lt_of_isHex h)
  rw [Char.ofNat_toNat] at hc
  exact hc h

theorem ofDigits_eq_positional {base : Nat} {digits : List Char}
    (h : ∀ c ∈ digits, isHex c = true) : ofDigits base digits = positional base digits := by
  induction digits using List.reverseRecOn with
  | nil => rfl
  | append_singleton digits c ih =>
    have hc := digitValue_eq_place (h c (by simp))
    have hrest := ih fun d hd => h d (by simp [hd])
    rw [ofDigits_append, hrest, hc, positional, positional, List.reverse_append,
      List.reverse_singleton, List.singleton_append, List.map_cons, Nat.ofDigits_cons]
    exact Nat.add_comm _ _

theorem isHex_of_allDigits {digits : List Char} (h : AllDigits digits) :
    ∀ c ∈ digits, isHex c = true := by
  intro c hc
  simp [isHex, h c hc]

theorem isHex_of_allOctal {digits : List Char} (h : ∀ c ∈ digits, isOctal c = true) :
    ∀ c ∈ digits, isHex c = true :=
  isHex_of_allDigits fun c hc => isDigit_of_isOctal (h c hc)

theorem ofDigits?_eq_some {base : Nat} {digits : List Char} {value : UInt64} :
    ofDigits? base digits = some value ↔ digits ≠ [] ∧ ofDigits base digits = value.toNat := by
  unfold ofDigits?
  constructor
  · intro h
    dsimp only at h
    split at h
    · next hsize =>
      simp only [Bool.and_eq_true, Bool.not_eq_true', List.isEmpty_eq_false_iff,
        decide_eq_true_eq] at hsize
      obtain rfl := Option.some.inj h
      exact ⟨hsize.1, (UInt64.toNat_ofNat_of_lt' hsize.2).symm⟩
    · cases h
  · rintro ⟨hne, hvalue⟩
    have hlt := value.toNat_lt_size
    rw [hvalue]
    simp [hne, hlt]

/-- Behind a zero an octal digit is no mark of a hexadecimal integer, so `denotedValue` takes the
base 8. -/
theorem denotedValue_octal {digits : List Char} (h : ∀ c ∈ digits, isOctal c = true) :
    denotedValue ('0' :: digits) = positional 8 digits := by
  unfold denotedValue
  split
  · next heq =>
    obtain ⟨-, rfl⟩ := List.cons.inj heq
    cases h 'x' (by simp)
  · next heq =>
    obtain ⟨-, rfl⟩ := List.cons.inj heq
    cases h 'X' (by simp)
  · next heq =>
    rw [(List.cons.inj heq).2]
  · next hno => exact absurd rfl (hno digits)

theorem denotedValue_decimal {digits : List Char} (h : digits.head? ≠ some '0') :
    denotedValue digits = positional 10 digits := by
  unfold denotedValue
  split
  · exact absurd rfl h
  · exact absurd rfl h
  · exact absurd rfl h
  · rfl

/-! ## Reading integers -/

/-- A word that `atHead?` reads whole is an integer in one of the bases (`Lexeme`), and what is read
is its `denotedValue`. -/
theorem lexeme_of_atHead? {w : List Char} {value : UInt64} (h : atHead? w = some (value, [])) :
    Lexeme w ∧ denotedValue w = value.toNat := by
  cases reads_of_atHead? h with
  | hex hmark hdigits hvalue =>
    rw [ofDigits?_eq_some, ofDigits_eq_positional hdigits] at hvalue
    rw [List.append_nil]
    refine ⟨.hex hmark hdigits hvalue.1, ?_⟩
    obtain rfl | rfl := hmark <;> exact hvalue.2
  | octal hdigits hvalue =>
    rw [ofDigits?_eq_some, ofDigits_eq_positional (isHex_of_allOctal hdigits)] at hvalue
    rw [List.append_nil]
    exact ⟨.octal hdigits hvalue.1, by rw [denotedValue_octal hdigits, hvalue.2]⟩
  | decimal hdigits hzero hvalue =>
    rw [ofDigits?_eq_some] at hvalue
    rw [List.append_nil]
    refine ⟨.decimal hdigits hvalue.1 hzero, ?_⟩
    obtain rfl | hhead := hzero
    · exact hvalue.2
    · rw [denotedValue_decimal hhead, ← ofDigits_eq_positional (isHex_of_allDigits hdigits),
        hvalue.2]

theorem isMark_eq_false_of_isOctal {c : Char} (h : isOctal c = true) :
    (c == 'x' || c == 'X') = false := by
  rw [← Bool.not_eq_true]
  intro hmark
  simp only [Bool.or_eq_true, beq_iff_eq] at hmark
  obtain rfl | rfl := hmark <;> cases h

/-- A `Lexeme` whose `denotedValue` fits into a machine word is read whole by `atHead?`. -/
theorem Lexeme.atHead? {w : List Char} (h : Lexeme w) {value : UInt64}
    (hvalue : denotedValue w = value.toNat) : Integer.atHead? w = some (value, []) := by
  have hspan : ∀ {p : Char → Bool} {s : List Char}, (∀ c ∈ s, p c = true) →
      s.takeWhile p = s ∧ s.dropWhile p = [] :=
    fun hs => ⟨List.takeWhile_eq_self_iff.2 hs, List.dropWhile_eq_nil_iff.2 hs⟩
  cases h with
  | decimal hdigits hne hzero =>
    obtain ⟨htake, hdrop⟩ := hspan hdigits
    obtain rfl | hhead := hzero
    · obtain rfl : value = 0 := UInt64.toNat_inj.1 hvalue.symm
      rfl
    · have hread : ofDigits? 10 w = some value := by
        rw [ofDigits?_eq_some, ofDigits_eq_positional (isHex_of_allDigits hdigits),
          ← denotedValue_decimal hhead]
        exact ⟨hne, hvalue⟩
      have hdecimal : decimalAtHead? w = some (value, []) := by
        simp [decimalAtHead?, htake, hdrop, hread, hhead]
      obtain ⟨c, cs, rfl⟩ := List.exists_cons_of_ne_nil hne
      have hc : c ≠ '0' := by simpa using hhead
      rw [Integer.atHead?, hexAtHead?_eq_none hc, octalAtHead?_eq_none hc, hdecimal]
      rfl
  | @octal digits hdigits hne =>
    obtain ⟨htake, hdrop⟩ := hspan hdigits
    have hread : ofDigits? 8 digits = some value := by
      rw [ofDigits?_eq_some, ofDigits_eq_positional (isHex_of_allOctal hdigits),
        ← denotedValue_octal hdigits]
      exact ⟨hne, hvalue⟩
    have hoctal : octalAtHead? ('0' :: digits) = some (value, []) := by
      simp [octalAtHead?, htake, hdrop, hread]
    have hnone : hexAtHead? ('0' :: digits) = none := by
      obtain ⟨c, cs, rfl⟩ := List.exists_cons_of_ne_nil hne
      simp [hexAtHead?, isMark_eq_false_of_isOctal (hdigits c (by simp))]
    rw [Integer.atHead?, hnone, hoctal]
    rfl
  | @hex mark digits hmark hdigits hne =>
    obtain ⟨htake, hdrop⟩ := hspan hdigits
    have hpositional : positional 16 digits = value.toNat := by
      obtain rfl | rfl := hmark <;> exact hvalue
    have hread : ofDigits? 16 digits = some value := by
      rw [ofDigits?_eq_some, ofDigits_eq_positional hdigits]
      exact ⟨hne, hpositional⟩
    have hhex : hexAtHead? ('0' :: mark :: digits) = some (value, []) := by
      obtain rfl | rfl := hmark <;> simp [hexAtHead?, htake, hdrop, hread]
    rw [Integer.atHead?, hhex]
    rfl

theorem atHead?_eq_some_iff {w : List Char} {value : UInt64} :
    atHead? w = some (value, []) ↔ Lexeme w ∧ denotedValue w = value.toNat :=
  ⟨lexeme_of_atHead?, fun h => h.1.atHead? h.2⟩

/-- What `atHead?` leaves of a word would be a character right behind the integer, which
`intLiteral` refuses; so a word is read whole or not at all. -/
theorem intLiteral_eq_matched_iff {w tail : List Char} (hword : ∀ c ∈ w, Word.isPart c = true)
    (hne : w ≠ []) (htail : EndsWord tail) {value : UInt64} {rest : List Char} :
    Parser.intLiteral (w ++ tail) = .matched value rest ↔
      atHead? w = some (value, []) ∧ rest = Blank.skip tail := by
  rw [Parser.intLiteral, atHead?_append hne htail]
  cases hread : atHead? w with
  | none => simp
  | some read =>
    obtain ⟨v, left⟩ := read
    cases left with
    | cons c left =>
      have hc := hword c ((atHead?_suffix hread).1.subset (by simp))
      simp [hc]
    | nil =>
      cases tail with
      | nil => simp [Blank.skip, Blank.skipUpTo, eq_comm]
      | cons c tail =>
        have hc := htail c rfl
        simp [hc, eq_comm]

theorem lexeme_toDigits (n : Nat) : Lexeme (Nat.toDigits 10 n) :=
  .decimal (allDigits_toDigits n) Nat.toDigits_ne_nil (toDigits_head n)

theorem denotedValue_toDigits (n : Nat) : denotedValue (Nat.toDigits 10 n) = n := by
  have hvalue := ofDigits_toDigits n
  rcases toDigits_head n with hzero | hhead
  · rw [hzero] at hvalue ⊢
    exact hvalue
  · rw [denotedValue_decimal hhead,
      ← ofDigits_eq_positional (isHex_of_allDigits (allDigits_toDigits n)), hvalue]

theorem toList_emit_int (value : UInt64) :
    (Expr.int value).emit.toList = Nat.toDigits 10 value.toNat := by
  rw [Expr.emit, Expr.pieces, layout_toList, spell_number, Pen.writeAll, List.append_nil,
    String.toList_ofList]

theorem intLiteral_emit (value : UInt64) :
    Parser.intLiteral (Expr.int value).emit.toList = .matched value [] := by
  have hlexeme := lexeme_toDigits value.toNat
  have hread := hlexeme.atHead? (denotedValue_toDigits value.toNat)
  rw [toList_emit_int, ← List.append_nil (Nat.toDigits 10 value.toNat),
    intLiteral_eq_matched_iff hlexeme.isPart Nat.toDigits_ne_nil endsWord_nil]
  exact ⟨hread, rfl⟩

/-- Where a word ends, `intLiteral` matches if and only if the whole word is a `Lexeme` in some base
and its `denotedValue` fits into a machine word. What is read is then the whole word and exactly its
value, and the value is read again from how it is written. -/
theorem intLiteral_exact {w tail : List Char} (hword : ∀ c ∈ w, Word.isPart c = true)
    (hdigit : ∃ c cs, w = c :: cs ∧ c.isDigit = true) (htail : EndsWord tail) :
    ((∃ value, Parser.intLiteral (w ++ tail) = .matched value (Blank.skip tail)) ↔
        Lexeme w ∧ denotedValue w < 2 ^ 64) ∧
      ∀ value rest, Parser.intLiteral (w ++ tail) = .matched value rest →
        value.toNat = denotedValue w ∧ rest = Blank.skip tail ∧
          Parser.intLiteral (Expr.int value).emit.toList = .matched value [] := by
  have hne : w ≠ [] := by
    obtain ⟨c, cs, rfl, -⟩ := hdigit
    exact List.cons_ne_nil c cs
  refine ⟨⟨?_, ?_⟩, ?_⟩
  · rintro ⟨value, hread⟩
    rw [intLiteral_eq_matched_iff hword hne htail, atHead?_eq_some_iff] at hread
    obtain ⟨⟨hlexeme, hvalue⟩, -⟩ := hread
    exact ⟨hlexeme, hvalue ▸ value.toNat_lt⟩
  · rintro ⟨hlexeme, hlt⟩
    have hvalue : denotedValue w = (UInt64.ofNat (denotedValue w)).toNat :=
      (UInt64.toNat_ofNat_of_lt' hlt).symm
    refine ⟨UInt64.ofNat (denotedValue w), ?_⟩
    rw [intLiteral_eq_matched_iff hword hne htail]
    exact ⟨hlexeme.atHead? hvalue, rfl⟩
  · intro value rest hread
    rw [intLiteral_eq_matched_iff hword hne htail, atHead?_eq_some_iff] at hread
    obtain ⟨⟨-, hvalue⟩, hrest⟩ := hread
    exact ⟨hvalue.symm, hrest, intLiteral_emit value⟩

/-- The largest value that fits, in hexadecimal and with a bracket behind it: `0X` and sixteen times
`f`. -/
theorem intLiteral_exact_largest :
    (∀ c ∈ '0' :: 'X' :: List.replicate 16 'f', Word.isPart c = true) ∧ EndsWord [')'] ∧
      ∃ value, Parser.intLiteral ('0' :: 'X' :: List.replicate 16 'f' ++ [')']) =
          .matched value [')'] ∧ value.toNat = 2 ^ 64 - 1 := by
  have hword : ∀ c ∈ '0' :: 'X' :: List.replicate 16 'f', Word.isPart c = true := by
    rw [← List.all_eq_true]
    decide
  have htail : EndsWord [')'] := by
    intro c hc
    obtain rfl : ')' = c := by simpa using hc
    rfl
  have hlexeme : Lexeme ('0' :: 'X' :: List.replicate 16 'f') :=
    .hex (.inr rfl) (by rw [← List.all_eq_true]; decide) (by decide)
  have hvalue : denotedValue ('0' :: 'X' :: List.replicate 16 'f') = 2 ^ 64 - 1 := by
    decide +kernel
  obtain ⟨hiff, hexact⟩ := intLiteral_exact hword ⟨'0', _, rfl, rfl⟩ htail
  obtain ⟨value, hread⟩ := hiff.2 ⟨hlexeme, by rw [hvalue]; decide⟩
  exact ⟨hword, htail, value, hread, by rw [(hexact value _ hread).1, hvalue]⟩

end Integer

end ShaderMinifier
