import ShaderMinifier.Grammar.Number
import ShaderMinifier.Proofs.Grammar.Token

/-
  Numbers are read back as they were written. A floating point literal is kept in its canonical
  spelling, so its writer is the identity: what has to be shown is that the canonical spelling of
  a lexeme is a lexeme again and its own canonical spelling. An integer is written in decimal.
-/

namespace ShaderMinifier

open Piece

/-- Decimal digits only, possibly none; `whole` and `fraction` of a `Lexeme` are such. -/
def AllDigits (s : List Char) : Prop := ∀ c ∈ s, c.isDigit = true

/-- What may stand behind a word: nothing with `isPart`, which would make it longer. -/
def EndsWord (tail : List Char) : Prop := ∀ c, tail.head? = some c → Word.isPart c = false

/-- What may stand behind a number: neither a point nor a character with `isPart`, which would make
it longer. -/
def EndsNumber (tail : List Char) : Prop :=
  ∀ c, tail.head? = some c → Word.isPart c = false ∧ c ≠ '.'

theorem EndsNumber.endsWord {tail : List Char} (h : EndsNumber tail) : EndsWord tail :=
  fun c hc => (h c hc).1

namespace FloatLiteral

/-- An exponent as `exponentAtHead` reads it, or nothing. -/
inductive Exponent : List Char → Prop
  | absent : Exponent []
  | present {mark : Char} {sign digits : List Char} (hmark : isExponentMark mark = true)
      (hsign : sign = [] ∨ sign = ['+'] ∨ sign = ['-']) (hdigits : AllDigits digits)
      (hne : digits ≠ []) : Exponent (mark :: (sign ++ digits))

/-- A floating point literal as it may be spelled: digits with a point among them, or digits with an
`Exponent`. -/
inductive Lexeme : List Char → Prop
  | pointed {whole fraction exponent : List Char} (hwhole : AllDigits whole)
      (hfraction : AllDigits fraction) (hne : ¬(whole = [] ∧ fraction = []))
      (hexp : Exponent exponent) : Lexeme (whole ++ '.' :: (fraction ++ exponent))
  | plain {whole exponent : List Char} (hwhole : AllDigits whole) (hne : whole ≠ [])
      (hexp : Exponent exponent) (hpresent : exponent ≠ []) : Lexeme (whole ++ exponent)

theorem Exponent.mem {exponent : List Char} (h : Exponent exponent) {c : Char}
    (hc : c ∈ exponent) : Word.isPart c = true ∨ c ∈ ['.', '+', '-'] := by
  cases h with
  | absent => cases hc
  | present hmark hsign hdigits _ =>
    simp only [List.mem_cons, List.mem_append] at hc
    rcases hc with rfl | hc | hc
    · simp only [isExponentMark, Bool.or_eq_true, beq_iff_eq] at hmark
      obtain rfl | rfl := hmark <;> exact .inl rfl
    · obtain rfl | rfl | rfl := hsign
      · cases hc
      · exact .inr (by simp [List.mem_singleton.1 hc])
      · exact .inr (by simp [List.mem_singleton.1 hc])
    · exact .inl (Word.isPart_of_isDigit (hdigits c hc))

theorem Lexeme.mem {lexeme : List Char} (h : Lexeme lexeme) {c : Char} (hc : c ∈ lexeme) :
    Word.isPart c = true ∨ c ∈ ['.', '+', '-'] := by
  cases h with
  | pointed hwhole hfraction _ hexp =>
    simp only [List.mem_append, List.mem_cons] at hc
    rcases hc with hc | rfl | hc | hc
    · exact .inl (Word.isPart_of_isDigit (hwhole c hc))
    · exact .inr (by simp)
    · exact .inl (Word.isPart_of_isDigit (hfraction c hc))
    · exact hexp.mem hc
  | plain hwhole _ hexp _ =>
    rcases List.mem_append.1 hc with hc | hc
    · exact .inl (Word.isPart_of_isDigit (hwhole c hc))
    · exact hexp.mem hc

/-! ## From the head of an input -/

theorem allDigits_takeWhile (s : List Char) : AllDigits (s.takeWhile Char.isDigit) :=
  fun _ hc => List.mem_takeWhile_imp hc

theorem exponent_of_exponentAtHead {input exponent rest : List Char}
    (h : exponentAtHead input = .ok (exponent, rest)) : Exponent exponent ∧ exponent ≠ [] := by
  cases input with
  | nil => cases h
  | cons mark input =>
    simp only [exponentAtHead] at h
    split at h
    · next hmark =>
      split at h
      · cases h
      · next hempty =>
        obtain ⟨rfl, -⟩ := Prod.mk.inj (Except.ok.inj h)
        have hsign : signAtHead input = [] ∨ signAtHead input = ['+'] ∨
            signAtHead input = ['-'] := by
          unfold signAtHead
          split <;> simp
        exact ⟨.present hmark hsign (allDigits_takeWhile _) (by simpa using hempty), by simp⟩
    · cases h

theorem lexeme_of_lexemeAtHead {input lexeme rest : List Char}
    (h : lexemeAtHead input = .ok (lexeme, rest)) : Lexeme lexeme := by
  unfold lexemeAtHead at h
  simp only at h
  split at h
  · split at h
    · cases h
    · next hempty =>
      simp only [Bool.and_eq_true, List.isEmpty_iff] at hempty
      split at h
      · next exponent tail hexp =>
        obtain ⟨rfl, -⟩ := Prod.mk.inj (Except.ok.inj h)
        rw [List.append_assoc, List.cons_append]
        exact .pointed (allDigits_takeWhile _) (allDigits_takeWhile _) hempty
          (exponent_of_exponentAtHead hexp).1
      · obtain ⟨rfl, -⟩ := Prod.mk.inj (Except.ok.inj h)
        have := Lexeme.pointed (allDigits_takeWhile _) (allDigits_takeWhile _) hempty .absent
        simpa using this
  · split at h
    · cases h
    · next hempty =>
      split at h
      · next exponent tail hexp =>
        obtain ⟨rfl, -⟩ := Prod.mk.inj (Except.ok.inj h)
        have hexp := exponent_of_exponentAtHead hexp
        exact .plain (allDigits_takeWhile _) (by simpa using hempty) hexp.1 hexp.2
      · cases h

/-! ## At the head of an input -/

/-- Digits stop before anything that is no digit, so `takeWhile` and `dropWhile` cut `digits ++
rest` between the two. -/
theorem span_digits {digits rest : List Char} (h : AllDigits digits)
    (hrest : ∀ c, rest.head? = some c → c.isDigit = false) :
    (digits ++ rest).takeWhile Char.isDigit = digits ∧
      (digits ++ rest).dropWhile Char.isDigit = rest :=
  takeWhile_append_stop h hrest

theorem isDigit_eq_false_of_endsWord {tail : List Char} (h : EndsWord tail) {c : Char}
    (hc : tail.head? = some c) : c.isDigit = false :=
  Word.isDigit_eq_false_of_isPart (h c hc)

theorem isDigit_eq_false_of_endsNumber {tail : List Char} (h : EndsNumber tail) {c : Char}
    (hc : tail.head? = some c) : c.isDigit = false :=
  isDigit_eq_false_of_endsWord h.endsWord hc

theorem isPart_of_isExponentMark {c : Char} (h : isExponentMark c = true) :
    Word.isPart c = true := by
  simp only [isExponentMark, Bool.or_eq_true, beq_iff_eq] at h
  obtain rfl | rfl := h <;> rfl

theorem isDigit_eq_false_of_isExponentMark {c : Char} (h : isExponentMark c = true) :
    c.isDigit = false := by
  simp only [isExponentMark, Bool.or_eq_true, beq_iff_eq] at h
  obtain rfl | rfl := h <;> rfl

theorem exponentAtHead_absent {tail : List Char} (h : EndsWord tail) :
    exponentAtHead tail = .error tail := by
  cases tail with
  | nil => rfl
  | cons c tail =>
    have hc : isExponentMark c = false := by
      rw [← Bool.not_eq_true]
      intro hm
      have := h c rfl
      rw [isPart_of_isExponentMark hm] at this
      cases this
    simp [exponentAtHead, hc]

theorem lexemeAtHead_absent {input : List Char}
    (h : ∀ c, input.head? = some c → c.isDigit = false ∧ c ≠ '.') :
    lexemeAtHead input = .error input := by
  cases input with
  | nil => rfl
  | cons c input =>
    obtain ⟨hd, hdot⟩ := h c rfl
    unfold lexemeAtHead
    simp only [List.takeWhile_cons, List.dropWhile_cons, hd, Bool.false_eq_true, if_false]
    split
    · simp_all
    · simp

/-- A point without digits is no number: `lexemeAtHead` goes wrong behind it. -/
theorem lexemeAtHead_point {tail : List Char}
    (h : ∀ c, tail.head? = some c → c.isDigit = false) :
    lexemeAtHead ('.' :: tail) = .error tail := by
  have hdigits : tail.takeWhile Char.isDigit = [] := by
    cases tail with
    | nil => rfl
    | cons c tail => simp [h c rfl]
  simp [lexemeAtHead, hdigits]

theorem lexemeAtHead_digits {digits tail : List Char} (hdigits : AllDigits digits)
    (hne : digits ≠ []) (htail : EndsNumber tail) :
    lexemeAtHead (digits ++ tail) = .error tail := by
  have hstop := span_digits hdigits (fun c => isDigit_eq_false_of_endsNumber htail)
  unfold lexemeAtHead
  simp only [hstop.1, hstop.2]
  split
  · exact absurd rfl (htail '.' rfl).2
  · simp [hne, exponentAtHead_absent htail.endsWord]

theorem signAtHead_append {sign digits : List Char} (tail : List Char)
    (hsign : sign = [] ∨ sign = ['+'] ∨ sign = ['-']) (hdigits : AllDigits digits)
    (hne : digits ≠ []) : signAtHead (sign ++ (digits ++ tail)) = sign := by
  cases digits with
  | nil => exact absurd rfl hne
  | cons d digits =>
    obtain rfl | rfl | rfl := hsign
    · have hd := hdigits d (by simp)
      simp only [List.nil_append, List.cons_append]
      unfold signAtHead
      split
      · simp_all
      · simp_all
      · rfl
    · rfl
    · rfl

theorem exponentAtHead_append {exponent tail : List Char} (hexp : Exponent exponent)
    (hpresent : exponent ≠ []) (htail : EndsWord tail) :
    exponentAtHead (exponent ++ tail) = .ok (exponent, tail) := by
  cases hexp with
  | absent => exact absurd rfl hpresent
  | present hmark hsign hdigits hne =>
    have hstop := span_digits hdigits (fun c => isDigit_eq_false_of_endsWord htail)
    rw [List.cons_append, List.append_assoc, exponentAtHead, if_pos hmark]
    simp only [signAtHead_append tail hsign hdigits hne, List.drop_left, hstop.1, hstop.2,
      List.isEmpty_iff, hne, if_false, List.cons_append]

theorem head_exponent_append {exponent tail : List Char} (hexp : Exponent exponent)
    (htail : EndsWord tail) {c : Char} (hc : (exponent ++ tail).head? = some c) :
    c.isDigit = false ∧ (exponent ≠ [] → c ≠ '.') := by
  cases hexp with
  | absent => exact ⟨isDigit_eq_false_of_endsWord htail hc, fun h => absurd rfl h⟩
  | present hmark _ _ _ =>
    obtain rfl := by simpa using hc
    refine ⟨isDigit_eq_false_of_isExponentMark hmark, ?_⟩
    rintro - rfl
    cases hmark

theorem lexemeAtHead_append {lexeme tail : List Char} (h : Lexeme lexeme)
    (htail : EndsWord tail) : lexemeAtHead (lexeme ++ tail) = .ok (lexeme, tail) := by
  cases h with
  | @pointed whole fraction exponent hwhole hfraction hne hexp =>
    have hdot : ∀ c, ('.' :: (fraction ++ (exponent ++ tail))).head? = some c →
        c.isDigit = false := by
      intro c hc
      obtain rfl := by simpa using hc
      rfl
    have hw := span_digits hwhole hdot
    have hf := span_digits hfraction (fun c hc => (head_exponent_append hexp htail hc).1)
    simp only [List.append_assoc, List.cons_append]
    unfold lexemeAtHead
    simp only [hw.1, hw.2, hf.1, hf.2, Bool.and_eq_true, List.isEmpty_iff, hne, if_false]
    by_cases hpresent : exponent = []
    · subst hpresent
      simp only [List.nil_append, exponentAtHead_absent htail, List.append_nil]
    · simp only [exponentAtHead_append hexp hpresent htail, List.append_assoc, List.cons_append]
  | @plain whole exponent hwhole hne hexp hpresent =>
    have hw := span_digits hwhole (fun c hc => (head_exponent_append hexp htail hc).1)
    rw [List.append_assoc]
    unfold lexemeAtHead
    simp only [hw.1, hw.2]
    split
    · next rest hrest =>
      exact absurd rfl ((head_exponent_append hexp htail (by rw [hrest]; rfl)).2 hpresent)
    · simp only [List.isEmpty_iff, hne, if_false, exponentAtHead_append hexp hpresent htail]

end FloatLiteral

/-! ## Canonical spellings -/

namespace AllDigits

theorem not_mark {s : List Char} (h : AllDigits s) :
    ∀ c ∈ s, FloatLiteral.isExponentMark c = false := by
  intro c hc
  rw [← Bool.not_eq_true]
  intro hm
  have := FloatLiteral.isDigit_eq_false_of_isExponentMark hm
  rw [h c hc] at this
  cases this

/-- Digits around a point hold no mark of an exponent (`isExponentMark`), so `canonical` finds the
exponent behind them. -/
theorem not_mark_pointed {w f : List Char} (hw : AllDigits w) (hf : AllDigits f) :
    ∀ c ∈ w ++ '.' :: f, FloatLiteral.isExponentMark c = false := by
  intro c hc
  rcases List.mem_append.1 hc with hc | hc
  · exact hw.not_mark c hc
  · rcases List.mem_cons.1 hc with rfl | hc
    · rfl
    · exact hf.not_mark c hc

theorem ne_point {s : List Char} (h : AllDigits s) : ∀ c ∈ s, (c != '.') = true := by
  intro c hc
  have := h c hc
  rw [bne_iff_ne]
  rintro rfl
  cases this

theorem dropLeadingZeros {s : List Char} (h : AllDigits s) :
    AllDigits (FloatLiteral.dropLeadingZeros s) :=
  fun c hc => h c ((List.dropWhile_suffix _).subset hc)

theorem dropTrailingZeros {s : List Char} (h : AllDigits s) :
    AllDigits (FloatLiteral.dropTrailingZeros s) := by
  intro c hc
  have hc' := (List.dropWhile_suffix (· == '0')).subset (List.mem_reverse.1 hc)
  exact h c (List.mem_reverse.1 hc')

theorem orZero {s : List Char} (h : AllDigits s) : AllDigits (FloatLiteral.orZero s) := by
  unfold FloatLiteral.orZero
  split
  · intro c hc
    obtain rfl := by simpa using hc
    rfl
  · exact h

end AllDigits

namespace FloatLiteral


/-- The canonical spelling of an exponent with its mark: `canonicalExponent` behind a small `e`, and
nothing if there is no exponent. -/
def canonicalTail : List Char → List Char
  | [] => []
  | _ :: exponent => 'e' :: canonicalExponent exponent

theorem span_mantissa {mantissa exponent : List Char}
    (hm : ∀ c ∈ mantissa, isExponentMark c = false) (hexp : Exponent exponent) :
    (mantissa ++ exponent).takeWhile (fun c => !isExponentMark c) = mantissa ∧
      (mantissa ++ exponent).dropWhile (fun c => !isExponentMark c) = exponent := by
  have hstop : ∀ c, exponent.head? = some c → (!isExponentMark c) = false := by
    intro c hc
    cases hexp with
    | absent => cases hc
    | present hmark _ _ _ =>
      obtain rfl := by simpa using hc
      simp [hmark]
  exact takeWhile_append_stop (by simpa using hm) hstop

theorem canonical_append {mantissa exponent : List Char}
    (hm : ∀ c ∈ mantissa, isExponentMark c = false) (hexp : Exponent exponent) :
    canonical (mantissa ++ exponent) = canonicalMantissa mantissa ++ canonicalTail exponent := by
  obtain ⟨htake, hdrop⟩ := span_mantissa hm hexp
  unfold canonical
  simp only [htake, hdrop]
  cases exponent <;> simp [canonicalTail]

theorem orZero_ne_nil (s : List Char) : orZero s ≠ [] := by
  unfold orZero
  split
  · simp
  · next h => simpa using h

theorem dropLeadingZeros_idem (s : List Char) :
    dropLeadingZeros (dropLeadingZeros s) = dropLeadingZeros s :=
  List.dropWhile_idempotent _ s

theorem dropTrailingZeros_idem (s : List Char) :
    dropTrailingZeros (dropTrailingZeros s) = dropTrailingZeros s := by
  simp only [dropTrailingZeros, List.reverse_reverse, List.dropWhile_idempotent _]

theorem orZero_dropLeadingZeros_idem (s : List Char) :
    orZero (dropLeadingZeros (orZero (dropLeadingZeros s))) = orZero (dropLeadingZeros s) := by
  by_cases h : dropLeadingZeros s = []
  · rw [h]
    rfl
  · have horZero : orZero (dropLeadingZeros s) = dropLeadingZeros s := by
      simp [orZero, h]
    rw [horZero, dropLeadingZeros_idem, horZero]

theorem canonicalMantissa_pointed {whole fraction : List Char} (hwhole : AllDigits whole) :
    canonicalMantissa (whole ++ '.' :: fraction) =
      if dropLeadingZeros whole = [] ∧ dropTrailingZeros fraction = [] then ['0', '.']
      else dropLeadingZeros whole ++ '.' :: dropTrailingZeros fraction := by
  have hstop : ∀ c, ('.' :: fraction).head? = some c → (c != '.') = false := by simp
  obtain ⟨htake, hdrop⟩ := takeWhile_append_stop hwhole.ne_point hstop
  unfold canonicalMantissa
  simp only [htake, hdrop, Bool.and_eq_true, List.isEmpty_iff]

theorem canonicalMantissa_plain {whole : List Char} (hwhole : AllDigits whole) :
    canonicalMantissa whole = orZero (dropLeadingZeros whole) := by
  have htake : whole.takeWhile (· != '.') = whole :=
    List.takeWhile_eq_self_iff.2 hwhole.ne_point
  have hdrop : whole.dropWhile (· != '.') = [] := List.dropWhile_eq_nil_iff.2 hwhole.ne_point
  unfold canonicalMantissa
  simp only [htake, hdrop]

theorem canonicalExponent_digits {digits : List Char} (h : AllDigits digits) :
    canonicalExponent digits = orZero (dropLeadingZeros digits) := by
  unfold canonicalExponent
  split
  · have := h '-' (by simp)
    cases this
  · have := h '+' (by simp)
    cases this
  · rfl

theorem canonicalTail_present {exponent : List Char} (h : Exponent exponent) (hne : exponent ≠ []) :
    Exponent (canonicalTail exponent) ∧
      canonicalTail (canonicalTail exponent) = canonicalTail exponent := by
  cases h with
  | absent => exact absurd rfl hne
  | @present mark sign digits hmark hsign hdigits hdne =>
    have hzero : Exponent ('e' :: orZero (dropLeadingZeros digits)) ∧
        canonicalExponent (orZero (dropLeadingZeros digits)) =
          orZero (dropLeadingZeros digits) := by
      refine ⟨.present  rfl (.inl rfl) hdigits.dropLeadingZeros.orZero
        (orZero_ne_nil _), ?_⟩
      rw [canonicalExponent_digits hdigits.dropLeadingZeros.orZero, orZero_dropLeadingZeros_idem]
    obtain rfl | rfl | rfl := hsign
    · simp only [List.nil_append, canonicalTail, canonicalExponent_digits hdigits, hzero.2]
      exact ⟨hzero.1, trivial⟩
    · have hplus : canonicalExponent (['+'] ++ digits) = orZero (dropLeadingZeros digits) := rfl
      simp only [canonicalTail, hplus, hzero.2]
      exact ⟨hzero.1, trivial⟩
    · by_cases hempty : dropLeadingZeros digits = []
      · have hminus : canonicalExponent (['-'] ++ digits) = ['0'] := by
          simp [canonicalExponent, hempty]
        simp only [canonicalTail, hminus]
        refine ⟨.present  rfl (.inl rfl) ?_ (by simp), rfl⟩
        intro c hc
        obtain rfl := by simpa using hc
        rfl
      · have hminus : ∀ s, dropLeadingZeros s ≠ [] →
            canonicalExponent ('-' :: s) = '-' :: dropLeadingZeros s := by
          intro s hs
          simp [canonicalExponent, hs]
        have hidem := dropLeadingZeros_idem digits
        simp only [canonicalTail, List.singleton_append, hminus digits hempty,
          hminus _ (hidem.symm ▸ hempty), hidem]
        exact ⟨.present  rfl (.inr (.inr rfl)) hdigits.dropLeadingZeros hempty,
          trivial⟩

theorem canonicalTail_spec {exponent : List Char} (h : Exponent exponent) :
    Exponent (canonicalTail exponent) ∧
      canonicalTail (canonicalTail exponent) = canonicalTail exponent := by
  by_cases hne : exponent = []
  · subst hne
    exact ⟨.absent, rfl⟩
  · exact canonicalTail_present h hne

/-- The mantissa that stays after `canonicalMantissa`: digits around a point without idle zeros,
which stays as it is the second time. -/
theorem canonicalMantissa_digits {whole fraction : List Char} (hwhole : AllDigits whole)
    (hfraction : AllDigits fraction) :
    ∃ w f, AllDigits w ∧ AllDigits f ∧ ¬(w = [] ∧ f = []) ∧
      canonicalMantissa (whole ++ '.' :: fraction) = w ++ '.' :: f ∧
      canonicalMantissa (w ++ '.' :: f) = w ++ '.' :: f := by
  rw [canonicalMantissa_pointed hwhole]
  by_cases hempty : dropLeadingZeros whole = [] ∧ dropTrailingZeros fraction = []
  · refine ⟨['0'], [], ?_, ?_, by simp, by simp [hempty], rfl⟩
    · intro c hc
      obtain rfl := by simpa using hc
      rfl
    · intro c hc
      cases hc
  · refine ⟨_, _, hwhole.dropLeadingZeros, hfraction.dropTrailingZeros, hempty,
      if_neg hempty, ?_⟩
    rw [canonicalMantissa_pointed hwhole.dropLeadingZeros, dropLeadingZeros_idem,
      dropTrailingZeros_idem, if_neg hempty]

/-- The `canonical` spelling of a `Lexeme` is a `Lexeme`, and it is its own canonical spelling. -/
theorem Lexeme.canonical {lexeme : List Char} (h : Lexeme lexeme) :
    Lexeme (canonical lexeme) ∧
      FloatLiteral.canonical (FloatLiteral.canonical lexeme) = FloatLiteral.canonical lexeme := by
  cases h with
  | @pointed whole fraction exponent hwhole hfraction hne hexp =>
    obtain ⟨w, f, hw, hf, hwf, hmant, hfix⟩ := canonicalMantissa_digits hwhole hfraction
    have htail := canonicalTail_spec hexp
    have hassoc : ∀ w f e : List Char, w ++ '.' :: (f ++ e) = (w ++ '.' :: f) ++ e := by simp
    have hcanon : FloatLiteral.canonical (whole ++ '.' :: (fraction ++ exponent)) =
        w ++ '.' :: (f ++ canonicalTail exponent) := by
      rw [hassoc, canonical_append (hwhole.not_mark_pointed hfraction) hexp, hmant, hassoc]
    rw [hcanon]
    refine ⟨.pointed hw hf hwf htail.1, ?_⟩
    rw [hassoc, canonical_append (hw.not_mark_pointed hf) htail.1, hfix, htail.2]
  | @plain whole exponent hwhole hne hexp hpresent =>
    have htail := canonicalTail_spec hexp
    have hw := hwhole.dropLeadingZeros.orZero
    have hcanon : FloatLiteral.canonical (whole ++ exponent) =
        orZero (dropLeadingZeros whole) ++ canonicalTail exponent := by
      rw [canonical_append hwhole.not_mark hexp, canonicalMantissa_plain hwhole]
    have htne : canonicalTail exponent ≠ [] := by
      cases exponent with
      | nil => exact absurd rfl hpresent
      | cons c e => simp [canonicalTail]
    rw [hcanon]
    refine ⟨.plain hw (orZero_ne_nil _) htail.1 htne, ?_⟩
    rw [canonical_append hw.not_mark htail.1, canonicalMantissa_plain hw,
      orZero_dropLeadingZeros_idem, htail.2]

/-- A literal that a text can spell: its text is a `Lexeme` in `canonical` spelling. The parser
builds no other. -/
structure Proper (f : FloatLiteral) : Prop where
  lexeme : Lexeme f.text.toList
  fixed : ofText f.text = f

theorem Lexeme.proper {lexeme : List Char} (h : Lexeme lexeme) :
    (ofText (String.ofList lexeme)).Proper := by
  have hc := h.canonical
  constructor
  · simpa [ofText] using hc.1
  · simp [ofText, hc.2]

theorem Lexeme.head {lexeme : List Char} (h : Lexeme lexeme) :
    ∃ c cs, lexeme = c :: cs ∧ (c.isDigit = true ∨ c = '.') := by
  cases h with
  | @pointed whole fraction exponent hwhole _ _ _ =>
    cases whole with
    | nil => exact ⟨_, _, rfl, .inr rfl⟩
    | cons c whole => exact ⟨c, _, rfl, .inl (hwhole c (by simp))⟩
  | @plain whole exponent hwhole hne _ _ =>
    cases whole with
    | nil => exact absurd rfl hne
    | cons c whole => exact ⟨c, _, rfl, .inl (hwhole c (by simp))⟩

theorem Lexeme.behind_point {cs : List Char} (h : Lexeme ('.' :: cs)) :
    ∃ d ds, cs = d :: ds ∧ d.isDigit = true := by
  generalize hlexeme : '.' :: cs = lexeme at h
  cases h with
  | @pointed whole fraction exponent hwhole hfraction hne _ =>
    cases whole with
    | nil =>
      obtain ⟨d, ds, rfl⟩ := List.exists_cons_of_ne_nil fun h => hne ⟨rfl, h⟩
      exact ⟨d, ds ++ exponent, (List.cons.inj hlexeme).2, hfraction d (by simp)⟩
    | cons c whole =>
      have hc := hwhole c (by simp)
      rw [← (List.cons.inj hlexeme).1] at hc
      cases hc
  | @plain whole exponent hwhole hne _ _ =>
    obtain ⟨c, whole, rfl⟩ := List.exists_cons_of_ne_nil hne
    have hc := hwhole c (by simp)
    rw [← (List.cons.inj hlexeme).1] at hc
    cases hc

theorem Proper.isLexeme {f : FloatLiteral} (h : f.Proper) :
    (Piece.number f.text).isLexeme = true := by
  obtain ⟨c, cs, hlist, hc⟩ := h.lexeme.head
  simpa [Piece.isLexeme, hlist] using hc

end FloatLiteral

/-! ## Integers -/

namespace Integer

theorem allDigits_toDigits (n : Nat) : AllDigits (Nat.toDigits 10 n) :=
  fun _ hc => Nat.isDigit_of_mem_toDigits (by decide) (by decide) hc

theorem ofDigits_toDigits (n : Nat) : ofDigits 10 (Nat.toDigits 10 n) = n := by
  have hfold : ofDigits 10 (Nat.toDigits 10 n) = Nat.ofDigitChars 10 (Nat.toDigits 10 n) 0 := by
    rw [ofDigits, Nat.ofDigitChars_eq_foldl]
    refine List.foldl_ext _ _ _ fun value c hc => ?_
    rw [digitValue, if_pos (allDigits_toDigits n c hc)]
  rw [hfold, Nat.ofDigitChars_ten_toDigits]

/-- Only zero is written by `Nat.toDigits` with a leading zero, so `decimalAtHead?` accepts what is
written. -/
theorem toDigits_head (n : Nat) :
    Nat.toDigits 10 n = ['0'] ∨ (Nat.toDigits 10 n).head? ≠ some '0' := by
  induction n using Nat.strong_induction_on with
  | _ n ih =>
    rw [Nat.toDigits_eq_if (by decide)]
    split
    · next hlt =>
      interval_cases n <;> decide
    · next hge =>
      right
      have hne : Nat.toDigits 10 (n / 10) ≠ ['0'] := by
        intro h
        have hval := ofDigits_toDigits (n / 10)
        rw [h] at hval
        have : ofDigits 10 ['0'] = 0 := rfl
        omega
      have hhead := (ih (n / 10) (by omega)).resolve_left hne
      cases hdigits : Nat.toDigits 10 (n / 10) with
      | nil => exact absurd hdigits (Nat.toDigits_ne_nil)
      | cons c cs =>
        rw [hdigits] at hhead
        simpa using hhead

theorem isDigit_of_isOctal {c : Char} (h : isOctal c = true) : c.isDigit = true := by
  simp only [isOctal, Bool.and_eq_true, decide_eq_true_eq] at h
  rw [Char.isDigit_iff_toNat]
  have h1 : '0'.toNat ≤ c.toNat := h.1
  have h2 : c.toNat ≤ '7'.toNat := h.2
  have h3 : '7'.toNat = 55 := rfl
  have h4 : '9'.toNat = 57 := rfl
  exact ⟨h1, by omega⟩

theorem isPart_of_isHex {c : Char} (h : isHex c = true) : Word.isPart c = true := by
  simp only [isHex, Bool.or_eq_true, Bool.and_eq_true, decide_eq_true_eq] at h
  simp only [Word.isPart, Char.isAlphanum, Char.isAlpha, Char.isUpper, Char.isLower,
    Bool.or_eq_true, Bool.and_eq_true, decide_eq_true_eq]
  rcases h with (h | ⟨hlo, hhi⟩) | ⟨hlo, hhi⟩
  · exact .inl (.inr h)
  · exact .inl (.inl (.inr ⟨hlo, hhi.trans (by decide : 'f' ≤ 'z')⟩))
  · exact .inl (.inl (.inl ⟨hlo, hhi.trans (by decide : 'F' ≤ 'Z')⟩))

theorem hexAtHead?_eq_none {c : Char} (hc : c ≠ '0') (input : List Char) :
    hexAtHead? (c :: input) = none := by
  simp [hexAtHead?, hc]

theorem octalAtHead?_eq_none {c : Char} (hc : c ≠ '0') (input : List Char) :
    octalAtHead? (c :: input) = none := by
  simp [octalAtHead?, hc]

/-- The mark of a hexadecimal number would have to stand behind the zero, but the word ends there
(`EndsWord`). -/
theorem hexAtHead?_zero {tail : List Char} (htail : EndsWord tail) :
    hexAtHead? ('0' :: tail) = none := by
  cases tail with
  | nil => rfl
  | cons c tail =>
    have hpart := htail c rfl
    have hx : (c == 'x' || c == 'X') = false := by
      rw [← Bool.not_eq_true]
      intro h
      simp only [Bool.or_eq_true, beq_iff_eq] at h
      obtain rfl | rfl := h <;> cases hpart
    simp [hexAtHead?, hx]

theorem atHead?_toDigits (value : UInt64) {tail : List Char} (htail : EndsNumber tail) :
    atHead? (Nat.toDigits 10 value.toNat ++ tail) = some (value, tail) := by
  have hall := allDigits_toDigits value.toNat
  have hstop := FloatLiteral.span_digits hall
    (fun c => FloatLiteral.isDigit_eq_false_of_endsNumber htail)
  have hof : ofDigits? 10 (Nat.toDigits 10 value.toNat) = some value := by
    have hlt := value.toNat_lt
    simp [ofDigits?, ofDigits_toDigits, Nat.toDigits_ne_nil, hlt]
  rcases toDigits_head value.toNat with hzero | hhead
  · have hvalue : value = 0 := by
      have hval := ofDigits_toDigits value.toNat
      rw [hzero] at hval
      exact UInt64.toNat_inj.1 hval.symm
    have hoctal : ∀ c, tail.head? = some c → isOctal c = false := by
      intro c hc
      have hd := FloatLiteral.isDigit_eq_false_of_endsNumber htail hc
      rw [← Bool.not_eq_true] at hd ⊢
      exact fun ho => hd (isDigit_of_isOctal ho)
    have hoct : octalAtHead? ('0' :: tail) = none := by
      have hspan : tail.takeWhile isOctal = [] := by
        cases tail with
        | nil => rfl
        | cons c tail => simp [hoctal c rfl]
      simp [octalAtHead?, hspan, ofDigits?]
    have hdec : decimalAtHead? ('0' :: tail) = some (value, tail) := by
      rw [hzero] at hstop hof
      rw [List.singleton_append] at hstop
      simp only [decimalAtHead?, hstop.1, hstop.2, hof]
      simp
    rw [hzero, List.singleton_append, atHead?, hexAtHead?_zero htail.endsWord, hoct, hdec]
    rfl
  · -- no leading zero, so only the decimal form fits
    have hdec : decimalAtHead? (Nat.toDigits 10 value.toNat ++ tail) = some (value, tail) := by
      simp [decimalAtHead?, hstop.1, hstop.2, hof, hhead]
    cases hdigits : Nat.toDigits 10 value.toNat with
    | nil => exact absurd hdigits Nat.toDigits_ne_nil
    | cons c cs =>
      rw [hdigits] at hhead hdec
      have hc : c ≠ '0' := by simpa using hhead
      rw [List.cons_append] at hdec ⊢
      rw [atHead?, hexAtHead?_eq_none hc, octalAtHead?_eq_none hc, hdec]
      rfl

theorem atHead?_absent {input : List Char} (h : ∀ c, input.head? = some c → c.isDigit = false) :
    atHead? input = none := by
  cases input with
  | nil => rfl
  | cons c input =>
    have hd := h c rfl
    have hc : c ≠ '0' := by
      rintro rfl
      cases hd
    have hdec : decimalAtHead? (c :: input) = none := by
      simp [decimalAtHead?, hd, ofDigits?]
    rw [atHead?, hexAtHead?_eq_none hc, octalAtHead?_eq_none hc, hdec]
    rfl

theorem lexemeAtHead_toDigits (value : UInt64) {tail : List Char} (htail : EndsNumber tail) :
    FloatLiteral.lexemeAtHead (Nat.toDigits 10 value.toNat ++ tail) = .error tail :=
  FloatLiteral.lexemeAtHead_digits (allDigits_toDigits value.toNat) Nat.toDigits_ne_nil htail

theorem isLexeme_toDigits (n : Nat) :
    (Piece.number (String.ofList (Nat.toDigits 10 n))).isLexeme = true := by
  have hall := allDigits_toDigits n
  cases hdigits : Nat.toDigits 10 n with
  | nil => exact absurd hdigits Nat.toDigits_ne_nil
  | cons c cs =>
    rw [hdigits] at hall
    simp [Piece.isLexeme, hall c (by simp)]

end Integer

/-! ## The parsers -/

namespace Parser

variable {k : List Piece}

theorem endsNumber_spell {t : String} (hk : Clean (.number t :: k)) :
    EndsNumber ((Pen.past (.number t)).writeAll k) :=
  fun _ hc => tail_of_number hk hc

theorem floatLiteral_spell {f : FloatLiteral} (hf : f.Proper) (hk : Clean (.number f.text :: k)) :
    floatLiteral (spell (.number f.text :: k)) = .matched f (spell k) := by
  have hread := FloatLiteral.lexemeAtHead_append hf.lexeme (endsNumber_spell hk).endsWord
  simp only [floatLiteral, spell_number, hread, skip_writeAll _ hk.tail, String.ofList_toList,
    hf.fixed]

theorem yields_floatLiteral : Yields floatLiteral FloatLiteral.Proper := by
  intro input f rest h
  unfold floatLiteral at h
  split at h
  · next lexeme tail hlexeme =>
    obtain ⟨rfl, -⟩ := Reply.matched.inj h
    exact (FloatLiteral.lexeme_of_lexemeAtHead hlexeme).proper
  · cases h

theorem intLiteral_spell (value : UInt64)
    (hk : Clean (.number (String.ofList (Nat.toDigits 10 value.toNat)) :: k)) :
    intLiteral (spell (.number (String.ofList (Nat.toDigits 10 value.toNat)) :: k)) =
      .matched value (spell k) := by
  have htail := endsNumber_spell hk
  have hread := Integer.atHead?_toDigits value htail
  have hskip := skip_writeAll (Pen.past (.number (String.ofList (Nat.toDigits 10 value.toNat))))
    hk.tail
  simp only [intLiteral, spell_number, String.toList_ofList, hread]
  cases hrest : (Pen.past (.number (String.ofList (Nat.toDigits 10 value.toNat)))).writeAll k with
  | nil =>
    rw [hrest] at hskip
    rw [← hskip]
    rfl
  | cons c rest =>
    rw [hrest] at hskip htail
    simp only [(htail c rfl).1, Bool.false_eq_true, if_false, hskip]

theorem floatLiteral_mismatch_int (value : UInt64)
    (hk : Clean (.number (String.ofList (Nat.toDigits 10 value.toNat)) :: k)) :
    ∃ fault, floatLiteral (spell (.number (String.ofList (Nat.toDigits 10 value.toNat)) :: k)) =
      .mismatch fault := by
  have hread := Integer.lexemeAtHead_toDigits value (endsNumber_spell hk)
  rw [spell_number, String.toList_ofList]
  unfold floatLiteral
  rw [hread]
  exact ⟨_, rfl⟩

theorem floatLiteral_mismatch {input : List Char}
    (h : ∀ c, input.head? = some c → c.isDigit = false ∧ c ≠ '.') :
    floatLiteral input = .mismatch ⟨input, .unexpected⟩ := by
  simp only [floatLiteral, FloatLiteral.lexemeAtHead_absent h]

theorem intLiteral_mismatch {input : List Char}
    (h : ∀ c, input.head? = some c → c.isDigit = false) :
    intLiteral input = .mismatch ⟨input, .unexpected⟩ := by
  simp only [intLiteral, Integer.atHead?_absent h]

theorem boolLiteral_spell (value : Bool)
    (hk : Clean (.token (if value then "true" else "false") :: k)) :
    boolLiteral (spell (.token (if value then "true" else "false") :: k)) =
      .matched value (spell k) := by
  cases value with
  | true => exact orElse_of_matched (bind_of_matched (keyword_spell (by decide) hk))
  | false =>
    refine orElse_of_mismatch (bind_of_mismatch (keyword_mismatch hk ?_))
      (bind_of_matched (keyword_spell (by decide) hk))
    rw [headWord?_word (by decide)]
    decide

theorem boolLiteral_mismatch (hk : Clean k) (ht : headWord? k ≠ some "true")
    (hf : headWord? k ≠ some "false") : ∃ fault, boolLiteral (spell k) = .mismatch fault :=
  ⟨_, orElse_mismatch (bind_of_mismatch (keyword_mismatch hk ht))
    (bind_of_mismatch (keyword_mismatch hk hf))⟩

end Parser

end ShaderMinifier
