import Mathlib
import ShaderMinifier.Grammar.Token
import ShaderMinifier.Layout

/-
  The lexer's classes as properties of texts: what is a blank, a word or a symbol, and what may
  stand behind a symbol so that it is read as it is and not as a longer one.
-/

namespace ShaderMinifier

/-! ## Blanks -/

namespace Blank

theorem skip_of_after?_eq_none {s : List Char} (h : after? s = none) : skip s = s := by
  unfold skip
  cases s with
  | nil => rfl
  | cons c s => simp only [skipUpTo, h]

theorem skip_space {c : Char} (hc : isSpace c = true) (s : List Char) : skip (c :: s) = skip s := by
  have h : after? (c :: s) = some s := by
    simp only [isSpace, Bool.or_eq_true, beq_iff_eq] at hc
    obtain ((rfl | rfl) | rfl) | rfl := hc <;> rfl
  simp only [skip, skipUpTo, h]

theorem after?_eq_none_of_ne {c : Char} (h1 : c ≠ '/') (h2 : c ≠ '\\') (h3 : isSpace c = false)
    (s : List Char) : after? (c :: s) = none := by
  unfold after?
  split <;> simp_all

theorem after?_slash {s : List Char} (h1 : s.head? ≠ some '/') (h2 : s.head? ≠ some '*') :
    after? ('/' :: s) = none := by
  cases s with
  | nil => rfl
  | cons c s =>
    have hc1 : c ≠ '/' := by simpa using h1
    have hc2 : c ≠ '*' := by simpa using h2
    have hs : isSpace '/' = false := by decide
    unfold after?
    split
    · simp_all
    · simp_all
    · simp_all
    · next heq =>
      obtain ⟨rfl, -⟩ := List.cons.inj heq
      rw [hs]
      rfl
    · rfl

end Blank

/-! ## Words and symbols as texts -/

namespace Word

/-- The text is one word: `isStart` holds of its first character and `isPart` of the others. -/
def isWord (w : String) : Bool :=
  match w.toList with
  | [] => false
  | c :: cs => isStart c && cs.all isPart

/-- The text starts and ends like a word. It may be several words, as the text of
`TypeQualifier.invariantVarying` is. -/
def isWordLike (text : String) : Bool :=
  text.toList.head?.any isStart && text.toList.getLast?.any isPart

theorem isPart_of_isStart {c : Char} (h : isStart c = true) : isPart c = true := by
  simp only [isStart, isPart, Char.isAlphanum, Bool.or_eq_true] at *
  tauto

theorem isPart_of_isDigit {c : Char} (h : c.isDigit = true) : isPart c = true := by
  simp [isPart, Char.isAlphanum, h]

theorem isStart_eq_false_of_isDigit {c : Char} (h : c.isDigit = true) : isStart c = false := by
  have h9 : c.toNat ≤ 57 := (Char.isDigit_iff_toNat.1 h).2
  rw [← Bool.not_eq_true]
  intro hs
  simp only [isStart, Char.isAlpha, Char.isUpper, Char.isLower, Bool.or_eq_true, Bool.and_eq_true,
    decide_eq_true_eq, UInt32.le_iff_toNat_le, ge_iff_le, beq_iff_eq] at hs
  have hval : c.toNat = c.val.toNat := rfl
  have hA : 'A'.val.toNat = 65 := rfl
  have ha : 'a'.val.toNat = 97 := rfl
  rcases hs with (hs | hs) | rfl
  · omega
  · omega
  · cases h

theorem isDigit_eq_false_of_isStart {c : Char} (h : isStart c = true) : c.isDigit = false := by
  rw [← Bool.not_eq_true]
  intro hd
  rw [isStart_eq_false_of_isDigit hd] at h
  cases h

theorem isStart_eq_false_of_isPart {c : Char} (h : isPart c = false) : isStart c = false := by
  rw [← Bool.not_eq_true] at h ⊢
  exact fun hs => h (isPart_of_isStart hs)

theorem isDigit_eq_false_of_isPart {c : Char} (h : isPart c = false) : c.isDigit = false := by
  rw [← Bool.not_eq_true] at h ⊢
  exact fun hd => h (isPart_of_isDigit hd)

theorem isPart_eq_false_of_isSpace {c : Char} (h : Blank.isSpace c = true) : isPart c = false := by
  simp only [Blank.isSpace, Bool.or_eq_true, beq_iff_eq] at h
  obtain ((rfl | rfl) | rfl) | rfl := h <;> rfl

theorem isWord_iff {w : String} :
    isWord w = true ↔
      ∃ c cs, w.toList = c :: cs ∧ isStart c = true ∧ ∀ d ∈ cs, isPart d = true := by
  unfold isWord
  cases h : w.toList with
  | nil => simp
  | cons c cs => simp

theorem isPart_of_mem {w : String} (h : isWord w = true) : ∀ d ∈ w.toList, isPart d = true := by
  obtain ⟨c, cs, hw, hc, hcs⟩ := isWord_iff.1 h
  intro d hd
  rw [hw] at hd
  rcases List.mem_cons.1 hd with rfl | hd
  · exact isPart_of_isStart hc
  · exact hcs d hd

theorem isWordLike_of_isWord {w : String} (h : isWord w = true) : isWordLike w = true := by
  obtain ⟨c, cs, hw, hc, hcs⟩ := isWord_iff.1 h
  simp only [isWordLike, hw, List.head?_cons, Option.any_some, Bool.and_eq_true]
  refine ⟨hc, ?_⟩
  cases cs using List.reverseRecOn with
  | nil => simpa using isPart_of_isStart hc
  | append_singleton cs d =>
    have hd : isPart d = true := hcs d (by simp)
    rw [← List.cons_append, List.getLast?_concat]
    simpa using hd

/-- The first word of a text that starts like a word, which is what `Word.atHead?` finds of it. -/
def firstOf (text : String) : String := String.ofList (text.toList.takeWhile isPart)

theorem firstOf_of_isWord {w : String} (h : isWord w = true) : firstOf w = w := by
  rw [firstOf, List.takeWhile_eq_self_iff.2 (isPart_of_mem h), String.ofList_toList]

end Word

namespace Symbol

/-- A longer symbol of `all` starts with this text and this character, so the lexer would not stop
between them. -/
def grows (text : String) (c : Char) : Bool :=
  all.any fun s => (text.toList ++ [c]).isPrefixOf s.toList

theorem after?_append (text rest : List Char) : after? text (text ++ rest) = some rest := by
  induction text with
  | nil => rfl
  | cons c text ih => simp [after?, ih]

theorem after?_eq_some {text input rest : List Char} (h : after? text input = some rest) :
    input = text ++ rest := by
  induction text generalizing input with
  | nil => simpa [after?] using h
  | cons t text ih =>
    cases input with
    | nil => simp [after?] at h
    | cons c input =>
      simp only [after?] at h
      split at h
      · next htc => rw [ih h, htc]; rfl
      · cases h

/-- No symbol of `all` stands behind a shorter one that it starts with, so the first hit of
`Symbol.atHead?` is the longest. -/
theorem earlier_not_within :
    ∀ t ∈ all, ∀ s ∈ all.takeWhile (· != t), ¬ s.toList <+: t.toList := by
  decide

theorem isWordLike_eq_false : ∀ t ∈ all, Word.isWordLike t = false := by decide

theorem char_of_symbol (s : String) (hs : s ∈ all) (c : Char) (hc : c ∈ s.toList) :
    (Blank.isSpace c || c == '#' || Word.isPart c) = false := by
  have h : (all.all fun s => s.toList.all fun c =>
      !(Blank.isSpace c || c == '#' || Word.isPart c)) = true := by decide +kernel
  simpa using List.all_eq_true.1 (List.all_eq_true.1 h s hs) c hc

theorem isPart_eq_false {t : String} (ht : t ∈ all) {c : Char} (hc : c ∈ t.toList) :
    Word.isPart c = false := by
  have hchar := char_of_symbol t ht c hc
  rw [Bool.or_eq_false_iff] at hchar
  exact hchar.2

theorem exists_cons {t : String} (ht : t ∈ all) :
    ∃ c cs, t.toList = c :: cs ∧ Word.isPart c = false := by
  have hne : ∀ t ∈ all, t.toList ≠ [] := by decide
  obtain ⟨c, cs, hlist⟩ := List.exists_cons_of_ne_nil (hne t ht)
  exact ⟨c, cs, hlist, isPart_eq_false ht (by simp [hlist])⟩

theorem grows_iff {t : String} {c : Char} :
    grows t c = true ↔ ∃ s ∈ all, t.toList ++ [c] <+: s.toList := by
  simp only [grows, List.any_eq_true, List.isPrefixOf_iff_prefix]

theorem grows_eq_false {c : Char} (hc : (Blank.isSpace c || c == '#' || Word.isPart c) = true)
    (t : String) : grows t c = false := by
  rw [← Bool.not_eq_true]
  intro h
  obtain ⟨s, hs, hstart⟩ := grows_iff.1 h
  rw [char_of_symbol s hs c (hstart.subset (by simp))] at hc
  cases hc

theorem grows_eq_false_of_maximal {t : String}
    (h : ∀ s ∈ all, t.toList <+: s.toList → s.toList.length ≤ t.toList.length) (c : Char) :
    grows t c = false := by
  rw [← Bool.not_eq_true]
  intro hgrow
  obtain ⟨s, hs, hstart⟩ := grows_iff.1 hgrow
  have hlen := h s hs ((List.prefix_append _ _).trans hstart)
  have hlen' := hstart.length_le
  simp only [List.length_append, List.length_singleton] at hlen'
  omega

theorem head_not_isPart (t : String) (ht : t ∈ all) :
    t.toList.head?.all (fun c => !Word.isPart c) = true := by
  obtain ⟨c, cs, hlist, hc⟩ := exists_cons ht
  simp [hlist, hc]

theorem atHead?_append {t : String} (ht : t ∈ all) {rest : List Char}
    (hrest : ∀ c ∈ rest.head?, grows t c = false) :
    atHead? (t.toList ++ rest) = some (t, rest) := by
  obtain ⟨earlier, later, hall, hnot⟩ := List.eq_append_cons_of_mem ht
  have htake : all.takeWhile (· != t) = earlier := by
    rw [hall, List.takeWhile_append_of_pos
      (by intro s hs; simpa using ne_of_mem_of_not_mem hs hnot)]
    simp
  -- a symbol that matches either lies within `t` or goes on behind it
  have hnone : earlier.findSome?
      (fun s => (after? s.toList (t.toList ++ rest)).map fun r => (s, r)) = none := by
    rw [List.findSome?_eq_none_iff]
    intro s hs
    rw [Option.map_eq_none_iff, Option.eq_none_iff_forall_not_mem]
    intro r hr
    have hinput := after?_eq_some (Option.mem_def.1 hr)
    rcases List.append_eq_append_iff.1 hinput with ⟨more, hmore, -⟩ | ⟨more, hmore, -⟩
    · cases more with
      | nil =>
        exact absurd (by simp [hmore]) (earlier_not_within t ht s (htake ▸ hs))
      | cons c more =>
        have hc : c ∈ rest.head? := by simp_all
        have hgrow : grows t c = true := by
          refine grows_iff.2 ⟨s, by rw [hall]; simp [hs], more, ?_⟩
          simp [hmore]
        rw [hrest c hc] at hgrow
        cases hgrow
    · exact absurd (by simp [hmore]) (earlier_not_within t ht s (htake ▸ hs))
  unfold atHead?
  rw [hall, List.findSome?_append, hnone, Option.none_or]
  simp [after?_append]

theorem atHead?_eq_none {c : Char} (hc : ∀ t ∈ all, t.toList.head? ≠ some c) (rest : List Char) :
    atHead? (c :: rest) = none := by
  unfold atHead?
  rw [List.findSome?_eq_none_iff]
  intro s hs
  rw [Option.map_eq_none_iff, Option.eq_none_iff_forall_not_mem]
  intro r hr
  have hinput := after?_eq_some (Option.mem_def.1 hr)
  obtain ⟨d, ds, hlist, -⟩ := exists_cons hs
  have : c = d := by simpa [hlist] using congrArg List.head? hinput
  exact hc s hs (by rw [hlist, this]; rfl)

theorem atHead?_eq_none_of_isPart {c : Char} (hc : Word.isPart c = true) (rest : List Char) :
    atHead? (c :: rest) = none := by
  refine atHead?_eq_none (fun t ht h => ?_) rest
  have := head_not_isPart t ht
  simp [h, hc] at this

end Symbol

end ShaderMinifier
