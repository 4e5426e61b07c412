import ShaderMinifier.Proofs.Grammar.Progress

/-
  Gaps between lexemes. A text `Fills` a gap if skipping blanks passes it whatever stands behind it:
  an open comment does not, since what follows might close it or not, nor does a lone slash or
  backslash. Such a text is as good as nothing (`skip_fills`). The proof tries one continuation in
  which no open comment is closed, a carriage return without its line feed, and reads off where the
  first blank ends; it then ends there with every other continuation too.
-/

namespace ShaderMinifier

namespace Blank

theorem skipUpTo_eq {gas gas' input : List Char} (h : input.length ≤ gas.length)
    (h' : input.length ≤ gas'.length) : skipUpTo gas input = skipUpTo gas' input := by
  induction gas generalizing gas' input with
  | nil =>
    obtain rfl : input = [] := List.length_eq_zero_iff.1 (by simpa using h)
    cases gas' <;> rfl
  | cons c gas ih =>
    cases gas' with
    | nil =>
      obtain rfl : input = [] := List.length_eq_zero_iff.1 (by simpa using h')
      rfl
    | cons c' gas' =>
      rw [skipUpTo, skipUpTo]
      split
      · next rest hrest =>
        have hlt := (after?_suffix hrest).2
        rw [List.length_cons] at h h'
        exact ih (by omega) (by omega)
      · rfl

theorem skip_of_after? {input rest : List Char} (h : after? input = some rest) :
    skip input = skip rest := by
  have hlt := (after?_suffix h).2
  cases input with
  | nil => cases h
  | cons c input =>
    rw [List.length_cons] at hlt
    simp only [skip, skipUpTo, h]
    exact skipUpTo_eq (by omega) le_rfl

/-- The text is passed as blanks whatever follows it: `skip` leaves no more than `rest`, and less if
that starts with blanks too. -/
def Fills (text : List Char) : Prop := ∀ rest, skip (text ++ rest) <:+ rest

/-- A continuation that neither ends a comment nor completes a blank, to see where `after?` stops by
itself. -/
def odd : List Char := ['\r', 'z']

theorem afterLineComment?_append {text rest : List Char}
    (h : afterLineComment? (text ++ odd) = some rest) :
    ∃ more, more.length ≤ text.length ∧
      ∀ tail, afterLineComment? (text ++ tail) = some (more ++ tail) := by
  refine ⟨text.dropWhile fun c => !isLineEnd c, (List.dropWhile_suffix _).length_le, fun tail => ?_⟩
  unfold afterLineComment? at h ⊢
  rw [List.dropWhile_append] at h ⊢
  cases hdrop : text.dropWhile fun c => !isLineEnd c with
  | nil =>
    rw [hdrop] at h
    cases h
  | cons c more =>
    rw [hdrop] at h
    simp only [List.isEmpty_cons, Bool.false_eq_true, if_false, List.cons_append] at h ⊢
    have hend : isLineEnd c = true := by
      have := List.head?_dropWhile_not (fun c => !isLineEnd c) text
      simpa [hdrop] using this
    simp only [isLineEnd, Bool.or_eq_true, beq_iff_eq] at hend
    rcases hend with rfl | rfl
    · -- the line feed must stand in the text
      cases more with
      | nil => cases h
      | cons d more =>
        by_cases hd : d = '\n'
        · rw [hd]
          rfl
        · simp [hd] at h
    · rfl

theorem afterClose?_append {text rest : List Char} (h : afterClose? (text ++ odd) = some rest) :
    ∃ more, more.length ≤ text.length ∧
      ∀ tail, afterClose? (text ++ tail) = some (more ++ tail) := by
  induction text with
  | nil => cases h
  | cons c text ih =>
    cases text with
    | nil =>
      rw [List.singleton_append, afterClose?] at h
      · cases h
      · rintro more - hmore
        cases hmore
    | cons d text =>
      by_cases hclose : c = '*' ∧ d = '/'
      · obtain ⟨rfl, rfl⟩ := hclose
        exact ⟨text, by simp only [List.length_cons]; omega, fun tail => rfl⟩
      · have hskip : ∀ tail,
            afterClose? (c :: d :: text ++ tail) = afterClose? (d :: text ++ tail) := by
          intro tail
          rw [List.cons_append, afterClose?]
          rintro more rfl hmore
          exact hclose ⟨rfl, (List.cons.inj hmore).1⟩
        obtain ⟨more, hlen, hmore⟩ := ih (hskip odd ▸ h)
        exact ⟨more, by rw [List.length_cons]; omega, fun tail => (hskip tail).trans (hmore tail)⟩

/-- The first blank of a text ends in the text with every continuation, if it does so before
`odd`. -/
theorem after?_append {text rest : List Char} (hne : text ≠ [])
    (h : after? (text ++ odd) = some rest) :
    ∃ more, more.length < text.length ∧ ∀ tail, after? (text ++ tail) = some (more ++ tail) := by
  obtain ⟨c, text, rfl⟩ := List.exists_cons_of_ne_nil hne
  by_cases hspace : isSpace c = true
  · refine ⟨text, by simp, fun tail => ?_⟩
    simp only [isSpace, Bool.or_eq_true, beq_iff_eq] at hspace
    obtain ((rfl | rfl) | rfl) | rfl := hspace <;> rfl
  · -- the other blanks start with two characters, and these stand in the text
    cases text with
    | nil =>
      have hnone : after? (c :: odd) = none := by
        unfold after?
        split <;> simp_all [odd]
      rw [List.singleton_append, hnone] at h
      cases h
    | cons d text =>
      simp only [List.cons_append] at h
      unfold after? at h
      split at h
      · next heq =>
        obtain ⟨rfl, rfl, rfl⟩ : c = '/' ∧ d = '/' ∧ text ++ odd = _ := by simpa using heq
        obtain ⟨more, hlen, hmore⟩ := afterLineComment?_append h
        exact ⟨more, by simp only [List.length_cons]; omega, hmore⟩
      · next heq =>
        obtain ⟨rfl, rfl, rfl⟩ : c = '/' ∧ d = '*' ∧ text ++ odd = _ := by simpa using heq
        obtain ⟨more, hlen, hmore⟩ := afterClose?_append h
        exact ⟨more, by simp only [List.length_cons]; omega, hmore⟩
      · next heq =>
        obtain ⟨rfl, rfl, -⟩ : c = '\\' ∧ d = '\n' ∧ text ++ odd = _ := by simpa using heq
        exact ⟨text, by simp only [List.length_cons]; omega, fun tail => rfl⟩
      · next heq =>
        obtain ⟨rfl, -⟩ := List.cons.inj heq
        rw [if_neg hspace] at h
        cases h
      · next heq => cases heq

theorem skip_fills {text : List Char} (h : Fills text) (rest : List Char) :
    skip (text ++ rest) = skip rest := by
  induction hn : text.length using Nat.strong_induction_on generalizing text with
  | _ n ih =>
    subst hn
    by_cases hne : text = []
    · rw [hne, List.nil_append]
    · cases hodd : after? (text ++ odd) with
      | none =>
        -- nothing would be skipped before the odd continuation
        have hlen := (h odd).length_le
        rw [skip_of_after?_eq_none hodd, List.length_append] at hlen
        have := List.length_pos_iff.2 hne
        omega
      | some _ =>
        obtain ⟨more, hlt, hmore⟩ := after?_append hne hodd
        have hfills : Fills more := by
          intro tail
          rw [← skip_of_after? (hmore tail)]
          exact h tail
        rw [skip_of_after? (hmore rest), ih _ hlt hfills rfl]

theorem Fills.cons {text : List Char} (more : List Char)
    (hmore : ∀ tail, after? (text ++ tail) = some (more ++ tail)) (h : Fills more) :
    Fills text := by
  intro tail
  rw [skip_of_after? (hmore tail)]
  exact h tail

theorem Fills.nil : Fills [] := skip_suffix

/-- A gap between lexemes: a character with `isSpace`, and a text that `Fills` the rest. It cannot
join what stands on its two sides. -/
inductive Gap : List Char → Prop
  | mk {c : Char} {text : List Char} (hc : isSpace c = true) (h : Fills text) : Gap (c :: text)

theorem skip_gap {gap : List Char} (h : Gap gap) (rest : List Char) :
    skip (gap ++ rest) = skip rest := by
  cases h with
  | mk hc h => rw [List.cons_append, skip_space hc, skip_fills h]

end Blank

end ShaderMinifier
