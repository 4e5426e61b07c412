import ShaderMinifier.Proofs.Expr.Transcribed
import ShaderMinifier.Proofs.Grammar.SameLexed
import ShaderMinifier.Proofs.RoundTrip
import ShaderMinifier.Proofs.Text.Snug

/-
  The shortest text of the pieces of an expression is a source of the expression: it has the
  lexemes of the canonical text (`Phrased.sameLexed_snug`).
-/

namespace ShaderMinifier

open Piece

namespace Piece

theorem head_snug {p : Piece} (hp : p.text.toList ≠ []) {k : List Piece} {c : Char}
    (hc : (snug (p :: k)).head? = some c) : p.first? = some c ∨ c.isDigit = true := by
  obtain ⟨d, ds, hlist⟩ := List.exists_cons_of_ne_nil hp
  rw [snug] at hc
  cases p with
  | token t =>
    simp only [text] at hlist
    simp only [snugText, hlist, List.cons_append, List.head?_cons] at hc
    exact .inl (by rwa [first?, text, hlist])
  | number t =>
    simp only [text] at hlist
    simp only [snugText, hlist] at hc
    split at hc
    · split at hc
      · obtain rfl : '0' = c := by simpa [hexText] using hc
        exact .inr rfl
      · exact .inl (by rwa [first?, text, hlist])
    · exact .inl (by rwa [first?, text, hlist])
  | line t =>
    simp only [text] at hlist
    simp only [snugText, hlist, List.cons_append, List.head?_cons] at hc
    exact .inl (by rwa [first?, text, hlist])

theorem after?_snug {p : Piece} (hp : p.isLexeme = true) (hslash : p ≠ .token "/")
    (k : List Piece) : Blank.after? (snug (p :: k)) = none := by
  have htext : ∀ rest, Blank.after? (p.text.toList ++ rest) = none := after?_text hp hslash
  rw [snug]
  cases p with
  | token t =>
    rw [snugText, List.append_assoc]
    exact htext _
  | number t =>
    rw [snugText]
    split
    · dsimp only
      split
      · exact after?_digit (c := '0') rfl _
      · rw [List.append_assoc]
        exact htext _
    · exact htext _
  | line t => exact htext _

/-- The symbol that stands `Behind` a word or a number starts with no character of a word, and with
a point only if it is one. -/
theorem behind_headChar {k : List Piece} (hb : Behind k) {c : Char} (hc : headChar? k = some c) :
    Word.isPart c = false ∧ (c = '.' ↔ k.head? = some (.token ".")) := by
  cases k with
  | nil => cases hc
  | cons p k =>
    obtain ⟨t, ht, rfl⟩ := hb p (by simp)
    have hhead : t.toList.head? = some c := hc
    have hfirst : ∀ t ∈ Symbol.all, (t.toList.head? = some '.' ↔ t = ".") := by decide
    refine ⟨Symbol.isPart_eq_false ht (List.mem_of_mem_head? hhead), ?_⟩
    rw [List.head?_cons, Option.some.injEq, token.injEq, ← hfirst t ht, hhead, Option.some.injEq]

end Piece

/-- The characters that an expression may start with: what `Starts` like one has a character of
words or one of six others at its head. -/
theorem Starts.headChar {k : List Piece} (hs : Starts k) (hk : Clean k) {c : Char}
    (hc : headChar? k = some c) :
    Word.isPart c = true ∨ c ∈ ['.', '(', '+', '-', '!', '~'] := by
  have hword : ∀ {w : String} {rest : List Piece}, Word.isWord w = true →
      headChar? (.token w :: rest) = some c → Word.isPart c = true := by
    intro w rest hw hc
    obtain ⟨d, ds, hlist, hd, -⟩ := Word.isWord_iff.1 hw
    obtain rfl : d = c := by simpa [headChar?, first?, text, hlist] using hc
    exact Word.isPart_of_isStart hd
  cases hs with
  | name hw => exact .inl (hword hw hc)
  | truth hw => exact .inl (hword (by obtain rfl | rfl := hw <;> decide) hc)
  | callee hw => exact .inl (hword hw hc)
  | @number t rest =>
    have hlex := hk.head
    rw [isLexeme, show t.toList.head? = some c from hc, Option.any_some, Bool.or_eq_true,
      beq_iff_eq] at hlex
    rcases hlex with hd | rfl
    · exact .inl (Word.isPart_of_isDigit hd)
    · exact .inr (by simp)
  | bracket =>
    obtain rfl : '(' = c := Option.some.inj hc
    exact .inr (by simp)
  | operator op =>
    have hfirst : op.token.toList.head?.all (['.', '(', '+', '-', '!', '~'].contains ·) = true := by
      cases op <;> decide
    rw [show op.token.toList.head? = some c from hc, Option.all_some,
      List.contains_iff_mem] at hfirst
    exact .inr hfirst

namespace Phrased

variable {k : List Piece}

theorem clean_whole (h : Phrased (· = []) k) : Clean k := h.clean fun _ hk => hk ▸ Clean.nil

theorem head_snug (h : Phrased (· = []) k) {c : Char} (hc : (snug k).head? = some c) :
    headChar? k = some c ∨ c.isDigit = true := by
  cases k with
  | nil => cases hc
  | cons p k =>
    obtain ⟨d, ds, hlist⟩ := text_ne_nil h.clean_whole.head
    exact Piece.head_snug (by simp [hlist]) hc

/-- What stands behind a word or a number in the `snug` text ends the word, if the next piece is a
symbol (`Behind`). -/
theorem endsWord_snug (h : Phrased (· = []) k) (hb : Behind k) : EndsWord (snug k) := by
  intro c hc
  cases k with
  | nil => cases hc
  | cons p k =>
    obtain ⟨t, ht, rfl⟩ := hb p (by simp)
    obtain ⟨d, ds, hlist, hd⟩ := Symbol.exists_cons ht
    simp only [snug, snugText, hlist, List.cons_append, List.head?_cons] at hc
    obtain rfl := Option.some.inj hc
    exact hd

/-- In `Phrased` pieces an operand stands behind a symbol that is not `firm`, that is one that could
grow. -/
theorem starts_of_not_firm {t : String} (h : Phrased (· = []) (.token t :: k))
    (ht : t ∈ Symbol.all) (hfirm : t ∉ Symbol.firm) : Phrased (· = []) k ∧ Starts k := by
  generalize hlist : Piece.token t :: k = ps at h
  cases h with
  | tail hnil => cases hlist.trans hnil
  | word hw =>
    cases hlist
    exact absurd ht (Symbol.not_mem_of_isWord hw)
  | float => cases hlist
  | int => cases hlist
  | firm hfirm' =>
    cases hlist
    exact absurd hfirm' hfirm
  | before _ _ hk hs =>
    cases hlist
    exact ⟨hk, hs⟩
  | point =>
    cases hlist
    exact absurd (by decide) hfirm

theorem after?_snug (h : Phrased (· = []) k) : Blank.after? (snug k) = none := by
  cases k with
  | nil => rfl
  | cons p k =>
    by_cases hslash : p = .token "/"
    · subst hslash
      obtain ⟨hk, hs⟩ := h.starts_of_not_firm (by decide) (by decide)
      have hhead : ∀ c, (snug k).head? = some c → c ≠ '/' ∧ c ≠ '*' := by
        intro c hc
        have hpart : Word.isPart c = true ∨ c ∈ ['.', '(', '+', '-', '!', '~'] := by
          rcases hk.head_snug hc with hc | hd
          · exact hs.headChar hk.clean_whole hc
          · exact .inl (Word.isPart_of_isDigit hd)
        refine ⟨?_, ?_⟩ <;> rintro rfl <;> rcases hpart with h | h <;> revert h <;> decide
      rw [snug, snugText, List.append_assoc]
      refine Blank.after?_slash (fun hc => ?_) fun hc => ?_
      · split at hc
        · cases hc
        · exact (hhead _ hc).1 rfl
      · split at hc
        · cases hc
        · exact (hhead _ hc).2 rfl
    · exact Piece.after?_snug h.clean_whole.head hslash k

theorem skip_snug (h : Phrased (· = []) k) {gap : List Char} (hgap : gap = [] ∨ gap = [' ']) :
    Blank.skip (gap ++ snug k) = snug k := by
  have hskip := Blank.skip_of_after?_eq_none h.after?_snug
  obtain rfl | rfl := hgap
  · exact hskip
  · rw [List.singleton_append, Blank.skip_space rfl, hskip]

/-! ## The same lexemes as in the canonical text -/

theorem wordAtHead_snug {w : String} (hw : Word.isWord w = true) (hk : Phrased (· = []) k)
    (hb : Behind k) : Word.atHead? (snug (.token w :: k)) = some (w, snug k) := by
  have hany : (headChar? k).any (Symbol.grows w) = false := by
    cases headChar? k <;> simp [Symbol.grows_word hw]
  have hsnug : snug (.token w :: k) = w.toList ++ snug k := by simp [snug, snugText, hany]
  rw [hsnug]
  exact Word.atHead?_append hw (hk.endsWord_snug hb)

theorem sameLexed_word {w : String} (hw : Word.isWord w = true) (hk : Phrased (· = []) k)
    (hb : Behind k) (h : SameLexed (spell k) (snug k)) :
    SameLexed (spell (.token w :: k)) (snug (.token w :: k)) := by
  have hclean : Clean (.token w :: k) := (Phrased.word hw hk hb).clean_whole
  have hspell := wordAtHead_spell hw hclean
  have hsnug := wordAtHead_snug hw hk hb
  obtain ⟨c, cs, hlist, -⟩ := Word.isWord_iff.1 hw
  refine .cons (.word hspell) (.word hsnug) ?_ ?_
  · rw [Word.atHead?_eq hspell, Word.atHead?_eq hsnug, hlist]
    exact Iff.rfl
  · rw [skip_writeAll _ hk.clean_whole, Blank.skip_of_after?_eq_none hk.after?_snug]
    exact h

theorem sameLexed_symbol {t : String} (ht : t ∈ Symbol.all) (hclean : Clean (.token t :: k))
    (hk : Phrased (· = []) k) (h : SameLexed (spell k) (snug k))
    (hfloat : ∀ {input rest : List Char}, Symbol.atHead? input = some (t, rest) →
      Blank.skip rest = spell k ∨ Blank.skip rest = snug k →
        ∃ place, FloatLiteral.lexemeAtHead input = .error place) :
    SameLexed (spell (.token t :: k)) (snug (.token t :: k)) := by
  have hspell := symbolAtHead_spell ht hclean
  have hspellSkip := skip_writeAll (Pen.past (.token t)) hk.clean_whole
  obtain ⟨gap, hsnug, hgap, hgrow⟩ : ∃ gap, snug (.token t :: k) = t.toList ++ (gap ++ snug k) ∧
      (gap = [] ∨ gap = [' ']) ∧ ∀ c ∈ (gap ++ snug k).head?, Symbol.grows t c = false := by
    by_cases hany : (headChar? k).any (Symbol.grows t) = true
    · refine ⟨[' '], by simp [snug, snugText, hany], .inr rfl, fun c hc => ?_⟩
      obtain rfl : ' ' = c := by simpa using hc
      exact Symbol.grows_eq_false rfl t
    · refine ⟨[], by simp [snug, snugText, hany], .inl rfl, fun c hc => ?_⟩
      rcases hk.head_snug hc with hc | hd
      · rw [hc, Option.any_some] at hany
        simpa using hany
      · exact Symbol.grows_eq_false (by simp [Word.isPart_of_isDigit hd]) t
  have hsnugRead : Symbol.atHead? (snug (.token t :: k)) = some (t, gap ++ snug k) := by
    rw [hsnug]
    exact Symbol.atHead?_append ht hgrow
  have hsnugSkip := hk.skip_snug hgap
  refine .cons (.symbol hspell (hfloat hspell (.inl hspellSkip)))
    (.symbol hsnugRead (hfloat hsnugRead (.inr hsnugSkip))) ?_ ?_
  · obtain ⟨c, cs, hlist, -⟩ := Symbol.exists_cons ht
    rw [spell_token, hsnug, hlist]
    exact Iff.rfl
  · rw [hspellSkip, hsnugSkip]
    exact h

theorem sameLexed_float {f : FloatLiteral} (hf : f.Proper) (hk : Phrased (· = []) k)
    (hb : Behind k) (h : SameLexed (spell k) (snug k)) :
    SameLexed (spell (.number f.text :: k)) (snug (.number f.text :: k)) := by
  have hclean : Clean (.number f.text :: k) := (Phrased.float hf hk hb).clean_whole
  have htext : ∀ {input rest : List Char},
      FloatLiteral.lexemeAtHead input = .ok (f.text.toList, rest) →
        (Piece.number f.text).AtHead input rest := by
    intro input rest hread
    have hfloat := Piece.AtHead.float hread
    rwa [String.ofList_toList, hf.fixed] at hfloat
  have hsnug : snug (.number f.text :: k) = f.text.toList ++ snug k := by
    rw [snug, snugText_float hf.lexeme.not_allDigits]
  have hspellRead : FloatLiteral.lexemeAtHead (spell (.number f.text :: k)) =
      .ok (f.text.toList, (Pen.past (.number f.text)).writeAll k) := by
    rw [spell_number]
    exact FloatLiteral.lexemeAtHead_append hf.lexeme (Parser.endsNumber_spell hclean).endsWord
  have hsnugRead : FloatLiteral.lexemeAtHead (snug (.number f.text :: k)) =
      .ok (f.text.toList, snug k) := by
    rw [hsnug]
    exact FloatLiteral.lexemeAtHead_append hf.lexeme (hk.endsWord_snug hb)
  refine .cons (htext hspellRead) (htext hsnugRead) ?_ ?_
  · obtain ⟨c, cs, hlist, -⟩ := hf.lexeme.head
    rw [spell_number, hsnug, hlist]
    exact Iff.rfl
  · rw [skip_writeAll _ hk.clean_whole, Blank.skip_of_after?_eq_none hk.after?_snug]
    exact h

/-- Neither a digit nor a point stands behind a decimal integer, thanks to `pointGap`. -/
theorem endsNumber_snug (hk : Phrased (· = []) k) (hb : Behind k) :
    EndsNumber (pointGap k ++ snug k) := by
  intro c hc
  unfold pointGap at hc
  split at hc
  · obtain rfl : ' ' = c := by simpa using hc
    exact ⟨rfl, by decide⟩
  · next hpoint =>
    refine ⟨hk.endsWord_snug hb c hc, ?_⟩
    rintro rfl
    rcases hk.head_snug hc with hc | hd
    · exact hpoint ((behind_headChar hb hc).2.1 rfl)
    · cases hd

theorem sameLexed_int (value : UInt64) (hk : Phrased (· = []) k)
    (hb : Behind k) (h : SameLexed (spell k) (snug k)) :
    SameLexed (spell (.number (String.ofList (Nat.toDigits 10 value.toNat)) :: k))
      (snug (.number (String.ofList (Nat.toDigits 10 value.toNat)) :: k)) := by
  have hclean := (Phrased.int value hk hb).clean_whole
  have htail := Parser.endsNumber_spell hclean
  have hall := Integer.all_isDigit_toDigits value.toNat
  have hspell : (Piece.number (String.ofList (Nat.toDigits 10 value.toNat))).AtHead
      (spell (.number (String.ofList (Nat.toDigits 10 value.toNat)) :: k))
      ((Pen.past (.number (String.ofList (Nat.toDigits 10 value.toNat)))).writeAll k) := by
    rw [spell_number, String.toList_ofList]
    exact .int ⟨_, Integer.lexemeAtHead_toDigits value htail⟩ (Integer.atHead?_toDigits value htail)
      htail.endsWord
  obtain ⟨rest, hsnug, hskip⟩ : ∃ rest,
      (Piece.number (String.ofList (Nat.toDigits 10 value.toNat))).AtHead
        (snug (.number (String.ofList (Nat.toDigits 10 value.toNat)) :: k)) rest ∧
      Blank.skip rest = snug k := by
    rw [snug, snugText, if_pos hall, String.toList_ofList, Integer.ofDigits_toDigits]
    dsimp only
    split
    · exact ⟨snug k, .int ⟨_, rfl⟩ (Integer.atHead?_hex value (hk.endsWord_snug hb))
        (hk.endsWord_snug hb), Blank.skip_of_after?_eq_none hk.after?_snug⟩
    · have hends := hk.endsNumber_snug hb
      rw [List.append_assoc]
      refine ⟨pointGap k ++ snug k, .int ⟨_, Integer.lexemeAtHead_toDigits value hends⟩
        (Integer.atHead?_toDigits value hends) hends.endsWord, hk.skip_snug ?_⟩
      unfold pointGap
      split
      · exact .inr rfl
      · exact .inl rfl
  refine .cons hspell hsnug (iff_of_false (hspell.head_ne_point hall) (hsnug.head_ne_point hall)) ?_
  rw [skip_writeAll _ hk.clean_whole, hskip]
  exact h

/-- The `snug` text of `Phrased` pieces has the lexemes of the canonical one. -/
theorem sameLexed_snug (h : Phrased (· = []) k) : SameLexed (spell k) (snug k) := by
  induction h with
  | tail h =>
    subst h
    exact .nil
  | word hw hk hb ih => exact sameLexed_word hw hk hb ih
  | float hf hk hb ih => exact sameLexed_float hf hk hb ih
  | int value hk hb ih => exact sameLexed_int value hk hb ih
  | firm ht hne hk ih =>
    exact sameLexed_symbol (Symbol.mem_of_firm _ ht) (Phrased.firm ht hne hk).clean_whole hk ih
      fun hread _ => Symbol.lexemeAtHead_error hread hne
  | before ht hne hk hs ih =>
    exact sameLexed_symbol ht (Phrased.before ht hne hk hs).clean_whole hk ih
      fun hread _ => Symbol.lexemeAtHead_error hread hne
  | @point w k hw hk hb ih =>
    have hword := Phrased.word hw hk hb
    refine sameLexed_symbol (by decide) (Phrased.point hw hk hb).clean_whole hword
      (sameLexed_word hw hk hb ih) fun {input rest} hread hrest => ?_
    -- behind the point stands a name
    rcases hrest with hrest | hrest
    · have hname := wordAtHead_spell hw hword.clean_whole
      rw [← hrest] at hname
      exact Symbol.lexemeAtHead_point hread hname
    · have hname := wordAtHead_snug hw hk hb
      rw [← hrest] at hname
      exact Symbol.lexemeAtHead_point hread hname

end Phrased

end ShaderMinifier
