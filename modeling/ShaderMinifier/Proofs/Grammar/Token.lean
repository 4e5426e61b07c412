import ShaderMinifier.Proofs.Grammar.Reply
import ShaderMinifier.Proofs.Text.Spelling

/-
  The parsers of words and symbols on spelled pieces: they take the first piece, or see from it
  that they do not match. And back: what a word parser gives is a word.
-/

namespace ShaderMinifier

open Piece

/-! ## The head of pieces -/

section Head

variable {k : List Piece} {t : String}

theorem headSymbol?_symbol (ht : t ∈ Symbol.all) : headSymbol? (.token t :: k) = some t := by
  simp [headSymbol?, ht]

theorem headSymbol?_ne (ht : t ∈ Symbol.all) {s : String} (h : t ≠ s) :
    headSymbol? (.token t :: k) ≠ some s := by
  rw [headSymbol?_symbol ht]
  exact fun heq => h (Option.some.inj heq)

theorem headWord?_symbol (ht : t ∈ Symbol.all) : headWord? (.token t :: k) = none := by
  simp [headWord?, Symbol.isWordLike_eq_false t ht]

theorem Symbol.not_mem_of_isWord (ht : Word.isWord t = true) : t ∉ Symbol.all := by
  intro hmem
  have := Symbol.isWordLike_eq_false t hmem
  rw [Word.isWordLike_of_isWord ht] at this
  cases this

theorem headSymbol?_word (ht : Word.isWord t = true) : headSymbol? (.token t :: k) = none := by
  simp [headSymbol?, Symbol.not_mem_of_isWord ht]

theorem headWord?_word (ht : Word.isWord t = true) : headWord? (.token t :: k) = some t := by
  simp [headWord?, Word.isWordLike_of_isWord ht, Word.firstOf_of_isWord ht]

theorem headWord?_eq_none_of_headSymbol? (h : headSymbol? k = some t) : headWord? k = none := by
  cases k with
  | nil => rfl
  | cons p k =>
    cases p with
    | token s =>
      simp only [headSymbol?] at h
      split at h
      · next hs => exact headWord?_symbol hs
      · cases h
    | number s => rfl
    | line s => rfl

theorem eq_token_of_headSymbol? (h : headSymbol? k = some t) (ht : t ≠ ".") :
    ∃ l, k = .token t :: l := by
  cases k with
  | nil => cases h
  | cons p l =>
    cases p with
    | token s =>
      simp only [headSymbol?] at h
      split at h
      · exact ⟨l, by rw [Option.some.inj h]⟩
      · cases h
    | number s =>
      simp only [headSymbol?] at h
      split at h
      · exact absurd (Option.some.inj h).symm ht
      · cases h
    | line s => cases h

end Head

theorem Word.isWord_of_atHead? {input rest : List Char} {w : String}
    (h : Word.atHead? input = some (w, rest)) : Word.isWord w = true := by
  cases input with
  | nil => cases h
  | cons c input =>
    simp only [Word.atHead?] at h
    split at h
    · next hc =>
      obtain ⟨rfl, -⟩ := Prod.mk.inj (Option.some.inj h)
      refine Word.isWord_iff.2 ⟨c, _, String.toList_ofList, hc, fun d hd => ?_⟩
      exact List.mem_takeWhile_imp hd
    · cases h

theorem isWord_of_headWord? {k : List Piece} (hk : Clean k) {w : String}
    (h : headWord? k = some w) : Word.isWord w = true := by
  rw [← wordAtHead_fst hk, Option.map_eq_some_iff] at h
  obtain ⟨⟨found, tail⟩, hhead, rfl⟩ := h
  exact Word.isWord_of_atHead? hhead

/-- The word may be declared: `declaredName` takes it, since it is neither reserved nor built-in. -/
structure Word.Declarable (w : String) : Prop where
  isWord : Word.isWord w = true
  notReserved : Word.isReserved w = false
  notBuiltin : Word.isBuiltinVariable w = false

/-- The word can name a type: `typeName` takes it, built-in or not. -/
structure Word.NamesType (w : String) : Prop where
  isWord : Word.isWord w = true
  isTypeName : Word.isTypeName w = true

theorem Word.Declarable.isWordLike {w : String} (h : Word.Declarable w) :
    Word.isWordLike w = true := Word.isWordLike_of_isWord h.isWord

theorem Word.NamesType.isWordLike {w : String} (h : Word.NamesType w) :
    Word.isWordLike w = true := Word.isWordLike_of_isWord h.isWord

namespace Parser

variable {α : Type} {k : List Piece} {t : String}

/-! ## Symbols -/

theorem symbol_spell (ht : t ∈ Symbol.all) (hk : Clean (.token t :: k)) :
    symbol t (spell (.token t :: k)) = .matched () (spell k) := by
  simp only [symbol, symbolAtHead_spell ht hk, if_true, skip_writeAll _ hk.tail]

theorem symbol_mismatch (hk : Clean k) (h : headSymbol? k ≠ some t) :
    symbol t (spell k) = .mismatch ⟨spell k, .expected (.token t)⟩ := by
  rw [← symbolAtHead_fst hk] at h
  unfold symbol
  cases hhead : Symbol.atHead? (spell k) with
  | none => rfl
  | some found =>
    have hne : found.1 ≠ t := fun heq => h (by rw [hhead, Option.map_some, heq])
    simp only [hne, if_false]

theorem lookingAt_symbol (ht : t ∈ Symbol.all) (hk : Clean (.token t :: k)) :
    lookingAt (symbol t) (spell (.token t :: k)) = .matched true (spell (.token t :: k)) :=
  lookingAt_of_matched (symbol_spell ht hk)

theorem not_lookingAt_symbol (hk : Clean k) (h : headSymbol? k ≠ some t) :
    lookingAt (symbol t) (spell k) = .matched false (spell k) :=
  lookingAt_of_mismatch (symbol_mismatch hk h)

theorem symbolWhere_spell {choose : String → Option α} {v : α} (ht : t ∈ Symbol.all)
    (hk : Clean (.token t :: k)) (hv : choose t = some v) :
    symbolWhere choose (spell (.token t :: k)) = .matched v (spell k) := by
  simp only [symbolWhere, symbolAtHead_spell ht hk, hv, skip_writeAll _ hk.tail]

theorem symbolWhere_mismatch {choose : String → Option α} (hk : Clean k)
    (h : (headSymbol? k).bind choose = none) :
    symbolWhere choose (spell k) = .mismatch ⟨spell k, .unexpected⟩ := by
  rw [← symbolAtHead_fst hk] at h
  unfold symbolWhere
  cases hhead : Symbol.atHead? (spell k) with
  | none => rfl
  | some found =>
    simp only [hhead, Option.map_some, Option.bind_some] at h
    simp only [h]

/-! ## Words -/

theorem keyword_spell (ht : Word.isWord t = true) (hk : Clean (.token t :: k)) :
    keyword t (spell (.token t :: k)) = .matched () (spell k) := by
  simp only [keyword, wordAtHead_spell ht hk, if_true, skip_writeAll _ hk.tail]

theorem keyword_mismatch (hk : Clean k) (h : headWord? k ≠ some t) :
    keyword t (spell k) = .mismatch ⟨spell k, .expected (.token t)⟩ := by
  rw [← wordAtHead_fst hk] at h
  unfold keyword
  cases hhead : Word.atHead? (spell k) with
  | none => rfl
  | some found =>
    have hne : found.1 ≠ t := fun heq => h (by rw [hhead, Option.map_some, heq])
    simp only [hne, if_false]

theorem not_lookingAt_keyword (hk : Clean k) (h : headWord? k ≠ some t) :
    lookingAt (keyword t) (spell k) = .matched false (spell k) :=
  lookingAt_of_mismatch (keyword_mismatch hk h)

theorem nextWord_spell (hk : Clean k) : nextWord (spell k) = .matched (headWord? k) (spell k) := by
  rw [nextWord, wordAtHead_fst hk]

theorem wordWhere_spell {choose : String → Option α} {v : α} (ht : Word.isWord t = true)
    (hk : Clean (.token t :: k)) (hv : choose t = some v) :
    wordWhere choose (spell (.token t :: k)) = .matched v (spell k) := by
  simp only [wordWhere, wordAtHead_spell ht hk, hv, skip_writeAll _ hk.tail]

theorem wordWhere_mismatch {choose : String → Option α} (hk : Clean k)
    (h : (headWord? k).bind choose = none) :
    wordWhere choose (spell k) = .mismatch ⟨spell k, .unexpected⟩ := by
  rw [← wordAtHead_fst hk] at h
  unfold wordWhere
  cases hhead : Word.atHead? (spell k) with
  | none => rfl
  | some found =>
    simp only [hhead, Option.map_some, Option.bind_some] at h
    simp only [h]

theorem anyWord_spell (ht : Word.isWord t = true) (hk : Clean (.token t :: k)) :
    anyWord (spell (.token t :: k)) = .matched t (spell k) :=
  wordWhere_spell ht hk rfl

theorem identifier_spell (ht : Word.isWord t = true) (hr : Word.isReserved t = false)
    (hk : Clean (.token t :: k)) : identifier (spell (.token t :: k)) = .matched t (spell k) :=
  wordWhere_spell ht hk (by simp [hr])

theorem typeName_spell (ht : Word.NamesType t) (hk : Clean (.token t :: k)) :
    typeName (spell (.token t :: k)) = .matched t (spell k) :=
  wordWhere_spell ht.isWord hk (by simp [ht.isTypeName])

theorem declaredName_spell (ht : Word.Declarable t) (hk : Clean (.token t :: k)) :
    declaredName (spell (.token t :: k)) = .matched t (spell k) := by
  simp only [declaredName, bind_of_matched (nextWord_spell hk), headWord?_word ht.isWord,
    ht.notReserved, ht.notBuiltin, Bool.false_eq_true, if_false, anyWord_spell ht.isWord hk]

theorem declaredName_mismatch (hk : Clean k) (h : headWord? k = none) :
    declaredName (spell k) = .mismatch ⟨spell k, .unexpected⟩ := by
  simp only [declaredName, bind_of_matched (nextWord_spell hk), h, mismatch]

theorem yields_wordWhere (choose : String → Option α) :
    Yields (wordWhere choose) fun v => ∃ w, Word.isWord w = true ∧ choose w = some v := by
  intro input v rest h
  unfold wordWhere at h
  split at h
  · next found tail hhead =>
    split at h
    · next value hv =>
      obtain ⟨rfl, -⟩ := Reply.matched.inj h
      exact ⟨found, Word.isWord_of_atHead? hhead, hv⟩
    · cases h
  · cases h

theorem yields_nextWord : Yields nextWord fun o => ∀ w ∈ o, Word.isWord w = true := by
  intro input o rest h w hw
  obtain ⟨rfl, -⟩ := Reply.matched.inj h
  obtain ⟨⟨found, tail⟩, hhead, rfl⟩ := Option.map_eq_some_iff.1 hw
  exact Word.isWord_of_atHead? hhead

theorem yields_anyWord : Yields anyWord fun w => Word.isWord w = true :=
  (yields_wordWhere some).mono fun w ⟨v, hv, hw⟩ => by rwa [← Option.some.inj hw]

theorem yields_identifier :
    Yields identifier fun w => Word.isWord w = true ∧ Word.isReserved w = false := by
  refine (yields_wordWhere _).mono fun w ⟨v, hv, hw⟩ => ?_
  split at hw
  · cases hw
  · next hr =>
    obtain rfl := Option.some.inj hw
    exact ⟨hv, by simpa using hr⟩

theorem yields_typeName : Yields typeName Word.NamesType := by
  refine (yields_wordWhere _).mono fun w ⟨v, hv, hw⟩ => ?_
  split at hw
  · next hn =>
    obtain rfl := Option.some.inj hw
    exact ⟨hv, hn⟩
  · cases hw

theorem yields_declaredName : Yields declaredName Word.Declarable := by
  intro input w rest h
  obtain ⟨found, mid, hfound, h⟩ := matched_bind.1 h
  obtain ⟨hhead, rfl⟩ := Reply.matched.inj hfound
  cases found with
  | none => cases h
  | some v =>
    simp only at h
    split at h
    · cases h
    · next hr =>
      split at h
      · cases h
      · next hb =>
        -- the word that is looked at is the word that is taken
        have hw : some v = some w := by
          rw [← hhead]
          simp only [anyWord, wordWhere] at h
          split at h
          · next u tail hu =>
            obtain ⟨rfl, -⟩ := Reply.matched.inj h
            rw [hu, Option.map_some]
          · cases h
        obtain rfl := Option.some.inj hw
        exact ⟨yields_nextWord _ _ _ hfound v rfl, by simpa using hr, by simpa using hb⟩

end Parser

end ShaderMinifier
