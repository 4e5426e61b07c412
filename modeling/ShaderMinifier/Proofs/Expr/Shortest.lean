import ShaderMinifier.Proofs.Expr.Snug
import ShaderMinifier.Proofs.Text.Location

/-
  How long the canonical text of an expression is. The pieces of the expression stand in every
  source of it, so no source is shorter than their shortest text; and that text is a source too.
  The canonical text is longer by the characters that `Piece.spare` counts: none, unless a step
  stands before its own sign, a field is taken of a number, or an integer is shorter in hexadecimal.
-/

namespace ShaderMinifier

open Piece

/-! ## Bytes and characters -/

theorem length_le_byteLength (text : List Char) : text.length ≤ byteLength text := by
  induction text with
  | nil => rfl
  | cons c text ih =>
    have hc : 0 < c.utf8Size := c.utf8Size_pos
    rw [byteLength_cons, List.length_cons]
    omega

theorem byteLength_eq_length {text : List Char} (h : ∀ c ∈ text, c.utf8Size = 1) :
    byteLength text = text.length := by
  induction text with
  | nil => rfl
  | cons c text ih =>
    have hc : c.utf8Size = 1 := h c (by simp)
    have htext := ih fun d hd => h d (by simp [hd])
    rw [byteLength_cons, List.length_cons]
    omega

theorem Word.utf8Size_of_isPart {c : Char} (h : isPart c = true) : c.utf8Size = 1 := by
  have hval : ∀ d : Char, c ≤ d → d.val ≤ 127 → c.utf8Size = 1 :=
    fun d hd hbound => Char.utf8Size_eq_one_iff.2 (UInt32.le_trans hd hbound)
  simp only [isPart, Char.isAlphanum, Char.isAlpha, Char.isUpper, Char.isLower, Char.isDigit,
    Bool.or_eq_true, Bool.and_eq_true, decide_eq_true_eq, beq_iff_eq] at h
  rcases h with ((⟨-, h⟩ | ⟨-, h⟩) | ⟨-, h⟩) | rfl
  · exact hval 'Z' h (by decide)
  · exact hval 'z' h (by decide)
  · exact hval '9' h (by decide)
  · rfl

theorem Blank.utf8Size_of_isSpace {c : Char} (h : isSpace c = true) : c.utf8Size = 1 := by
  simp only [isSpace, Bool.or_eq_true, beq_iff_eq] at h
  obtain ((rfl | rfl) | rfl) | rfl := h <;> rfl

namespace FloatLiteral

theorem Lexeme.utf8Size {lexeme : List Char} (h : Lexeme lexeme) :
    ∀ c ∈ lexeme, c.utf8Size = 1 := by
  intro c hc
  rcases h.mem hc with hpart | hmark
  · exact Word.utf8Size_of_isPart hpart
  · simp only [List.mem_cons, List.not_mem_nil, or_false] at hmark
    obtain rfl | rfl | rfl := hmark <;> rfl

/-- A `Lexeme` ends in a digit or in its point, so a word behind it needs a gap and a symbol does
not. -/
theorem Lexeme.last {lexeme : List Char} (h : Lexeme lexeme) {c : Char}
    (hc : lexeme.getLast? = some c) : c.isDigit = true ∨ c = '.' := by
  have hexp : ∀ {front exponent : List Char}, Exponent exponent → exponent ≠ [] →
      (front ++ exponent).getLast? = some c → c.isDigit = true := by
    intro front exponent hexp hne hc
    cases hexp with
    | absent => exact absurd rfl hne
    | @present mark sign digits _ _ hdigits hdigit =>
      refine hdigits c (List.mem_of_mem_getLast? ?_)
      rwa [← List.cons_append, ← List.append_assoc, List.getLast?_append_of_ne_nil _ hdigit] at hc
  cases h with
  | @pointed whole fraction exponent _ hfraction _ hexponent =>
    by_cases hnone : exponent = []
    · subst hnone
      rw [List.append_nil, List.getLast?_append_of_ne_nil _ (by simp)] at hc
      rcases List.mem_cons.1 (List.mem_of_mem_getLast? hc) with rfl | hc
      · exact .inr rfl
      · exact .inl (hfraction c hc)
    · rw [← List.cons_append, ← List.append_assoc] at hc
      exact .inl (hexp hexponent hnone hc)
  | plain _ _ hexponent hpresent => exact .inl (hexp hexponent hpresent hc)

end FloatLiteral

theorem Pen.mem_writeAll {pen : Pen} {k : List Piece} {c : Char} (h : c ∈ pen.writeAll k) :
    Blank.isSpace c = true ∨ ∃ p ∈ k, c ∈ p.text.toList := by
  induction k generalizing pen with
  | nil => cases h
  | cons p k ih =>
    rw [writeAll, write_eq_lead, start_write, List.mem_append, List.mem_append,
      List.mem_append] at h
    rcases h with (hlead | htext | hending) | hrest
    · exact .inl (isSpace_of_mem_lead hlead)
    · exact .inr ⟨p, by simp, htext⟩
    · cases p with
      | line =>
        rw [List.mem_singleton.1 hending]
        exact .inl rfl
      | token => cases hending
      | number => cases hending
    · rcases ih hrest with hspace | ⟨q, hq, hc⟩
      · exact .inl hspace
      · exact .inr ⟨q, by simp [hq], hc⟩

theorem Piece.mem_snug {k : List Piece} {c : Char} (h : c ∈ snug k) :
    c = ' ' ∨ Word.isPart c = true ∨ ∃ p ∈ k, c ∈ p.text.toList := by
  have hgap : ∀ (b : Prop) [Decidable b], c ∈ (if b then [' '] else []) → c = ' ' := by
    intro b _ hc
    split at hc
    · exact List.mem_singleton.1 hc
    · cases hc
  induction k with
  | nil => cases h
  | cons p k ih =>
    have hp : c ∈ p.snugText k → c = ' ' ∨ Word.isPart c = true ∨ c ∈ p.text.toList := by
      intro hc
      cases p with
      | token t =>
        rcases List.mem_append.1 hc with hc | hc
        · exact .inr (.inr hc)
        · exact .inl (hgap _ hc)
      | number t =>
        rw [snugText] at hc
        split at hc
        · dsimp only at hc
          split at hc
          · simp only [hexText, List.mem_cons] at hc
            rcases hc with rfl | rfl | hc
            · exact .inr (.inl rfl)
            · exact .inr (.inl rfl)
            · exact .inr (.inl (Integer.isPart_of_isHex (Integer.isHex_toDigits _ c hc)))
          · rcases List.mem_append.1 hc with hc | hc
            · exact .inr (.inr hc)
            · exact .inl (hgap _ hc)
        · exact .inr (.inr hc)
      | line t => exact .inr (.inr hc)
    rcases List.mem_append.1 h with hc | hc
    · rcases hp hc with hc | hc | hc
      · exact .inl hc
      · exact .inr (.inl hc)
      · exact .inr (.inr ⟨p, by simp, hc⟩)
    · rcases ih hc with hc | hc | ⟨q, hq, hc⟩
      · exact .inl hc
      · exact .inr (.inl hc)
      · exact .inr (.inr ⟨q, by simp [hq], hc⟩)

/-- Of the characters that an expression may start with, only a sign makes a symbol longer
(`grows`), and that symbol is a sign. -/
theorem Symbol.grows_eq_false_of_start {t : String} (ht : t ∈ all) (hsign : ¬(t = "+" ∨ t = "-"))
    {c : Char} (hc : c ∈ ['.', '(', '+', '-', '!', '~']) : grows t c = false := by
  have htails : ∀ s ∈ all, s = "++" ∨ s = "--" ∨
      s.toList.tail.all (fun c => !List.contains ['.', '(', '+', '-', '!', '~'] c) = true := by
    decide
  rw [← Bool.not_eq_true]
  intro hgrow
  obtain ⟨s, hs, more, hmore⟩ := grows_iff.1 hgrow
  obtain ⟨d, ds, hlist, -⟩ := exists_cons ht
  rw [hlist] at hmore
  -- one character stands before this one in the longer symbol
  have hone : ∀ sign : Char, s.toList = [sign, sign] → t = String.ofList [sign] := by
    intro sign hs
    rw [hs] at hmore
    have hlength := congrArg List.length hmore
    obtain rfl : ds = [] := List.length_eq_zero_iff.1 (by simp at hlength; omega)
    obtain rfl : d = sign := by simpa using congrArg List.head? hmore
    rw [← hlist, String.ofList_toList]
  rcases htails s hs with rfl | rfl | htail
  · exact hsign (.inl (hone '+' rfl))
  · exact hsign (.inr (hone '-' rfl))
  · have hmem : c ∈ s.toList.tail := by
      rw [← hmore]
      simp
    have hnot := List.all_eq_true.1 htail c hmem
    rw [Bool.not_eq_true', ← Bool.not_eq_true, List.contains_iff_mem] at hnot
    exact hnot hc

namespace Phrased

variable {k : List Piece}

/-- The pieces of expressions, being `Phrased`, are spelled with characters of one byte, so lengths
and byte lengths agree. -/
theorem utf8Size (h : Phrased (· = []) k) : ∀ p ∈ k, ∀ c ∈ p.text.toList, c.utf8Size = 1 := by
  have hsymbol : ∀ t ∈ Symbol.all, ∀ c ∈ t.toList, c.utf8Size = 1 := by
    have hval : ∀ t ∈ Symbol.all, t.toList.all (fun c => c.val ≤ 127) = true := by decide
    intro t ht c hc
    exact Char.utf8Size_eq_one_iff.2 (by simpa using List.all_eq_true.1 (hval t ht) c hc)
  have hword : ∀ {w : String}, Word.isWord w = true → ∀ c ∈ w.toList, c.utf8Size = 1 :=
    fun hw c hc => Word.utf8Size_of_isPart (Word.isPart_of_mem hw c hc)
  induction h with
  | tail h =>
    subst h
    simp
  | word hw _ _ ih => exact List.forall_mem_cons.2 ⟨hword hw, ih⟩
  | float hf _ _ ih => exact List.forall_mem_cons.2 ⟨hf.lexeme.utf8Size, ih⟩
  | int value _ _ ih =>
    refine List.forall_mem_cons.2 ⟨fun c hc => ?_, ih⟩
    rw [text, String.toList_ofList] at hc
    exact Word.utf8Size_of_isPart (Word.isPart_of_isDigit (Integer.allDigits_toDigits _ c hc))
  | firm ht _ _ ih => exact List.forall_mem_cons.2 ⟨hsymbol _ (Symbol.mem_of_firm _ ht), ih⟩
  | before ht _ _ _ ih => exact List.forall_mem_cons.2 ⟨hsymbol _ ht, ih⟩
  | point hw _ _ ih =>
    exact List.forall_mem_cons.2
      ⟨hsymbol "." (by decide), List.forall_mem_cons.2 ⟨hword hw, ih⟩⟩

theorem byteLength_spell (h : Phrased (· = []) k) : byteLength (spell k) = (spell k).length := by
  refine byteLength_eq_length fun c hc => ?_
  rcases Pen.mem_writeAll hc with hspace | ⟨p, hp, hc⟩
  · exact Blank.utf8Size_of_isSpace hspace
  · exact h.utf8Size p hp c hc

theorem byteLength_snug (h : Phrased (· = []) k) : byteLength (snug k) = (snug k).length := by
  refine byteLength_eq_length fun c hc => ?_
  rcases mem_snug hc with rfl | hpart | ⟨p, hp, hc⟩
  · rfl
  · exact Word.utf8Size_of_isPart hpart
  · exact h.utf8Size p hp c hc

/-! ## The length of the canonical text -/

theorem writeAll_eq (h : Phrased (· = []) k) (pen : Pen) :
    pen.writeAll k = ((headChar? k).map pen.gap).getD [] ++ spell k := by
  have hclean := h.clean_whole
  cases h with
  | tail h =>
    subst h
    rfl
  | word => exact Pen.writeAll_cons pen hclean.head _
  | float => exact Pen.writeAll_cons pen hclean.head _
  | int => exact Pen.writeAll_cons pen hclean.head _
  | firm => exact Pen.writeAll_cons pen hclean.head _
  | before => exact Pen.writeAll_cons pen hclean.head _
  | point => exact Pen.writeAll_cons pen hclean.head _

/-- A token takes its characters and perhaps a gap: the layout leaves one where the token `grows`
and where a step stands before its own sign, which `spareAt` counts. -/
theorem length_spell_token {t : String} (ht : (Piece.token t).isLexeme = true)
    (hk : Phrased (· = []) k)
    (hgap : ∀ c, headChar? k = some c → ∀ last, t.toList.getLast? = some last →
      (Pen.joins last c = true ↔
        Symbol.grows t c = true ∨ (t = "++" ∨ t = "--") ∧ some c = t.toList.head?)) :
    (spell (.token t :: k)).length =
      ((Piece.token t).snugText k).length + (Piece.token t).spareAt k + (spell k).length := by
  obtain ⟨first, rest, hlist⟩ := text_ne_nil ht
  simp only [text] at hlist
  obtain ⟨last, hlast⟩ : ∃ last, t.toList.getLast? = some last :=
    ⟨_, List.getLast?_eq_some_getLast (by simp [hlist])⟩
  rw [spell_token, hk.writeAll_eq, snugText, spareAt]
  cases hc : headChar? k with
  | none =>
    simp only [hlist, Option.map_none, Option.getD_none, Option.any_none, List.head?_cons,
      reduceCtorEq, and_false, Bool.false_eq_true, if_false, List.append_nil, List.nil_append,
      List.length_append]
    omega
  | some c =>
    have hpen : (Pen.past (.token t)).gap c = if Pen.joins last c = true then [' '] else [] := by
      rw [Pen.gap, Pen.last_of_token ht, hlast]
      simp [Pen.past, Pen.after]
    have hone : (t = "++" ∨ t = "--") → Symbol.grows t c = false := by
      rintro (rfl | rfl) <;> exact Symbol.grows_of_firm (by decide) c
    have hjoins := hgap c hc last hlast
    simp only [Option.map_some, Option.getD_some, Option.any_some, List.length_append, hpen]
    by_cases hstep : (t = "++" ∨ t = "--") ∧ some c = t.toList.head?
    · rw [if_pos (hjoins.2 (.inr hstep)), if_pos hstep, if_neg (by simp [hone hstep.1])]
      simp only [List.length_singleton, List.length_nil]
      omega
    · simp only [hstep, or_false] at hjoins
      simp only [hjoins, if_neg hstep]
      omega

theorem length_spell_word {w : String} (hw : Word.isWord w = true) (hk : Phrased (· = []) k)
    (hb : Behind k) : (spell (.token w :: k)).length =
      ((Piece.token w).snugText k).length + (Piece.token w).spareAt k + (spell k).length := by
  refine length_spell_token (Phrased.word hw hk hb).clean_whole.head hk fun c hc last hlast => ?_
  have hc := (behind_headChar hb hc).1
  have hlast := Word.isPart_of_mem hw last (List.mem_of_mem_getLast? hlast)
  have hstep : ¬(w = "++" ∨ w = "--") := by
    rintro (rfl | rfl) <;> cases hw
  have hjoins : Pen.joins last c = false := Pen.joins_eq_false (by rw [hc, hlast]; decide)
  simp [hjoins, Symbol.grows_word hw, hstep]

theorem length_spell_firm {t : String} (ht : t ∈ Symbol.firm) (hk : Phrased (· = []) k) :
    (spell (.token t :: k)).length =
      ((Piece.token t).snugText k).length + (Piece.token t).spareAt k + (spell k).length := by
  have hlasts : ∀ t ∈ Symbol.firm, t.toList.getLast?.all (fun last => !Word.isPart last &&
      last != '/' && (last == '+' || last == '-') == (t == "++" || t == "--") &&
        t.toList.head? == some last) = true := by decide
  refine length_spell_token (by simp [isLexeme, Symbol.mem_of_firm t ht]) hk
    fun c _ last hlast => ?_
  have hends := hlasts t ht
  simp only [hlast, Option.all_some, Bool.and_eq_true, Bool.not_eq_true', bne_iff_ne, beq_iff_eq]
    at hends
  obtain ⟨⟨⟨hpart, hslash⟩, hstep⟩, hhead⟩ := hends
  have hslash : (last == '/') = false := by simpa using hslash
  rw [Pen.joins, hpart, hslash, hstep, Symbol.grows_of_firm ht, hhead]
  simp only [Bool.false_and, Bool.false_or, Bool.or_false, Bool.and_eq_true, Bool.or_eq_true,
    beq_iff_eq, Bool.false_eq_true, false_or, Option.some.injEq]
  exact ⟨fun h => ⟨h.2, h.1.symm⟩, fun h => ⟨h.2.symm, h.1⟩⟩

theorem length_spell_before {t : String} (ht : t ∈ Symbol.all) (hk : Phrased (· = []) k)
    (hs : Starts k) : (spell (.token t :: k)).length =
      ((Piece.token t).snugText k).length + (Piece.token t).spareAt k + (spell k).length := by
  by_cases hstep : t = "++" ∨ t = "--"
  · refine length_spell_firm ?_ hk
    obtain rfl | rfl := hstep <;> decide
  refine length_spell_token (by simp [isLexeme, ht]) hk fun c hc last hlast => ?_
  have hlastPart := Symbol.isPart_eq_false ht (List.mem_of_mem_getLast? hlast)
  simp only [hstep, false_and, or_false]
  rcases hs.headChar hk.clean_whole hc with hpart | hmem
  · have hgrow : Symbol.grows t c = false := Symbol.grows_eq_false (by simp [hpart]) t
    rw [Pen.joins_eq_false (by rw [hpart, hlastPart]; decide), hgrow]
  by_cases hsign : t = "+" ∨ t = "-"
  · have hsigns : ∀ t ∈ ["+", "-"], (['.', '(', '+', '-', '!', '~'].all fun c =>
        t.toList.getLast?.all fun last => Pen.joins last c == Symbol.grows t c) = true := by
      decide +kernel
    have hboth := List.all_eq_true.1 (hsigns t (by simpa using hsign)) c hmem
    rw [hlast, Option.all_some, beq_iff_eq] at hboth
    rw [hboth]
  · have hlasts : ∀ t ∈ Symbol.all, ¬(t = "++" ∨ t = "--") → ¬(t = "+" ∨ t = "-") →
        t.toList.getLast?.all (fun last => !(last == '+' || last == '-')) = true := by decide
    have hends := hlasts t ht hstep hsign
    rw [hlast, Option.all_some, Bool.not_eq_true'] at hends
    have hslashes : ['.', '(', '+', '-', '!', '~'].all (fun c => !(c == '/' || c == '*')) =
        true := by
      decide
    have hslash := List.all_eq_true.1 hslashes c hmem
    rw [Bool.not_eq_true'] at hslash
    have hjoins : Pen.joins last c = false := by
      rw [Pen.joins, hlastPart, hends, hslash]
      simp
    rw [hjoins, Symbol.grows_eq_false_of_start ht hsign hmem]

theorem length_spell_number {t : String} (ht : (Piece.number t).isLexeme = true)
    (hlast : ∀ last, t.toList.getLast? = some last → Word.isPart last = true ∨ last = '.')
    (hk : Phrased (· = []) k) (hb : Behind k) :
    (spell (.number t :: k)).length = t.toList.length + (pointGap k).length + (spell k).length := by
  obtain ⟨first, rest, hlist⟩ := text_ne_nil ht
  simp only [text] at hlist
  obtain ⟨last, hl⟩ : ∃ last, t.toList.getLast? = some last :=
    ⟨_, List.getLast?_eq_some_getLast (by simp [hlist])⟩
  rw [spell_number, hk.writeAll_eq]
  cases hc : headChar? k with
  | none =>
    have hgap : pointGap k = [] := by
      rw [pointGap, if_neg]
      intro hhead
      rw [headChar?, hhead] at hc
      cases hc
    simp [hgap]
  | some c =>
    obtain ⟨hpart, hpoint⟩ := behind_headChar hb hc
    have hjoins : Pen.joins last c = false := by
      rcases hlast last hl with hlast | rfl
      · exact Pen.joins_eq_false (by rw [hlast, hpart]; decide)
      · rw [Pen.joins, hpart, Bool.and_false]
        simp
    have hgap : (Pen.past (.number t)).gap c = pointGap k := by
      have hpen : (Pen.past (.number t)).last = some last := by
        rw [Pen.past_last ht, Pen.start_write]
        simpa [text, ending] using hl
      rw [Pen.gap, hpen, pointGap]
      simp [hjoins, Pen.past, Pen.after, hpoint]
    rw [Option.map_some, Option.getD_some, hgap, List.length_append, List.length_append]
    omega

theorem length_spell (h : Phrased (· = []) k) :
    (spell k).length = (snug k).length + spare k := by
  induction h with
  | tail h =>
    subst h
    rfl
  | word hw hk hb ih =>
    rw [length_spell_word hw hk hb, ih, snug, spare, List.length_append]
    omega
  | @float f k hf hk hb ih =>
    have hall := hf.lexeme.not_allDigits
    have hlength := length_spell_number hf.isLexeme (fun last hlast =>
      (hf.lexeme.last hlast).imp_left Word.isPart_of_isDigit) hk hb
    rw [hlength, ih, snug, spare, List.length_append, snugText_float hall, spareAt,
      if_neg (by simp [hall])]
    omega
  | @int value k hk hb ih =>
    have hall := Integer.all_isDigit_toDigits value.toNat
    have hlength := length_spell_number (Integer.isLexeme_toDigits value.toNat) (fun last hlast =>
      .inl (Word.isPart_of_isDigit (List.all_eq_true.1 hall _ (List.mem_of_mem_getLast? hlast))))
      hk hb
    rw [hlength, ih, snug, spare, List.length_append, length_snugText_int hall, spareAt,
      if_pos hall, List.length_append]
    omega
  | firm ht _ hk ih =>
    rw [length_spell_firm ht hk, ih, snug, spare, List.length_append]
    omega
  | before ht _ hk hs ih =>
    rw [length_spell_before ht hk hs, ih, snug, spare, List.length_append]
    omega
  | point hw hk hb ih =>
    have hword := Phrased.word hw hk hb
    rw [length_spell_firm (by decide) hword, length_spell_word hw hk hb, ih, snug, spare, snug,
      spare, List.length_append, List.length_append]
    omega

end Phrased

/-! ## Expressions -/

theorem Lexed.text_ne_nil {input rest : List Char} {ls : List Piece} (h : Lexed input ls rest) :
    ∀ p ∈ ls, p.text.toList ≠ [] := by
  induction h with
  | nil => simp
  | cons hp _ ih => exact List.forall_mem_cons.2 ⟨hp.text_ne_nil, ih⟩

namespace Expr

theorem phrased_of_wellFormed {e : Expr} (he : e.WellFormed) : Phrased (· = []) e.pieces := by
  have h : Phrased (· = []) (e.pieces ++ []) := phrased_pieces he [] (.tail rfl) behind_nil
  rwa [List.append_nil] at h

theorem length_snug_le_of_parse {source : String} {e : Expr} (h : Expr.parse source = .ok e) :
    (snug e.pieces).length ≤ byteLength source.toList := by
  obtain ⟨ls, hls, hsub⟩ := lexed_of_parse h
  have hle := hls.length_snug_le
  have hpieces := length_snug_of_sublist hsub hls.text_ne_nil
  have hskip := (Blank.skip_suffix source.toList).length_le
  have hbytes := length_le_byteLength source.toList
  rw [List.length_nil] at hle
  omega

theorem parse_snug {e : Expr} (he : e.FitsEnclosed Parser.maxNesting) :
    Expr.parse (String.ofList (snug e.pieces)) = .ok e := by
  have hphrased := phrased_of_wellFormed he.1
  refine parse_of_sameLexed ?_ (parse_layout he)
  rw [layout_toList, skip_spell hphrased.clean_whole, String.toList_ofList,
    Blank.skip_of_after?_eq_none hphrased.after?_snug]
  exact hphrased.sameLexed_snug

theorem byteLength_emit {e : Expr} (he : e.WellFormed) :
    byteLength e.emit.toList = (snug e.pieces).length + spare e.pieces := by
  have hphrased := phrased_of_wellFormed he
  rw [emit, layout_toList, hphrased.byteLength_spell, hphrased.length_spell]

theorem fits_of_parse {source : String} {e : Expr} (h : Expr.parse source = .ok e) :
    e.FitsEnclosed Parser.maxNesting := by
  have htree : Tree.parse source .condition = .ok (.expression e) :=
    Tree.map_eq_ok.2 ⟨e, h, rfl⟩
  exact Tree.fits_of_parse htree

/-- The canonical text of an expression is longer than any source by no more than its `spare`
characters, and by exactly these longer than the shortest source. -/
theorem byteLength_emit_le {source : String} {e : Expr} (h : Expr.parse source = .ok e) :
    byteLength e.emit.toList ≤ byteLength source.toList + spare e.pieces ∧
      ∃ shortest, Expr.parse shortest = .ok e ∧
        (∀ other, Expr.parse other = .ok e →
          byteLength shortest.toList ≤ byteLength other.toList) ∧
        byteLength e.emit.toList = byteLength shortest.toList + spare e.pieces := by
  have he := fits_of_parse h
  have hsnug := (phrased_of_wellFormed he.1).byteLength_snug
  have hemit := byteLength_emit he.1
  refine ⟨?_, String.ofList (snug e.pieces), parse_snug he, fun other hother => ?_, ?_⟩
  · have hle := length_snug_le_of_parse h
    omega
  · rw [String.toList_ofList, hsnug]
    exact length_snug_le_of_parse hother
  · rw [String.toList_ofList, hsnug]
    exact hemit

/-- Two characters are `spare`: the gaps behind the step and behind the number. -/
theorem byteLength_emit_le_step :
    ∃ e, Expr.parse "a+++1..x" = .ok e ∧ spare e.pieces = 2 ∧
      byteLength e.emit.toList ≤ byteLength "a+++1..x".toList + spare e.pieces ∧
      ∃ shortest, Expr.parse shortest = .ok e ∧
        (∀ other, Expr.parse other = .ok e →
          byteLength shortest.toList ≤ byteLength other.toList) ∧
        byteLength e.emit.toList = byteLength shortest.toList + spare e.pieces := by
  have h : Expr.parse "a+++1..x" = .ok (.binary .add (.step .increment (.identifier "a"))
      (.field (.float (.ofText "1.")) "x")) := by decide +kernel
  exact ⟨_, h, by decide +kernel, byteLength_emit_le h⟩

/-- The canonical text of `1..x` is longer than its source by a gap that the lexer does not need: a
number that has its point takes in no other one. -/
theorem byteLength_emit_gap :
    ∃ e, Expr.parse "1..x" = .ok e ∧ e.emit = "1. .x" ∧
      byteLength "1..x".toList < byteLength e.emit.toList := by
  have h : Expr.parse "1..x" = .ok (.field (.float (.ofText "1.")) "x") := by decide +kernel
  exact ⟨_, h, by decide +kernel, by decide +kernel⟩

end Expr

end ShaderMinifier
