import ShaderMinifier.Proofs.Lists
import ShaderMinifier.Proofs.Text.Lexeme

/-
  The text of pieces, as the lexer sees it. `spell` is the text of pieces with nothing written
  before them. Pieces are `Clean` when each is a lexeme and no two neighbours would be read as
  something else, given the gap that the layout leaves between them. On clean pieces the lexer
  finds exactly the first piece (`wordAtHead_spell`, `symbolAtHead_spell`), and skipping blanks
  behind it leads to the spelling of the other pieces (`skip_writeAll`).
-/

namespace ShaderMinifier

namespace Piece

/-- The characters of a piece, without the gap or the line feeds that `Pen.write` adds. -/
def text : Piece → String
  | token text | number text | line text => text

/-- What the layout puts behind the `text` of a piece, the line feed of a directive's line. -/
def ending : Piece → List Char
  | line _ => ['\n']
  | token _ | number _ => []

/-- The first character of a piece, on which the gap before it depends (`Pen.gap`). -/
def first? (p : Piece) : Option Char := p.text.toList.head?

/-- The piece is read as one lexeme, or it is a directive's line. A `token` may also be two
keywords, hence `isWordLike`. -/
def isLexeme : Piece → Bool
  | token text => Word.isWordLike text || Symbol.all.contains text
  | number text => text.toList.head?.any fun c => c.isDigit || c == '.'
  | line text => text.toList.head? == some '#'

/-- The second piece, behind the gap that the layout leaves, does not change how the first one is
read. A symbol that it `grows` must be one that `Pen.joins` keeps away. -/
def isApart : Piece → Piece → Bool
  | token text, next =>
    Word.isWordLike text || next.first?.all fun c =>
      !Symbol.grows text c || text.toList.getLast?.any fun last => Pen.joins last c
  | number _, next => next.first?.all fun c => !Word.isPart c
  | line _, _ => true

/-- Lexemes that are read one by one: each piece `isLexeme`, and neighbours are `isApart`. -/
structure Clean (pieces : List Piece) : Prop where
  lexemes : ∀ p ∈ pieces, p.isLexeme = true
  apart : pieces.IsChain fun p q => p.isApart q = true

namespace Clean

theorem nil : Clean [] := ⟨by simp, .nil⟩

theorem head {p : Piece} {k : List Piece} (h : Clean (p :: k)) : p.isLexeme = true :=
  h.lexemes p (by simp)

theorem tail {p : Piece} {k : List Piece} (h : Clean (p :: k)) : Clean k :=
  ⟨fun q hq => h.lexemes q (by simp [hq]), h.apart.tail⟩

theorem right {ps k : List Piece} (h : Clean (ps ++ k)) : Clean k :=
  ⟨fun q hq => h.lexemes q (by simp [hq]), (List.isChain_append.1 h.apart).2.1⟩

theorem apart_head {p q : Piece} {k : List Piece} (h : Clean (p :: k)) (hq : k.head? = some q) :
    p.isApart q = true := by
  cases k with
  | nil => simp at hq
  | cons r k =>
    obtain rfl : r = q := by simpa using hq
    exact (List.isChain_cons_cons.1 h.apart).1

end Clean

theorem text_ne_nil {p : Piece} (h : p.isLexeme = true) : ∃ c cs, p.text.toList = c :: cs := by
  cases hp : p.text.toList with
  | cons c cs => exact ⟨c, cs, rfl⟩
  | nil =>
    cases p with
    | token t =>
      simp only [text] at hp
      simp only [isLexeme, Word.isWordLike, hp, Bool.or_eq_true, List.contains_iff_mem] at h
      rcases h with h | h
      · simp at h
      · obtain ⟨c, cs, hlist, -⟩ := Symbol.exists_cons h
        cases hlist.symm.trans hp
    | number t =>
      simp only [text] at hp
      simp [isLexeme, hp] at h
    | line t =>
      simp only [text] at hp
      simp [isLexeme, hp] at h

end Piece

/-- The text of pieces with nothing before them, the list form of `layout`. -/
def spell (pieces : List Piece) : List Char := Pen.start.writeAll pieces

theorem layout_toList (pieces : List Piece) : (layout pieces).toList = spell pieces := by
  simp [layout, spell]

namespace Pen

open Piece

/-- The pen after a piece, whatever was written before, since `Pen.after` of a lexeme forgets it. -/
def past (p : Piece) : Pen := start.after p

/-- What the layout puts before a piece: the `gap` of a lexeme or the `lineStart` of a line. -/
def lead (pen : Pen) : Piece → List Char
  | .token text | .number text => (text.toList.head?.map pen.gap).getD []
  | .line _ => pen.lineStart

theorem write_eq_lead (pen : Pen) (p : Piece) : pen.write p = pen.lead p ++ start.write p := by
  cases p with
  | token t => cases h : t.toList <;> simp [write, lead, lexeme, h, gap, start]
  | number t => cases h : t.toList <;> simp [write, lead, lexeme, h, gap, start]
  | line t => simp [write, lead, lineStart, start]

theorem start_write (p : Piece) :
    start.write p = p.text.toList ++ p.ending := by
  cases p with
  | token t => cases h : t.toList <;> simp [write, lexeme, h, gap, start, text, ending]
  | number t => cases h : t.toList <;> simp [write, lexeme, h, gap, start, text, ending]
  | line t => simp [write, lineStart, start, text, ending]

theorem isSpace_of_mem_lead {pen : Pen} {p : Piece} {c : Char} (h : c ∈ pen.lead p) :
    Blank.isSpace c = true := by
  have hgap : ∀ d, c ∈ pen.gap d → c = ' ' := by
    intro d hd
    unfold gap at hd
    split at hd
    · simp at hd
    · split at hd
      · simpa using hd
      · simp at hd
  have hlexeme : ∀ t : String, c ∈ (t.toList.head?.map pen.gap).getD [] → c = ' ' := by
    intro t ht
    cases hd : t.toList.head? with
    | none => simp [hd] at ht
    | some d => exact hgap d (by simpa [hd] using ht)
  cases p with
  | token t => rw [hlexeme t h]; rfl
  | number t => rw [hlexeme t h]; rfl
  | line t =>
    simp only [lead, lineStart] at h
    split at h
    · simp at h
    · simp at h
    · obtain rfl : c = '\n' := by simpa using h
      rfl

theorem start_write_ne_nil {p : Piece} (hp : p.isLexeme = true) : start.write p ≠ [] := by
  obtain ⟨c, cs, h⟩ := text_ne_nil hp
  simp [start_write, h]

theorem after_eq_past (pen : Pen) {p : Piece} (hp : p.isLexeme = true) : pen.after p = past p := by
  have hne := start_write_ne_nil hp
  have hlast : (start.write p).getLast? = some ((start.write p).getLast hne) :=
    List.getLast?_eq_some_getLast hne
  simp only [past, after, write_eq_lead pen p, List.getLast?_append, hlast, Option.some_or]

theorem past_last {p : Piece} (hp : p.isLexeme = true) :
    (past p).last = (start.write p).getLast? := by
  have hne := start_write_ne_nil hp
  have hlast : (start.write p).getLast? = some ((start.write p).getLast hne) :=
    List.getLast?_eq_some_getLast hne
  simp only [past, after, hlast, Option.some_or]

theorem spell_cons {p : Piece} (k : List Piece) :
    spell (p :: k) = start.write p ++ (past p).writeAll k := rfl

theorem writeAll_cons (pen : Pen) {p : Piece} (hp : p.isLexeme = true) (k : List Piece) :
    pen.writeAll (p :: k) = pen.lead p ++ spell (p :: k) := by
  rw [writeAll, after_eq_past pen hp, write_eq_lead, spell_cons, List.append_assoc]

theorem head_spell_cons {p : Piece} (hp : p.isLexeme = true) (k : List Piece) :
    (spell (p :: k)).head? = p.first? := by
  obtain ⟨c, cs, h⟩ := text_ne_nil hp
  simp [spell_cons, start_write, first?, h]

theorem head_writeAll {pen : Pen} {k : List Piece} (hk : Clean k) {c : Char}
    (h : (pen.writeAll k).head? = some c) :
    Blank.isSpace c = true ∨ ∃ q, k.head? = some q ∧ q.first? = some c ∧ pen.lead q = [] := by
  cases k with
  | nil => simp [writeAll] at h
  | cons q k =>
    rw [writeAll_cons pen hk.head] at h
    cases hlead : pen.lead q with
    | nil =>
      rw [hlead, List.nil_append, head_spell_cons hk.head] at h
      exact .inr ⟨q, rfl, h, hlead⟩
    | cons d ds =>
      obtain rfl : d = c := by simpa [hlead] using h
      exact .inl (isSpace_of_mem_lead (by rw [hlead]; simp))

theorem last_of_token {t : String} (ht : (Piece.token t).isLexeme = true) :
    (past (.token t)).last = t.toList.getLast? := by
  rw [past_last ht, start_write]
  simp [text, ending]

/-- A character of a word and one that is none may stand next to each other without a gap: `joins`
is false. -/
theorem joins_eq_false {last first : Char} (h : Word.isPart last ≠ Word.isPart first) :
    joins last first = false := by
  have hslash : Word.isPart '/' = false ∧ Word.isPart '*' = false := by decide
  rw [← Bool.not_eq_true]
  intro hj
  simp only [joins, Bool.or_eq_true, Bool.and_eq_true, beq_iff_eq] at hj
  rcases hj with (⟨hl, hf⟩ | ⟨rfl, -⟩) | ⟨rfl, rfl | rfl⟩
  · exact h (hl.trans hf.symm)
  · exact h rfl
  · exact h rfl
  · exact h (hslash.1.trans hslash.2.symm)

theorem gap_eq_nil {pen : Pen} {l c : Char} (hlast : pen.last = some l) (h : pen.gap c = []) :
    joins l c = false ∧ (pen.afterNumber && c == '.') = false := by
  simp only [gap, hlast] at h
  split at h
  · cases h
  · next hj => simpa using hj

theorem lead_eq_nil {pen : Pen} {q : Piece} {c : Char} (hq : q.isLexeme = true)
    (hc : q.first? = some c) (h : pen.lead q = []) : pen.gap c = [] ∨ c = '#' := by
  cases q with
  | token t =>
    have hc' : t.toList.head? = some c := hc
    exact .inl (by simpa [lead, hc'] using h)
  | number t =>
    have hc' : t.toList.head? = some c := hc
    exact .inl (by simpa [lead, hc'] using h)
  | line t =>
    have hc' : t.toList.head? = some c := hc
    have ht : t.toList.head? = some '#' := by simpa [isLexeme] using hq
    exact .inr (by simpa [hc'] using ht)

end Pen

open Piece

/-! ## What stands behind a piece -/

theorem tail_of_word {t : String} {k : List Piece} (hk : Clean (.token t :: k))
    (ht : Word.isWordLike t = true) {c : Char}
    (hc : ((Pen.past (.token t)).writeAll k).head? = some c) : Word.isPart c = false := by
  rcases Pen.head_writeAll hk.tail hc with hs | ⟨q, hq, hqc, hlead⟩
  · exact Word.isPart_eq_false_of_isSpace hs
  · have hqlex := hk.tail.lexemes q (List.mem_of_mem_head? hq)
    rcases Pen.lead_eq_nil hqlex hqc hlead with hgap | rfl
    · simp only [Word.isWordLike, Bool.and_eq_true] at ht
      obtain ⟨l, hl, hlpart⟩ := (Option.any_eq_true _ _).1 ht.2
      have hlast : (Pen.past (.token t)).last = some l := by rw [Pen.last_of_token hk.head, hl]
      have hj := (Pen.gap_eq_nil hlast hgap).1
      simp only [Pen.joins, hlpart, Bool.true_and, Bool.or_eq_false_iff] at hj
      exact hj.1.1
    · rfl

theorem tail_of_symbol {t : String} {k : List Piece} (hk : Clean (.token t :: k))
    (ht : t ∈ Symbol.all) {c : Char}
    (hc : ((Pen.past (.token t)).writeAll k).head? = some c) : Symbol.grows t c = false := by
  rcases Pen.head_writeAll hk.tail hc with hs | ⟨q, hq, hqc, hlead⟩
  · exact Symbol.grows_eq_false (by simp [hs]) t
  · have hqlex := hk.tail.lexemes q (List.mem_of_mem_head? hq)
    rcases Pen.lead_eq_nil hqlex hqc hlead with hgap | rfl
    · have hapart := hk.apart_head hq
      simp only [isApart, Symbol.isWordLike_eq_false t ht, Bool.false_or, hqc, Option.all_some,
        Bool.or_eq_true, Bool.not_eq_true'] at hapart
      rcases hapart with hgrow | hjoin
      · exact hgrow
      · obtain ⟨l, hl, hj⟩ := (Option.any_eq_true _ _).1 hjoin
        have hlast : (Pen.past (.token t)).last = some l := by rw [Pen.last_of_token hk.head, hl]
        rw [(Pen.gap_eq_nil hlast hgap).1] at hj
        cases hj
    · exact Symbol.grows_eq_false rfl t

theorem tail_of_number {t : String} {k : List Piece} (hk : Clean (.number t :: k)) {c : Char}
    (hc : ((Pen.past (.number t)).writeAll k).head? = some c) :
    Word.isPart c = false ∧ c ≠ '.' := by
  rcases Pen.head_writeAll hk.tail hc with hs | ⟨q, hq, hqc, hlead⟩
  · simp only [Blank.isSpace, Bool.or_eq_true, beq_iff_eq] at hs
    obtain ((rfl | rfl) | rfl) | rfl := hs <;> decide
  · have hqlex := hk.tail.lexemes q (List.mem_of_mem_head? hq)
    have hapart := hk.apart_head hq
    simp only [isApart, hqc, Option.all_some, Bool.not_eq_true'] at hapart
    refine ⟨hapart, ?_⟩
    rcases Pen.lead_eq_nil hqlex hqc hlead with hgap | rfl
    · obtain ⟨d, ds, hd⟩ := text_ne_nil hk.head
      obtain ⟨l, hl⟩ : ∃ l, (Pen.past (.number t)).last = some l := by
        rw [Pen.past_last hk.head, Pen.start_write, hd]
        exact ⟨_, List.getLast?_eq_some_getLast (by simp)⟩
      have hnum := (Pen.gap_eq_nil hl hgap).2
      simp only [Pen.past, Pen.after, Bool.true_and, beq_eq_false_iff_ne] at hnum
      exact hnum
    · decide

/-! ## Skipping the gap -/

theorem after?_spell_slash {k : List Piece} (hk : Clean (.token "/" :: k)) :
    Blank.after? (spell (.token "/" :: k)) = none := by
  have hlast : (Pen.past (.token "/")).last = some '/' := by
    rw [Pen.last_of_token hk.head]
    rfl
  have htail : ∀ d ∈ ['/', '*'], ((Pen.past (.token "/")).writeAll k).head? ≠ some d := by
    intro d hd hdc
    simp only [List.mem_cons, List.not_mem_nil, or_false] at hd
    rcases Pen.head_writeAll hk.tail hdc with hs | ⟨q, hq, hqc, hlead⟩
    · obtain rfl | rfl := hd <;> cases hs
    · have hqlex := hk.tail.lexemes q (List.mem_of_mem_head? hq)
      rcases Pen.lead_eq_nil hqlex hqc hlead with hgap | rfl
      · have hj := (Pen.gap_eq_nil hlast hgap).1
        obtain rfl | rfl := hd <;> cases hj
      · obtain h | h := hd <;> cases h
  have hspell : spell (.token "/" :: k) = '/' :: (Pen.past (.token "/")).writeAll k := by
    rw [Pen.spell_cons, Pen.start_write]
    rfl
  rw [hspell]
  exact Blank.after?_slash (htail '/' (by simp)) (htail '*' (by simp))

/-- Only the slash can be the start of a blank and of a lexeme: `Blank.after?` finds no blank at any
other piece. -/
theorem after?_text {p : Piece} (hp : p.isLexeme = true) (hslash : p ≠ .token "/")
    (rest : List Char) : Blank.after? (p.text.toList ++ rest) = none := by
  have hpart : ∀ {c : Char}, Word.isPart c = true → ∀ s, Blank.after? (c :: s) = none := by
    intro c hc s
    refine Blank.after?_eq_none_of_ne ?_ ?_ ?_ s
    · rintro rfl; cases hc
    · rintro rfl; cases hc
    · rw [← Bool.not_eq_true]
      intro hs
      rw [Word.isPart_eq_false_of_isSpace hs] at hc
      cases hc
  obtain ⟨c, cs, htext⟩ := text_ne_nil hp
  cases p with
  | token t =>
    simp only [text] at htext ⊢
    rw [isLexeme, Bool.or_eq_true, List.contains_iff_mem] at hp
    rcases hp with hw | ht
    · simp only [Word.isWordLike, htext, List.head?_cons, Option.any_some, Bool.and_eq_true] at hw
      rw [htext]
      exact hpart (Word.isPart_of_isStart hw.1) _
    · have hfirst : ∀ s ∈ Symbol.all, s ≠ "/" → s ≠ "/=" → s.toList.head?.all
          (fun d => d != '/' && d != '\\' && !Blank.isSpace d) = true := by decide
      by_cases heq : t = "/="
      · subst heq
        rfl
      · have hc := hfirst t ht (fun h => hslash (by rw [h])) heq
        simp only [htext, List.head?_cons, Option.all_some, Bool.and_eq_true, bne_iff_ne,
          Bool.not_eq_true'] at hc
        rw [htext]
        exact Blank.after?_eq_none_of_ne hc.1.1 hc.1.2 hc.2 _
  | number t =>
    simp only [text] at htext ⊢
    simp only [isLexeme, htext, List.head?_cons, Option.any_some, Bool.or_eq_true,
      beq_iff_eq] at hp
    rw [htext]
    rcases hp with hd | rfl
    · exact hpart (Word.isPart_of_isDigit hd) _
    · exact Blank.after?_eq_none_of_ne (by decide) (by decide) (by decide) _
  | line t =>
    simp only [text] at htext ⊢
    simp only [isLexeme, htext, List.head?_cons, beq_iff_eq, Option.some.injEq] at hp
    rw [htext, hp]
    exact Blank.after?_eq_none_of_ne (by decide) (by decide) (by decide) _

theorem after?_digit {c : Char} (hc : c.isDigit = true) (rest : List Char) :
    Blank.after? (c :: rest) = none := by
  have h := after?_text (p := .number (String.ofList [c])) (by simp [isLexeme, hc]) (by simp) rest
  simpa [text] using h

theorem after?_spell {k : List Piece} (hk : Clean k) : Blank.after? (spell k) = none := by
  cases k with
  | nil => rfl
  | cons p k =>
    by_cases hslash : p = .token "/"
    · subst hslash
      exact after?_spell_slash hk
    · rw [Pen.spell_cons, Pen.start_write, List.append_assoc]
      exact after?_text hk.head hslash _

theorem skip_spell {k : List Piece} (hk : Clean k) : Blank.skip (spell k) = spell k :=
  Blank.skip_of_after?_eq_none (after?_spell hk)

theorem skip_append_spaces {spaces : List Char} (h : ∀ c ∈ spaces, Blank.isSpace c = true)
    (s : List Char) : Blank.skip (spaces ++ s) = Blank.skip s := by
  induction spaces with
  | nil => rfl
  | cons c spaces ih =>
    rw [List.cons_append, Blank.skip_space (h c (by simp)),
      ih (fun d hd => h d (by simp [hd]))]

/-- Behind a lexeme, `Blank.skip` leads to the next one: what is left is the text of the pieces from
the start. -/
theorem skip_writeAll (pen : Pen) {k : List Piece} (hk : Clean k) :
    Blank.skip (pen.writeAll k) = spell k := by
  cases k with
  | nil => rfl
  | cons p k =>
    rw [Pen.writeAll_cons pen hk.head, skip_append_spaces (fun c => Pen.isSpace_of_mem_lead),
      skip_spell hk]

/-! ## The first piece -/

theorem Word.atHead?_append {w : String} (hw : Word.isWord w = true) {rest : List Char}
    (hrest : ∀ c, rest.head? = some c → Word.isPart c = false) :
    Word.atHead? (w.toList ++ rest) = some (w, rest) := by
  obtain ⟨c, cs, hlist, hc, hcs⟩ := Word.isWord_iff.1 hw
  have hstop := takeWhile_append_stop hcs hrest
  rw [hlist, List.cons_append, Word.atHead?, if_pos hc, hstop.1, hstop.2, ← hlist,
    String.ofList_toList]

/-- The symbol that `Symbol.atHead?` finds at the head of pieces. A number that starts with its
point shows the symbol `.` there. -/
def headSymbol? : List Piece → Option String
  | .token t :: _ => if t ∈ Symbol.all then some t else none
  | .number t :: _ => if t.toList.head? = some '.' then some "." else none
  | _ => none

/-- The word that `Word.atHead?` finds at the head of pieces, the first one of a token that is
several. -/
def headWord? : List Piece → Option String
  | .token t :: _ => if Word.isWordLike t then some (Word.firstOf t) else none
  | _ => none

theorem spell_token (t : String) (k : List Piece) :
    spell (.token t :: k) = t.toList ++ (Pen.past (.token t)).writeAll k := by
  rw [Pen.spell_cons, Pen.start_write]
  simp [text, ending]

theorem spell_number (t : String) (k : List Piece) :
    spell (.number t :: k) = t.toList ++ (Pen.past (.number t)).writeAll k := by
  rw [Pen.spell_cons, Pen.start_write]
  simp [text, ending]

theorem spell_line (t : String) (k : List Piece) :
    spell (.line t :: k) = t.toList ++ '\n' :: (Pen.past (.line t)).writeAll k := by
  rw [Pen.spell_cons, Pen.start_write]
  simp [text, ending]

theorem symbolAtHead_spell {t : String} (ht : t ∈ Symbol.all) {k : List Piece}
    (hk : Clean (.token t :: k)) :
    Symbol.atHead? (spell (.token t :: k)) = some (t, (Pen.past (.token t)).writeAll k) := by
  rw [spell_token]
  exact Symbol.atHead?_append ht fun c hc => tail_of_symbol hk ht hc

theorem wordAtHead_spell {w : String} (hw : Word.isWord w = true) {k : List Piece}
    (hk : Clean (.token w :: k)) :
    Word.atHead? (spell (.token w :: k)) = some (w, (Pen.past (.token w)).writeAll k) := by
  rw [spell_token]
  exact Word.atHead?_append hw fun c hc => tail_of_word hk (Word.isWordLike_of_isWord hw) hc

theorem symbolAtHead_fst {k : List Piece} (hk : Clean k) :
    (Symbol.atHead? (spell k)).map Prod.fst = headSymbol? k := by
  cases k with
  | nil => rfl
  | cons p k =>
    obtain ⟨c, cs, hp⟩ := text_ne_nil hk.head
    cases p with
    | token t =>
      by_cases ht : t ∈ Symbol.all
      · simp [symbolAtHead_spell ht hk, headSymbol?, ht]
      · have hw : Word.isWordLike t = true := by simpa [isLexeme, ht] using hk.head
        simp only [text] at hp
        simp only [Word.isWordLike, hp, List.head?_cons, Option.any_some, Bool.and_eq_true] at hw
        rw [spell_token, hp, List.cons_append,
          Symbol.atHead?_eq_none_of_isPart (Word.isPart_of_isStart hw.1)]
        simp [headSymbol?, ht]
    | number t =>
      simp only [text] at hp
      have hlex := hk.head
      simp only [isLexeme, hp, List.head?_cons, Option.any_some, Bool.or_eq_true,
        beq_iff_eq] at hlex
      rw [spell_number, hp, List.cons_append]
      rcases hlex with hd | rfl
      · have hdot : c ≠ '.' := by rintro rfl; cases hd
        rw [Symbol.atHead?_eq_none_of_isPart (Word.isPart_of_isDigit hd)]
        simp [headSymbol?, hp, hdot]
      · have h : Symbol.atHead? ('.' :: (cs ++ (Pen.past (.number t)).writeAll k)) =
            some (".", cs ++ (Pen.past (.number t)).writeAll k) :=
          Symbol.atHead?_append (t := ".") (by decide)
            (fun d _ => Symbol.grows_eq_false_of_maximal (by decide) d)
        simp [h, headSymbol?, hp]
    | line t =>
      simp only [text] at hp
      have hlex := hk.head
      simp only [isLexeme, hp, List.head?_cons, beq_iff_eq, Option.some.injEq] at hlex
      subst hlex
      have hnone : ∀ t ∈ Symbol.all, t.toList.head? ≠ some '#' := by decide
      rw [spell_line, hp, List.cons_append, Symbol.atHead?_eq_none hnone]
      rfl

theorem wordAtHead_eq_none {c : Char} (hc : Word.isStart c = false) (rest : List Char) :
    Word.atHead? (c :: rest) = none := by
  simp [Word.atHead?, hc]

theorem wordAtHead_fst {k : List Piece} (hk : Clean k) :
    (Word.atHead? (spell k)).map Prod.fst = headWord? k := by
  cases k with
  | nil => rfl
  | cons p k =>
    obtain ⟨c, cs, hp⟩ := text_ne_nil hk.head
    cases p with
    | token t =>
      simp only [text] at hp
      by_cases hw : Word.isWordLike t = true
      · have hstart : Word.isStart c = true := by
          simp only [Word.isWordLike, hp, List.head?_cons, Option.any_some,
            Bool.and_eq_true] at hw
          exact hw.1
        have htake : (t.toList ++ (Pen.past (.token t)).writeAll k).takeWhile Word.isPart =
            t.toList.takeWhile Word.isPart := by
          rw [List.takeWhile_append]
          split
          · next hall =>
            rw [List.IsPrefix.eq_of_length (List.takeWhile_prefix _) hall]
            cases htail : (Pen.past (.token t)).writeAll k with
            | nil => simp
            | cons d ds =>
              have := tail_of_word hk hw (c := d) (by rw [htail]; rfl)
              simp [this]
          · rfl
        rw [hp, List.cons_append, List.takeWhile_cons_of_pos (Word.isPart_of_isStart hstart),
          ← hp] at htake
        rw [spell_token, hp, List.cons_append, Word.atHead?, if_pos hstart, Option.map_some, htake]
        simp [headWord?, hw, Word.firstOf]
      · have ht : t ∈ Symbol.all := by simpa [isLexeme, hw] using hk.head
        have hpart := Symbol.head_not_isPart t ht
        simp only [hp, List.head?_cons, Option.all_some, Bool.not_eq_true'] at hpart
        rw [spell_token, hp, List.cons_append,
          wordAtHead_eq_none (Word.isStart_eq_false_of_isPart hpart)]
        simp [headWord?, hw]
    | number t =>
      simp only [text] at hp
      have hlex := hk.head
      simp only [isLexeme, hp, List.head?_cons, Option.any_some, Bool.or_eq_true,
        beq_iff_eq] at hlex
      have hstart : Word.isStart c = false := by
        rcases hlex with hd | rfl
        · exact Word.isStart_eq_false_of_isDigit hd
        · rfl
      rw [spell_number, hp, List.cons_append, wordAtHead_eq_none hstart]
      rfl
    | line t =>
      simp only [text] at hp
      have hlex := hk.head
      simp only [isLexeme, hp, List.head?_cons, beq_iff_eq, Option.some.injEq] at hlex
      subst hlex
      rw [spell_line, hp, List.cons_append, wordAtHead_eq_none rfl]
      rfl

end ShaderMinifier
