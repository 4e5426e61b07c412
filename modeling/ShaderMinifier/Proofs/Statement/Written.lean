import ShaderMinifier.Proofs.Grammar.Value
import ShaderMinifier.Proofs.Statement.Compare
import ShaderMinifier.Proofs.Text.Gap
import ShaderMinifier.Tree

/-
  Layout does not matter. A text writes lexemes if it is these lexemes with a gap between
  neighbours. The parsers of lexemes see of such a text only the lexeme at its head, and what they
  leave, once blanks are skipped, writes the others. So two texts that write the same lexemes are
  alike in the sense of `Comparison`, and the two runs of any rule on them give the same tree or
  both reject.
-/

namespace ShaderMinifier

open ShaderMinifier.Parser

/-! ## Texts that write lexemes -/

/-- A lexeme as a text: a word (`Word.isWord`), one of `Symbol.all`, or the lexeme of a float or of
an integer. -/
inductive Lexeme : String → Prop
  | word {text : String} (h : Word.isWord text = true) : Lexeme text
  | symbol {text : String} (h : text ∈ Symbol.all) : Lexeme text
  | float {text : String} (h : FloatLiteral.Lexeme text.toList) : Lexeme text
  | int {text : String} (h : Integer.Lexeme text.toList) : Lexeme text

/-- Lexemes in order with a `Gap` between neighbours, and maybe one behind the last. -/
inductive Written : List String → List Char → Prop
  | nil : Written [] []
  | last {lexeme : String} (h : Lexeme lexeme) : Written [lexeme] lexeme.toList
  | cons {lexeme : String} {gap rest : List Char} {others : List String} (h : Lexeme lexeme)
      (hgap : Blank.Gap gap) (hrest : Written others rest) :
    Written (lexeme :: others) (lexeme.toList ++ (gap ++ rest))

/-- Lexemes in order with a `Gap` between neighbours, and maybe one before the first and one behind
the last. The texts that the theorem compares are such. -/
def Writes (lexemes : List String) (text : String) : Prop :=
  Written lexemes text.toList ∨
    ∃ gap rest, text.toList = gap ++ rest ∧ Blank.Gap gap ∧ Written lexemes rest

/-- White space stands behind a lexeme, if anything does; the start of a `Gap`. -/
def Breaks (tail : List Char) : Prop := ∀ c, tail.head? = some c → Blank.isSpace c = true

namespace Breaks

variable {tail : List Char}

theorem isPart_eq_false (h : Breaks tail) {c : Char} (hc : tail.head? = some c) :
    Word.isPart c = false :=
  Word.isPart_eq_false_of_isSpace (h c hc)

theorem endsNumber (h : Breaks tail) : EndsNumber tail := by
  intro c hc
  refine ⟨h.isPart_eq_false hc, ?_⟩
  rintro rfl
  cases h '.' hc

theorem grows_eq_false (h : Breaks tail) (text : String) {c : Char} (hc : c ∈ tail.head?) :
    Symbol.grows text c = false :=
  Symbol.grows_eq_false (by simp [h c hc]) text

end Breaks

theorem Blank.Gap.breaks {gap : List Char} (h : Blank.Gap gap) (rest : List Char) :
    Breaks (gap ++ rest) := by
  cases h with
  | mk hspace _ =>
    intro c hc
    obtain rfl : _ = c := by simpa using hc
    exact hspace

namespace Lexeme

variable {text : String} {tail : List Char}

theorem exists_piece (h : Lexeme text) :
    ∃ p : Piece, p.isLexeme = true ∧ p.text = text ∧ (p = .token "/" → text = "/") := by
  cases h with
  | word h =>
    exact ⟨.token text, by simp [Piece.isLexeme, Word.isWordLike_of_isWord h], rfl,
      fun heq => Piece.token.inj heq⟩
  | symbol h =>
    exact ⟨.token text, by simp [Piece.isLexeme, h], rfl, fun heq => Piece.token.inj heq⟩
  | float h =>
    obtain ⟨c, cs, hlist, hc⟩ := h.head
    exact ⟨.number text, by simpa [Piece.isLexeme, hlist] using hc, rfl, fun heq => by cases heq⟩
  | int h =>
    obtain ⟨c, cs, hlist, hc⟩ := h.head
    exact ⟨.number text, by simp [Piece.isLexeme, hlist, hc], rfl, fun heq => by cases heq⟩

/-- No blank stands at the head of a lexeme, so `Blank.skip` leaves the lexeme alone. -/
theorem after?_append (h : Lexeme text) (htail : Breaks tail) :
    Blank.after? (text.toList ++ tail) = none := by
  by_cases hslash : text = "/"
  · subst hslash
    refine Blank.after?_slash (fun hc => ?_) fun hc => ?_
    · cases htail _ hc
    · cases htail _ hc
  · obtain ⟨p, hp, rfl, hne⟩ := h.exists_piece
    exact after?_text hp (fun heq => hslash (hne heq)) tail

/-- The kind of a lexeme shows at its first character: only a number starts with a digit, and only a
word with `isStart`. -/
theorem exists_head (h : Lexeme text) : ∃ c cs, text.toList = c :: cs ∧
    ((Word.isWord text = true ∧ Word.isStart c = true) ∨
      (text ∈ Symbol.all ∧ Word.isPart c = false) ∨
      (FloatLiteral.Lexeme text.toList ∧ (c.isDigit = true ∨ c = '.')) ∨
      (Integer.Lexeme text.toList ∧ c.isDigit = true)) := by
  cases h with
  | word h =>
    obtain ⟨c, cs, hlist, hc, -⟩ := Word.isWord_iff.1 h
    exact ⟨c, cs, hlist, .inl ⟨h, hc⟩⟩
  | symbol h =>
    obtain ⟨c, cs, hlist, hc⟩ := Symbol.exists_cons h
    exact ⟨c, cs, hlist, .inr (.inl ⟨h, hc⟩)⟩
  | float h =>
    obtain ⟨c, cs, hlist, hc⟩ := h.head
    exact ⟨c, cs, hlist, .inr (.inr (.inl ⟨h, hc⟩))⟩
  | int h =>
    obtain ⟨c, cs, hlist, hc⟩ := h.head
    exact ⟨c, cs, hlist, .inr (.inr (.inr ⟨h, hc⟩))⟩

theorem wordAtHead (h : Lexeme text) :
    (∀ tail, Breaks tail → Word.atHead? (text.toList ++ tail) = some (text, tail)) ∨
      ∀ tail, Word.atHead? (text.toList ++ tail) = none := by
  obtain ⟨c, cs, hlist, ⟨hw, -⟩ | ⟨-, hc⟩ | ⟨-, hc⟩ | ⟨-, hc⟩⟩ := h.exists_head
  · exact .inl fun tail htail => Word.atHead?_append hw fun c hc => htail.isPart_eq_false hc
  all_goals
    refine .inr fun tail => ?_
    rw [hlist]
    refine wordAtHead_eq_none ?_ _
  · exact Word.isStart_eq_false_of_isPart hc
  · rcases hc with hc | rfl
    · exact Word.isStart_eq_false_of_isDigit hc
    · rfl
  · exact Word.isStart_eq_false_of_isDigit hc

/-- The lexeme is a symbol, and `Symbol.atHead?` finds it, or no symbol is found, or the point of a
number is (`BarePoint`). -/
theorem symbolAtHead (h : Lexeme text) :
    (∀ tail, Breaks tail → Symbol.atHead? (text.toList ++ tail) = some (text, tail)) ∨
      (∀ tail, Symbol.atHead? (text.toList ++ tail) = none) ∨
      ∀ tail, Comparison.BarePoint (text.toList ++ tail) := by
  have hnone : ∀ {c cs}, text.toList = c :: cs → Word.isPart c = true → ∀ tail,
      Symbol.atHead? (text.toList ++ tail) = none := by
    intro c cs hlist hc tail
    rw [hlist]
    exact Symbol.atHead?_eq_none_of_isPart hc _
  obtain ⟨c, cs, hlist, ⟨-, hc⟩ | ⟨ht, -⟩ | ⟨hfloat, hc | rfl⟩ | ⟨-, hc⟩⟩ := h.exists_head
  · exact .inr (.inl (hnone hlist (Word.isPart_of_isStart hc)))
  · exact .inl fun tail htail => Symbol.atHead?_append ht fun c hc => htail.grows_eq_false text hc
  · exact .inr (.inl (hnone hlist (Word.isPart_of_isDigit hc)))
  · refine .inr (.inr fun tail => ?_)
    rw [hlist] at hfloat ⊢
    obtain ⟨d, ds, rfl, hd⟩ := hfloat.behind_point
    exact Comparison.barePoint_digit hd _
  · exact .inr (.inl (hnone hlist (Word.isPart_of_isDigit hc)))

theorem head_word (h : Word.isWord text = true) (tail : List Char) (c : Char)
    (hc : (text.toList ++ tail).head? = some c) : c.isDigit = false ∧ c ≠ '.' := by
  obtain ⟨d, ds, hlist, hd, -⟩ := Word.isWord_iff.1 h
  obtain rfl : d = c := by simpa [hlist] using hc
  refine ⟨Word.isDigit_eq_false_of_isStart hd, ?_⟩
  rintro rfl
  cases hd

theorem head_symbol (h : text ∈ Symbol.all) (tail : List Char) (c : Char)
    (hc : (text.toList ++ tail).head? = some c) : c.isDigit = false := by
  obtain ⟨d, ds, hlist, hpart⟩ := Symbol.exists_cons h
  obtain rfl : d = c := by simpa [hlist] using hc
  exact Word.isDigit_eq_false_of_isPart hpart

/-- What the parser replies at the head of a text depends on the lexeme alone, not on the white
space and the text behind it. -/
inductive Settles {α : Type} (p : Parser α) (text : String) : Prop
  | matched (v : α)
      (h : ∀ tail, Breaks tail → p (text.toList ++ tail) = .matched v (Blank.skip tail))
  | mismatch (h : ∀ tail, Breaks tail → ∃ fault, p (text.toList ++ tail) = .mismatch fault)
  | failure (h : ∀ tail, Breaks tail → ∃ fault, p (text.toList ++ tail) = .failure fault)

theorem settles_floatLiteral (h : Lexeme text) : Settles floatLiteral text := by
  cases h with
  | word h => exact .mismatch fun tail _ => ⟨_, floatLiteral_mismatch (head_word h tail)⟩
  | symbol h =>
    refine .mismatch fun tail htail => ?_
    by_cases hpoint : text = "."
    · subst hpoint
      have hread : FloatLiteral.lexemeAtHead (".".toList ++ tail) = .error tail :=
        FloatLiteral.lexemeAtHead_point fun c =>
          FloatLiteral.isDigit_eq_false_of_endsNumber htail.endsNumber
      exact ⟨⟨tail, .unexpected⟩, by simp only [floatLiteral, hread]⟩
    · have hne : ∀ t ∈ Symbol.all, t ≠ "." → t.toList.head? ≠ some '.' := by decide
      refine ⟨_, floatLiteral_mismatch fun c hc => ⟨head_symbol h tail c hc, ?_⟩⟩
      rintro rfl
      refine hne text h hpoint ?_
      obtain ⟨d, ds, hlist, -⟩ := (Lexeme.symbol h).exists_head
      simpa [hlist] using hc
  | float h =>
    refine .matched (.ofText text) fun tail htail => ?_
    simp only [floatLiteral, FloatLiteral.lexemeAtHead_append h htail.endsNumber.endsWord,
      String.ofList_toList]
  | int h =>
    refine .mismatch fun tail htail => ?_
    obtain ⟨place, hplace⟩ := h.lexemeAtHead htail.endsNumber
    exact ⟨⟨place, .unexpected⟩, by simp only [floatLiteral, hplace]⟩

theorem settles_intLiteral (h : Lexeme text) (hfloat : ¬ FloatLiteral.Lexeme text.toList) :
    Settles intLiteral text := by
  cases h with
  | word h =>
    exact .mismatch fun tail _ => ⟨_, intLiteral_mismatch fun c hc => (head_word h tail c hc).1⟩
  | symbol h => exact .mismatch fun tail _ => ⟨_, intLiteral_mismatch (head_symbol h tail)⟩
  | float h => exact absurd h hfloat
  | int h =>
    obtain ⟨c, cs, hlist, -⟩ := h.head
    have hne : text.toList ≠ [] := by simp [hlist]
    cases hread : Integer.atHead? text.toList with
    | none =>
      refine .mismatch fun tail htail => ⟨⟨text.toList ++ tail, .unexpected⟩, ?_⟩
      simp only [intLiteral, Integer.atHead?_append hne htail.endsNumber.endsWord, hread,
        Option.map_none]
    | some read =>
      obtain ⟨value, rest⟩ := read
      have hinput : ∀ {tail}, Breaks tail → Integer.atHead? (text.toList ++ tail) =
          some (value, rest ++ tail) := by
        intro tail htail
        rw [Integer.atHead?_append hne htail.endsNumber.endsWord, hread, Option.map_some]
      cases rest with
      | nil =>
        refine .matched value fun tail htail => ?_
        simp only [intLiteral, hinput htail, List.nil_append]
        cases tail with
        | nil => rfl
        | cons d tail => simp [htail.isPart_eq_false (c := d) rfl]
      | cons d rest =>
        -- only a part of the number was read, and more of it follows
        have hd := h.isPart d ((Integer.atHead?_suffix hread).1.subset (by simp))
        refine .failure fun tail htail => ⟨⟨d :: rest ++ tail, .badNumber d⟩, ?_⟩
        simp only [intLiteral, hinput htail, List.cons_append, hd, if_true]

end Lexeme

namespace Written

variable {lexeme : String} {others : List String} {text : List Char}

theorem skip (h : Written others text) : Blank.skip text = text := by
  have hend : Breaks [] := by simp [Breaks]
  refine Blank.skip_of_after?_eq_none ?_
  cases h with
  | nil => rfl
  | last h =>
    rw [← List.append_nil (String.toList _)]
    exact h.after?_append hend
  | cons h hgap _ => exact h.after?_append (hgap.breaks _)

theorem cons_inv (h : Written (lexeme :: others) text) :
    Lexeme lexeme ∧ ∃ tail, text = lexeme.toList ++ tail ∧ Breaks tail ∧
      Written others (Blank.skip tail) := by
  cases h with
  | last h => exact ⟨h, [], (List.append_nil _).symm, by simp [Breaks], .nil⟩
  | @cons _ gap rest _ h hgap hrest =>
    refine ⟨h, gap ++ rest, rfl, hgap.breaks rest, ?_⟩
    rw [Blank.skip_gap hgap, hrest.skip]
    exact hrest

end Written

/-! ## Two texts with the same lexemes -/

namespace Comparison

/-- The `Comparison` of two runs on texts that write the same lexemes. Neither may give up alone, so
nothing is `Excused`. -/
def sameLexemes : Comparison where
  Alike s t := ∃ lexemes, Written lexemes s ∧ Written lexemes t
  Excused _ := False

theorem sameLexemes_cases {s t : List Char} (h : sameLexemes.Alike s t) :
    (s = [] ∧ t = []) ∨ ∃ lexeme tail tail', Lexeme lexeme ∧ s = lexeme.toList ++ tail ∧
      t = lexeme.toList ++ tail' ∧ Breaks tail ∧ Breaks tail' ∧
      sameLexemes.Alike (Blank.skip tail) (Blank.skip tail') := by
  obtain ⟨lexemes, hs, ht⟩ := h
  cases lexemes with
  | nil =>
    cases hs
    cases ht
    exact .inl ⟨rfl, rfl⟩
  | cons lexeme others =>
    obtain ⟨hlexeme, tail, rfl, htail, hrest⟩ := hs.cons_inv
    obtain ⟨-, tail', rfl, htail', hrest'⟩ := ht.cons_inv
    exact .inr ⟨lexeme, tail, tail', hlexeme, rfl, rfl, htail, htail', others, hrest, hrest'⟩

theorem answers_of_settles {α : Type} {p : Parser α} {lexeme : String} (h : Lexeme.Settles p lexeme)
    {tail tail' : List Char} (htail : Breaks tail) (htail' : Breaks tail')
    (hrest : sameLexemes.Alike (Blank.skip tail) (Blank.skip tail')) :
    sameLexemes.Answers (p (lexeme.toList ++ tail)) (p (lexeme.toList ++ tail')) := by
  cases h with
  | matched v h =>
    rw [h tail htail, h tail' htail']
    exact .matched v hrest
  | mismatch h =>
    obtain ⟨fault, hs⟩ := h tail htail
    obtain ⟨fault', ht⟩ := h tail' htail'
    rw [hs, ht]
    exact .mismatch _ _
  | failure h =>
    obtain ⟨fault, hs⟩ := h tail htail
    obtain ⟨fault', ht⟩ := h tail' htail'
    rw [hs, ht]
    exact .failure _ _

theorem lexical_sameLexemes : sameLexemes.Lexical where
  wordHead := by
    intro s t hst
    obtain ⟨rfl, rfl⟩ | ⟨lexeme, tail, tail', h, rfl, rfl, htail, htail', hrest⟩ :=
      sameLexemes_cases hst
    · exact .inl ⟨rfl, rfl⟩
    · rcases h.wordAtHead with hfound | hnone
      · exact .inr ⟨lexeme, tail, tail', hfound tail htail, hfound tail' htail', hrest⟩
      · exact .inl ⟨hnone tail, hnone tail'⟩
  symbolHead := by
    intro s t hst
    obtain ⟨rfl, rfl⟩ | ⟨lexeme, tail, tail', h, rfl, rfl, htail, htail', hrest⟩ :=
      sameLexemes_cases hst
    · exact .inl (.inl ⟨rfl, rfl⟩)
    · rcases h.symbolAtHead with hfound | hnone | hpoint
      · exact .inl (.inr ⟨lexeme, tail, tail', hfound tail htail, hfound tail' htail', hrest⟩)
      · exact .inl (.inl ⟨hnone tail, hnone tail'⟩)
      · exact .inr ⟨hpoint tail, hpoint tail'⟩
  float := by
    intro s t hst
    obtain ⟨rfl, rfl⟩ | ⟨lexeme, tail, tail', h, rfl, rfl, htail, htail', hrest⟩ :=
      sameLexemes_cases hst
    · exact .mismatch _ _
    · exact answers_of_settles h.settles_floatLiteral htail htail' hrest
  int := by
    intro s t fault hst hfloat
    obtain ⟨rfl, rfl⟩ | ⟨lexeme, tail, tail', h, rfl, rfl, htail, htail', hrest⟩ :=
      sameLexemes_cases hst
    · exact .mismatch _ _
    · refine answers_of_settles (h.settles_intLiteral fun hlexeme => ?_) htail htail' hrest
      simp only [floatLiteral,
        FloatLiteral.lexemeAtHead_append hlexeme htail.endsNumber.endsWord] at hfloat
      cases hfloat
  hash := by
    intro s t hst
    obtain ⟨rfl, rfl⟩ | ⟨lexeme, tail, tail', h, rfl, rfl, -⟩ := sameLexemes_cases hst
    · exact Iff.rfl
    · obtain ⟨c, cs, hlist, -⟩ := h.exists_head
      simp [hlist]

end Comparison

theorem Writes.skip {lexemes : List String} {text : String} (h : Writes lexemes text) :
    Written lexemes (Blank.skip text.toList) := by
  rcases h with h | ⟨gap, rest, htext, hgap, h⟩
  · rw [h.skip]
    exact h
  · rw [htext, Blank.skip_gap hgap, h.skip]
    exact h

theorem Writes.run {α : Type} {p : Parser α} (hp : Comparison.sameLexemes.Follows p p)
    {lexemes : List String} {first second : String} (hfirst : Writes lexemes first)
    (hsecond : Writes lexemes second) :
    (∃ v, Parser.run (do blank; p) first = .ok v ∧ Parser.run (do blank; p) second = .ok v) ∨
      ∃ e e', Parser.run (do blank; p) first = .error e ∧
        Parser.run (do blank; p) second = .error e' := by
  have hreply := hp _ _ ⟨lexemes, hfirst.skip, hsecond.skip⟩
  have hblank : ∀ text : List Char, (do blank; p : Parser α) text = p (Blank.skip text) :=
    fun _ => rfl
  simp only [Parser.run, hblank]
  generalize p (Blank.skip first.toList) = left, p (Blank.skip second.toList) = right at hreply ⊢
  cases hreply with
  | mismatch => exact .inr ⟨_, _, rfl, rfl⟩
  | failure => exact .inr ⟨_, _, rfl, rfl⟩
  | excused hcause => exact False.elim hcause
  | matched v hrest =>
    -- what is left is empty in both runs or in neither
    obtain ⟨rfl, rfl⟩ | ⟨lexeme, tail, tail', h, rfl, rfl, -⟩ := Comparison.sameLexemes_cases hrest
    · exact .inl ⟨v, rfl, rfl⟩
    · obtain ⟨c, cs, hlist, -⟩ := h.exists_head
      rw [hlist]
      exact .inr ⟨_, _, rfl, rfl⟩

namespace Tree

/-- Two texts that write the same lexemes (`Writes`) are read by `Tree.parse` as the same
expression, or the same statement, or both are rejected. -/
theorem parse_of_writes {lexemes : List String} {first second : String}
    (hfirst : Writes lexemes first) (hsecond : Writes lexemes second) {rule : StartRule}
    (hrule : rule = .condition ∨ rule = .statement) :
    (∃ tree, parse first rule = .ok tree ∧ parse second rule = .ok tree) ∨
      ∃ e e', parse first rule = .error e ∧ parse second rule = .error e' := by
  have hlexical := Comparison.lexical_sameLexemes
  rcases hrule with rfl | rfl
  · rcases hfirst.run (Comparison.follows_expression hlexical (.inl rfl)) hsecond with
      ⟨v, h, h'⟩ | ⟨e, e', h, h'⟩
    · exact .inl ⟨.expression v, by rw [parse, Expr.parse, h]; rfl,
        by rw [parse, Expr.parse, h']; rfl⟩
    · exact .inr ⟨e, e', by rw [parse, Expr.parse, h]; rfl, by rw [parse, Expr.parse, h']; rfl⟩
  · rcases hfirst.run (Comparison.follows_statement hlexical (.inl rfl)) hsecond with
      ⟨v, h, h'⟩ | ⟨e, e', h, h'⟩
    · exact .inl ⟨.statement v, by rw [parse, Statement.parse, h]; rfl,
        by rw [parse, Statement.parse, h']; rfl⟩
    · exact .inr ⟨e, e', by rw [parse, Statement.parse, h]; rfl,
        by rw [parse, Statement.parse, h']; rfl⟩

/-- A statement with a number that starts with its point, on one line and with comments, line
continuations and blanks around its lexemes, for `parse_of_writes`. -/
theorem parse_of_writes_comments :
    Writes ["a", "=", ".5", ";"] "a = .5 ;" ∧
      Writes ["a", "=", ".5", ";"] " a /* = */\\\n=\t// .\n.5 ;\r\n" ∧
      ∃ tree, parse "a = .5 ;" .statement = .ok tree ∧
        parse " a /* = */\\\n=\t// .\n.5 ;\r\n" .statement = .ok tree := by
  have hword : Lexeme "a" := .word (by decide)
  have hset : Lexeme "=" := .symbol (by decide)
  have hnumber : Lexeme ".5" :=
    .float (FloatLiteral.lexeme_of_lexemeAtHead (show FloatLiteral.lexemeAtHead ".5".toList =
      .ok (".5".toList, []) from rfl))
  have hend : Lexeme ";" := .symbol (by decide)
  have hspace : ∀ c, Blank.isSpace c = true → Blank.Gap [c] := fun _ hc => .mk hc .nil
  have hclosed : Blank.Gap " /* = */\\\n".toList :=
    .mk (by decide) (.cons "\\\n".toList (fun _ => rfl) (.cons [] (fun _ => rfl) .nil))
  have hline : Blank.Gap "\t// .\n".toList :=
    .mk (by decide) (.cons ['\n'] (fun _ => rfl) (.cons [] (fun _ => rfl) .nil))
  have hfeed : Blank.Gap ['\r', '\n'] := .mk (by decide) (.cons [] (fun _ => rfl) .nil)
  have hplain : Writes ["a", "=", ".5", ";"] "a = .5 ;" :=
    .inl (.cons hword (hspace ' ' rfl) (.cons hset (hspace ' ' rfl)
      (.cons hnumber (hspace ' ' rfl) (.last hend))))
  have hcomments : Writes ["a", "=", ".5", ";"] " a /* = */\\\n=\t// .\n.5 ;\r\n" :=
    .inr ⟨[' '], _, rfl, hspace ' ' rfl, .cons hword hclosed (.cons hset hline
      (.cons hnumber (hspace ' ' rfl) (.cons hend hfeed .nil)))⟩
  refine ⟨hplain, hcomments, (parse_of_writes hplain hcomments (.inr rfl)).resolve_right ?_⟩
  rintro ⟨e, -, he, -⟩
  cases he

end Tree

end ShaderMinifier
