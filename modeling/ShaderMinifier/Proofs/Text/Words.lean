import ShaderMinifier.Proofs.Grammar.Progress
import ShaderMinifier.Proofs.Text.Lines

/-
  The words that a text holds, and the names among the words that pieces write. A text is scanned
  from left to right, a word, a number or a character at a time, so that the letters of a number are
  no word. `Names` says of lexemes which names they write, whatever their order, and that each is of
  a kind that the scan meets again in the text; `Coded` says the same of pieces with lines of
  directives between them, whose text holds these names once the lines are taken out
  (`Coded.names_withoutLines?`).
-/

namespace ShaderMinifier

open Piece

/-! ## Scanning a text -/

namespace Word

/-- What follows the number at the head of the input, a floating point literal (`lexemeAtHead`) or
else an integer (`Integer.atHead?`). -/
def afterNumber? (input : List Char) : Option (List Char) :=
  match FloatLiteral.lexemeAtHead input with
  | .ok (_, rest) => some rest
  | .error _ => (Integer.atHead? input).map Prod.snd

/-- The word at the head of the input, if there is one, and what follows it; else what follows the
number (`afterNumber?`) or the character at the head. -/
def next? (input : List Char) : Option (Option String × List Char) :=
  match atHead? input with
  | some (word, rest) => some (some word, rest)
  | none =>
    match afterNumber? input with
    | some rest => some (none, rest)
    | none =>
      match input with
      | [] => none
      | _ :: rest => some (none, rest)

/-- The words of the input by `next?`, in at most one step for each character of the first argument,
which serves as fuel. -/
def scanUpTo : List Char → List Char → List String
  | [], _ => []
  | _ :: gas, input =>
    match next? input with
    | none => []
    | some (word, rest) => word.toList ++ scanUpTo gas rest

/-- The words of a text from left to right. The letters of a number, as in `1e5` or `0xff`, are no
word. -/
def scan (input : List Char) : List String := scanUpTo input input

theorem next?_lt {input rest : List Char} {word : Option String}
    (h : next? input = some (word, rest)) : rest.length < input.length := by
  unfold next? at h
  split at h
  · next hword =>
    obtain ⟨-, rfl⟩ := Prod.mk.inj (Option.some.inj h)
    exact (atHead?_suffix hword).2
  · split at h
    · next hnumber =>
      obtain ⟨-, rfl⟩ := Prod.mk.inj (Option.some.inj h)
      unfold afterNumber? at hnumber
      split at hnumber
      · next hfloat =>
        obtain rfl := Option.some.inj hnumber
        exact (FloatLiteral.lexemeAtHead_suffix hfloat).2
      · obtain ⟨⟨value, tail⟩, hint, rfl⟩ := Option.map_eq_some_iff.1 hnumber
        exact (Integer.atHead?_suffix hint).2
    · split at h
      · cases h
      · obtain ⟨-, rfl⟩ := Prod.mk.inj (Option.some.inj h)
        simp

theorem scanUpTo_eq {gas gas' input : List Char} (h : input.length ≤ gas.length)
    (h' : input.length ≤ gas'.length) : scanUpTo gas input = scanUpTo gas' input := by
  induction gas generalizing gas' input with
  | nil =>
    obtain rfl : input = [] := List.length_eq_zero_iff.1 (by simpa using h)
    cases gas' <;> rfl
  | cons c gas ih =>
    cases gas' with
    | nil =>
      obtain rfl : input = [] := List.length_eq_zero_iff.1 (by simpa using h')
      rfl
    | cons c' gas' =>
      rw [scanUpTo, scanUpTo]
      split
      · rfl
      · next word rest hnext =>
        have hlt := next?_lt hnext
        rw [List.length_cons] at h h'
        rw [ih (by omega : rest.length ≤ gas.length) (by omega : rest.length ≤ gas'.length)]

theorem scan_of_next? {input rest : List Char} {word : Option String}
    (h : next? input = some (word, rest)) : scan input = word.toList ++ scan rest := by
  have hlt := next?_lt h
  cases input with
  | nil => simp at hlt
  | cons c input =>
    rw [List.length_cons] at hlt
    simp only [scan, scanUpTo, h]
    rw [scanUpTo_eq (by omega : rest.length ≤ input.length) le_rfl]

theorem scan_word {w : String} (hw : isWord w = true) {rest : List Char}
    (hrest : ∀ c, rest.head? = some c → isPart c = false) :
    scan (w.toList ++ rest) = w :: scan rest := by
  have hnext : next? (w.toList ++ rest) = some (some w, rest) := by
    simp only [next?, atHead?_append hw hrest]
  exact scan_of_next? hnext

/-- A character that starts neither a word nor a number is passed over by `scan`; a point starts a
number only before a digit. -/
theorem scan_cons {c : Char} (hstart : isStart c = false) (hdigit : c.isDigit = false)
    {rest : List Char} (hpoint : c = '.' → ∀ d, rest.head? = some d → d.isDigit = false) :
    scan (c :: rest) = scan rest := by
  have hint : Integer.atHead? (c :: rest) = none := by
    refine Integer.atHead?_absent fun d hd => ?_
    obtain rfl : c = d := by simpa using hd
    exact hdigit
  have hfloat : ∃ place, FloatLiteral.lexemeAtHead (c :: rest) = .error place := by
    by_cases hc : c = '.'
    · rw [hc]
      exact ⟨_, FloatLiteral.lexemeAtHead_point (hpoint hc)⟩
    · refine ⟨_, FloatLiteral.lexemeAtHead_absent fun d hd => ?_⟩
      obtain rfl : c = d := by simpa using hd
      exact ⟨hdigit, hc⟩
  obtain ⟨place, hfloat⟩ := hfloat
  have hnext : next? (c :: rest) = some (none, rest) := by
    simp only [next?, wordAtHead_eq_none hstart, afterNumber?, hfloat, hint, Option.map_none]
  exact scan_of_next? hnext

theorem scan_append {text : List Char}
    (h : ∀ c ∈ text, isStart c = false ∧ c.isDigit = false ∧ c ≠ '.') (rest : List Char) :
    scan (text ++ rest) = scan rest := by
  induction text with
  | nil => rfl
  | cons c text ih =>
    obtain ⟨hstart, hdigit, hpoint⟩ := h c (by simp)
    rw [List.cons_append, scan_cons hstart hdigit fun hc => absurd hc hpoint,
      ih fun d hd => h d (by simp [hd])]

theorem scan_spaces {text : List Char} (h : ∀ c ∈ text, Blank.isSpace c = true)
    (rest : List Char) : scan (text ++ rest) = scan rest := by
  refine scan_append (fun c hc => ?_) rest
  have hpart := isPart_eq_false_of_isSpace (h c hc)
  refine ⟨isStart_eq_false_of_isPart hpart, isDigit_eq_false_of_isPart hpart, ?_⟩
  rintro rfl
  cases h '.' hc

theorem scan_symbol {t : String} (ht : t ∈ Symbol.all) (hpoint : t ≠ ".") (rest : List Char) :
    scan (t.toList ++ rest) = scan rest := by
  have hno : ∀ t ∈ Symbol.all, t ≠ "." → '.' ∉ t.toList := by decide
  refine scan_append (fun c hc => ?_) rest
  have hpart : isPart c = false := Symbol.isPart_eq_false ht hc
  exact ⟨isStart_eq_false_of_isPart hpart, isDigit_eq_false_of_isPart hpart,
    fun h => hno t ht hpoint (h ▸ hc)⟩

theorem scan_number {c : Char} {text rest : List Char} (hc : c.isDigit = true ∨ c = '.')
    (h : afterNumber? (c :: text ++ rest) = some rest) : scan (c :: text ++ rest) = scan rest := by
  have hstart : isStart c = false := by
    rcases hc with hc | rfl
    · exact isStart_eq_false_of_isDigit hc
    · rfl
  have hnext : next? (c :: text ++ rest) = some (none, rest) := by
    rw [List.cons_append] at h ⊢
    simp only [next?, wordAtHead_eq_none hstart, h]
  exact scan_of_next? hnext

end Word

/-! ## The names that pieces write -/

namespace Piece

/-- The pieces write these names, in any order. A word that is no name is a keyword without
`isTypeName`; the one qualifier of two words, `invariantVarying`, is two such keywords. A point
stands before a field. -/
inductive Names : List Piece → Multiset String → Prop
  | nil : Names [] 0
  | symbol {t : String} {ps : List Piece} {names : Multiset String} (ht : t ∈ Symbol.all)
      (hpoint : t ≠ ".") (h : Names ps names) : Names (.token t :: ps) names
  | keyword {w : String} {ps : List Piece} {names : Multiset String} (hw : Word.isWord w = true)
      (hkeyword : Word.isTypeName w = false) (h : Names ps names) : Names (.token w :: ps) names
  | invariantVarying {ps : List Piece} {names : Multiset String} (h : Names ps names) :
    Names (.token TypeQualifier.invariantVarying.text :: ps) names
  | word {w : String} {ps : List Piece} {names : Multiset String} (hw : Word.NamesType w)
      (h : Names ps names) : Names (.token w :: ps) ({w} + names)
  | field {w : String} {ps : List Piece} {names : Multiset String} (hw : Word.NamesType w)
      (h : Names ps names) : Names (.token "." :: .token w :: ps) ({w} + names)
  | float {f : FloatLiteral} {ps : List Piece} {names : Multiset String} (hf : f.Proper)
      (h : Names ps names) : Names (.number f.text :: ps) names
  | int (value : UInt64) {ps : List Piece} {names : Multiset String} (h : Names ps names) :
    Names (.number (String.ofList (Nat.toDigits 10 value.toNat)) :: ps) names

/-- The pieces hold these lines of directives, in this order, and between them pieces that write
these `Names`, in any order. -/
inductive Coded : List Piece → List String → Multiset String → Prop
  | nil : Coded [] [] 0
  | line (text : String) {ps : List Piece} {lines : List String} {names : Multiset String}
      (h : Coded ps lines names) : Coded (.line text :: ps) (text :: lines) names
  | code {ps qs : List Piece} {lines : List String} {names others : Multiset String}
      (hp : Names ps names) (hq : Coded qs lines others) : Coded (ps ++ qs) lines (names + others)

theorem inLine_word {w : String} (hw : Word.isWord w = true) : (Piece.token w).InLine := by
  intro _ c hc
  have hpart := Word.isPart_of_mem hw c hc
  constructor <;> rintro rfl <;> cases hpart

theorem inLine_symbol {t : String} (ht : t ∈ Symbol.all) : (Piece.token t).InLine := by
  intro _ c hc
  have hchar := Symbol.char_of_symbol t ht c hc
  constructor <;> rintro rfl <;> cases hchar

theorem inLine_float {f : FloatLiteral} (hf : f.Proper) : (Piece.number f.text).InLine := by
  intro _ c hc
  rcases hf.lexeme.mem hc with hpart | hmark
  · constructor <;> rintro rfl <;> cases hpart
  · constructor <;> rintro rfl <;> simp at hmark

theorem inLine_int (value : UInt64) :
    (Piece.number (String.ofList (Nat.toDigits 10 value.toNat))).InLine := by
  intro _ c hc
  rw [text, String.toList_ofList] at hc
  have hdigit := Integer.allDigits_toDigits _ c hc
  constructor <;> rintro rfl <;> cases hdigit

theorem inLine_invariantVarying :
    (Piece.token TypeQualifier.invariantVarying.text).InLine := by
  have hchars : (TypeQualifier.invariantVarying.text.toList.all fun c => c != '#' && c != '\n') =
      true := by decide
  intro _ c hc
  simpa using List.all_eq_true.1 hchars c hc

namespace Names

variable {ps : List Piece} {names : Multiset String}

theorem lines_eq_nil (h : Names ps names) : lines ps = [] := by
  induction h with
  | nil => rfl
  | symbol _ _ _ ih | keyword _ _ _ ih | invariantVarying _ ih | word _ _ ih | field _ _ ih
  | float _ _ ih | int _ _ ih => exact ih

theorem inLine (h : Names ps names) : ∀ p ∈ ps, p.InLine := by
  induction h with
  | nil => simp
  | symbol ht _ _ ih => exact List.forall_mem_cons.2 ⟨inLine_symbol ht, ih⟩
  | keyword hw _ _ ih => exact List.forall_mem_cons.2 ⟨inLine_word hw, ih⟩
  | invariantVarying _ ih => exact List.forall_mem_cons.2 ⟨inLine_invariantVarying, ih⟩
  | word hw _ ih => exact List.forall_mem_cons.2 ⟨inLine_word hw.isWord, ih⟩
  | field hw _ ih =>
    exact List.forall_mem_cons.2
      ⟨inLine_symbol (by decide), List.forall_mem_cons.2 ⟨inLine_word hw.isWord, ih⟩⟩
  | float hf _ ih => exact List.forall_mem_cons.2 ⟨inLine_float hf, ih⟩
  | int value _ ih => exact List.forall_mem_cons.2 ⟨inLine_int value, ih⟩

end Names

namespace Coded

variable {ps qs : List Piece} {lines others : List String} {names names' : Multiset String}

theorem of_names (h : Names ps names) : Coded ps [] names := by
  simpa using Coded.code h .nil

theorem of_eq (h : Coded ps lines names) (heq : names = names') : Coded ps lines names' := heq ▸ h

theorem append (hp : Coded ps lines names) (hq : Coded qs others names') :
    Coded (ps ++ qs) (lines ++ others) (names + names') := by
  induction hp with
  | nil => simpa using hq
  | line text _ ih => exact .line text ih
  | code h _ ih =>
    rw [List.append_assoc, add_assoc]
    exact .code h ih

theorem lines_eq (h : Coded ps lines names) : Piece.lines ps = lines := by
  induction h with
  | nil => rfl
  | line text _ ih => rw [lines_line, ih]
  | code h _ ih => rw [lines_append, h.lines_eq_nil, ih, List.nil_append]

theorem inLine (h : Coded ps lines names) : ∀ p ∈ ps, p.InLine := by
  induction h with
  | nil => simp
  | line text _ ih =>
    refine List.forall_mem_cons.2 ⟨fun hline => ?_, ih⟩
    cases hline
  | code h _ ih => exact List.forall_mem_append.2 ⟨h.inLine, ih⟩

end Coded

end Piece

/-! ## Scanning the code of pieces -/

/-- The names among the words of a text: those with `isTypeName`, that is identifiers and the names
of types. -/
def Word.namesIn (text : List Char) : List String := (Word.scan text).filter Word.isTypeName

theorem namesIn_cons {w : String} {text rest : List Char}
    (h : Word.scan text = w :: Word.scan rest) :
    Word.namesIn text =
      if Word.isTypeName w = true then w :: Word.namesIn rest else Word.namesIn rest := by
  rw [Word.namesIn, h, List.filter_cons, Word.namesIn]

/-- The gap before a lexeme holds no word, so `scan` of the code starts with the text of the
piece. -/
theorem scan_writeCode (pen : Pen) {p : Piece} {k : List Piece} (hk : Clean (p :: k))
    (hline : p.line? = none) :
    Word.scan (pen.writeCode (p :: k)) =
      Word.scan (p.text.toList ++ (Pen.past p).writeCode k) := by
  have hcode : pen.code p = pen.lead p ++ p.text.toList := by
    rw [Pen.code, hline, Pen.write_lexeme pen hline]
  rw [Pen.writeCode, hcode, Pen.after_eq_past pen hk.head, List.append_assoc,
    Word.scan_spaces fun c => Pen.isSpace_of_mem_lead]

theorem scan_writeCode_line (pen : Pen) {text : String} {k : List Piece}
    (hk : Clean (.line text :: k)) :
    Word.scan (pen.writeCode (.line text :: k)) =
      Word.scan ((Pen.past (.line text)).writeCode k) := by
  rw [Pen.writeCode, Pen.after_eq_past pen hk.head]
  exact Word.scan_spaces (fun c hc => Pen.isSpace_of_mem_lead (p := .line text) hc) _

theorem scan_symbol_code (pen : Pen) {t : String} (ht : t ∈ Symbol.all) (hpoint : t ≠ ".")
    {k : List Piece} (hk : Clean (.token t :: k)) :
    Word.scan (pen.writeCode (.token t :: k)) =
      Word.scan ((Pen.past (.token t)).writeCode k) := by
  rw [scan_writeCode pen hk rfl]
  exact Word.scan_symbol ht hpoint _

theorem scan_word_code (pen : Pen) {w : String} (hw : Word.isWord w = true) {k : List Piece}
    (hk : Clean (.token w :: k)) :
    Word.scan (pen.writeCode (.token w :: k)) =
      w :: Word.scan ((Pen.past (.token w)).writeCode k) := by
  rw [scan_writeCode pen hk rfl]
  refine Word.scan_word hw fun c hc => ?_
  rw [Pen.head_writeCode hk (inLine_word hw) rfl] at hc
  exact tail_of_word hk (Word.isWordLike_of_isWord hw) hc

theorem scan_invariantVarying (pen : Pen) {k : List Piece}
    (hk : Clean (.token TypeQualifier.invariantVarying.text :: k)) :
    Word.scan (pen.writeCode (.token TypeQualifier.invariantVarying.text :: k)) =
      "invariant" :: "varying" ::
        Word.scan ((Pen.past (.token TypeQualifier.invariantVarying.text)).writeCode k) := by
  have htail : ∀ c, ((Pen.past (.token TypeQualifier.invariantVarying.text)).writeCode k).head? =
      some c → Word.isPart c = false := by
    intro c hc
    rw [Pen.head_writeCode hk inLine_invariantVarying rfl] at hc
    exact tail_of_word hk rfl hc
  rw [scan_writeCode pen hk rfl, Piece.text, show TypeQualifier.invariantVarying.text.toList =
    "invariant".toList ++ ' ' :: "varying".toList from rfl, List.append_assoc, List.cons_append,
    Word.scan_word (by decide) (by simp [Word.isPart]), Word.scan_cons rfl rfl (by simp),
    Word.scan_word (by decide) htail]

/-- A point before a field starts no number, so `scan` passes it over and goes on at the field. -/
theorem scan_point_code (pen : Pen) {w : String} (hw : Word.isWord w = true) {k : List Piece}
    (hk : Clean (.token "." :: .token w :: k)) :
    Word.scan (pen.writeCode (.token "." :: .token w :: k)) =
      Word.scan ((Pen.past (.token ".")).writeCode (.token w :: k)) := by
  rw [scan_writeCode pen hk rfl, Piece.text, show ".".toList = ['.'] from rfl,
    List.singleton_append]
  refine Word.scan_cons rfl rfl fun _ c hc => ?_
  rw [Pen.head_writeCode hk (inLine_symbol (by decide)) rfl] at hc
  rcases Pen.head_writeAll hk.tail hc with hspace | ⟨q, hq, hfirst, -⟩
  · exact Word.isDigit_eq_false_of_isPart (Word.isPart_eq_false_of_isSpace hspace)
  · obtain ⟨d, ds, hlist, hd, -⟩ := Word.isWord_iff.1 hw
    obtain rfl : Piece.token w = q := by simpa using hq
    obtain rfl : d = c := by simpa [first?, Piece.text, hlist] using hfirst
    exact Word.isDigit_eq_false_of_isStart hd

theorem afterNumber?_float {f : FloatLiteral} (hf : f.Proper) {tail : List Char}
    (htail : EndsNumber tail) :
    Word.afterNumber? (f.text.toList ++ tail) = some tail := by
  rw [Word.afterNumber?, FloatLiteral.lexemeAtHead_append hf.lexeme htail.endsWord]

theorem afterNumber?_int (value : UInt64) {tail : List Char} (htail : EndsNumber tail) :
    Word.afterNumber? ((String.ofList (Nat.toDigits 10 value.toNat)).toList ++ tail) =
      some tail := by
  rw [String.toList_ofList, Word.afterNumber?, Integer.lexemeAtHead_toDigits value htail,
    Integer.atHead?_toDigits value htail, Option.map_some]

theorem scan_number_code (pen : Pen) {t : String} {k : List Piece} (hk : Clean (.number t :: k))
    (hline : (Piece.number t).InLine)
    (h : ∀ tail, EndsNumber tail → Word.afterNumber? (t.toList ++ tail) = some tail) :
    Word.scan (pen.writeCode (.number t :: k)) =
      Word.scan ((Pen.past (.number t)).writeCode k) := by
  obtain ⟨c, cs, hlist⟩ := text_ne_nil hk.head
  have hlex := hk.head
  simp only [Piece.text] at hlist
  simp only [isLexeme, hlist, List.head?_cons, Option.any_some, Bool.or_eq_true, beq_iff_eq] at hlex
  have htail : EndsNumber ((Pen.past (.number t)).writeCode k) := by
    intro d hd
    rw [Pen.head_writeCode hk hline rfl] at hd
    exact Parser.endsNumber_spell hk d hd
  have hafter := h _ htail
  rw [hlist] at hafter
  rw [scan_writeCode pen hk rfl, Piece.text, hlist]
  exact Word.scan_number hlex hafter

namespace Piece

/-- The names among the words of the code of pieces are those that `Names` says they write, and
those that the pieces `k` behind them write with some pen. -/
theorem Names.exists_pen {ps k : List Piece} {names : Multiset String} (h : Names ps names)
    (pen : Pen) (hclean : Clean (ps ++ k)) :
    ∃ pen' : Pen, (Word.namesIn (pen.writeCode (ps ++ k)) : Multiset String) =
      names + Word.namesIn (pen'.writeCode k) := by
  induction h generalizing pen with
  | nil => exact ⟨pen, (zero_add _).symm⟩
  | symbol ht hpoint _ ih =>
    rw [List.cons_append] at hclean ⊢
    rw [Word.namesIn, scan_symbol_code pen ht hpoint hclean]
    exact ih _ hclean.tail
  | keyword hw hkeyword _ ih =>
    rw [List.cons_append] at hclean ⊢
    rw [namesIn_cons (scan_word_code pen hw hclean), hkeyword]
    exact ih _ hclean.tail
  | invariantVarying _ ih =>
    rw [List.cons_append] at hclean ⊢
    rw [Word.namesIn, scan_invariantVarying pen hclean]
    exact ih _ hclean.tail
  | word hw _ ih =>
    rw [List.cons_append] at hclean ⊢
    obtain ⟨pen', ih⟩ := ih _ hclean.tail
    rw [namesIn_cons (scan_word_code pen hw.isWord hclean),
      if_pos hw.isTypeName, ← Multiset.cons_coe, ih, ← Multiset.singleton_add, ← add_assoc]
    exact ⟨pen', rfl⟩
  | field hw _ ih =>
    rw [List.cons_append, List.cons_append] at hclean ⊢
    obtain ⟨pen', ih⟩ := ih _ hclean.tail.tail
    rw [Word.namesIn, scan_point_code pen hw.isWord hclean, ← Word.namesIn,
      namesIn_cons (scan_word_code _ hw.isWord hclean.tail),
      if_pos hw.isTypeName, ← Multiset.cons_coe, ih, ← Multiset.singleton_add, ← add_assoc]
    exact ⟨pen', rfl⟩
  | float hf _ ih =>
    rw [List.cons_append] at hclean ⊢
    rw [Word.namesIn,
      scan_number_code pen hclean (inLine_float hf) fun _ => afterNumber?_float hf]
    exact ih _ hclean.tail
  | int value _ ih =>
    rw [List.cons_append] at hclean ⊢
    rw [Word.namesIn,
      scan_number_code pen hclean (inLine_int value) fun _ => afterNumber?_int value]
    exact ih _ hclean.tail

theorem Coded.names_writeCode {ps : List Piece} {lines : List String} {names : Multiset String}
    (h : Coded ps lines names) (pen : Pen) (hclean : Clean ps) :
    (Word.namesIn (pen.writeCode ps) : Multiset String) = names := by
  induction h generalizing pen with
  | nil => rfl
  | line text _ ih =>
    rw [Word.namesIn, scan_writeCode_line pen hclean]
    exact ih _ hclean.tail
  | code h _ ih =>
    obtain ⟨pen', hnames⟩ := h.exists_pen pen hclean
    rw [hnames, ih pen' hclean.right]

/-- The text of pieces without their lines (`withoutLines?`) holds the names that `Coded` says they
write. -/
theorem Coded.names_withoutLines? {ps : List Piece} {lines : List String}
    {names : Multiset String} (h : Coded ps lines names) (hclean : Clean ps) :
    ∃ code, withoutLines? lines (layout ps).toList = some code ∧
      names = (Word.namesIn code : Multiset String) := by
  refine ⟨Pen.start.writeCode ps, ?_, (h.names_writeCode .start hclean).symm⟩
  rw [← h.lines_eq, layout_toList]
  exact Pen.withoutLines?_writeAll hclean h.inLine .start

end Piece

end ShaderMinifier
