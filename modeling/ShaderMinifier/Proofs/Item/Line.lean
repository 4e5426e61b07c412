import ShaderMinifier.Item.Parser
import ShaderMinifier.Item.Printer
import ShaderMinifier.Proofs.Text.Clean

/-
  The lines of directives, read and written. What stands behind a directive's name is a value: one
  line, where a backslash keeps a line going, without white space at its ends. A value that does
  not end in a backslash is read back from the line that is written for it; behind a backslash the
  line feed would not end the line.
-/

namespace ShaderMinifier

/-! ## Trimming -/

namespace WhiteSpace

theorem trim_eq (text : List Char) : trim text = (text.dropWhile isMember).rdropWhile isMember :=
  rfl

theorem dropWhile_trim (text : List Char) : (trim text).dropWhile isMember = trim text := by
  rw [trim_eq, List.dropWhile_eq_self_iff]
  intro hpos
  -- the first character is that of the text without the white space before it
  have hle := List.rdropWhile_prefix isMember (text.dropWhile isMember)
  rw [hle.getElem hpos]
  have hself := List.dropWhile_idempotent isMember text
  exact List.dropWhile_eq_self_iff.1 hself (hpos.trans_le hle.length_le)

theorem trim_trim (text : List Char) : trim (trim text) = trim text := by
  rw [trim_eq (trim text), dropWhile_trim, trim_eq, List.rdropWhile_idempotent]

theorem trim_cons {c : Char} (hc : isMember c = true) (text : List Char) :
    trim (c :: text) = trim text := by
  rw [trim_eq, List.dropWhile_cons_of_pos hc, trim_eq]

end WhiteSpace

/-! ## Values -/

namespace Directive

open WhiteSpace

/-- A `line` goes on behind a character that does not end it, a backslash before a line feed
apart. -/
theorem line_cons {c : Char} {text : List Char} (hc : c ≠ '\n')
    (h : c = '\\' → text.head? ≠ some '\n') : line (c :: text) = c :: line text := by
  rw [line, if_neg hc]
  rintro rest hslash rfl
  exact h hslash rfl

theorem head_line (text : List Char) : (line text).head? ≠ some '\n' := by
  fun_cases line text with
  | case1 rest => simp
  | case2 rest => simp
  | case3 c rest _ hc => simpa using hc
  | case4 => simp

theorem line_line (text : List Char) : line (line text) = line text := by
  fun_induction line text with
  | case1 rest ih => rw [line, ih]
  | case2 rest h => rfl
  | case3 c rest _ hc ih => rw [line_cons hc fun _ => head_line rest, ih]
  | case4 => rfl

theorem line_take {text : List Char} (h : line text = text) (n : Nat) :
    line (text.take n) = text.take n := by
  fun_induction line text generalizing n with
  | case1 rest ih =>
    have hrest : line rest = rest := by simpa using h
    cases n with
    | zero => rfl
    | succ n =>
      cases n with
      | zero => rfl
      | succ n => rw [List.take_succ_cons, List.take_succ_cons, line, ih hrest]
  | case2 rest => cases h
  | case3 c rest hpair hc ih =>
    have hrest : line rest = rest := by simpa using h
    cases n with
    | zero => rfl
    | succ n =>
      rw [List.take_succ_cons, line_cons hc, ih hrest]
      rintro - hhead
      cases n with
      | zero => simp at hhead
      | succ n =>
        rw [List.head?_take, if_neg (by simp), ← hrest] at hhead
        exact head_line rest hhead
  | case4 => rw [List.take_nil, line]

theorem line_dropWhile {text : List Char} (h : line text = text) :
    line (text.dropWhile isMember) = text.dropWhile isMember := by
  induction text with
  | nil => rfl
  | cons c text ih =>
    by_cases hc : isMember c = true
    · have hslash : c ≠ '\\' := by
        rintro rfl
        cases hc
      rw [List.dropWhile_cons_of_pos hc]
      refine ih ?_
      rw [line] at h
      · split at h
        · cases h
        · exact (List.cons.inj h).2
      · exact fun _ hc' _ => hslash hc'
    · rw [List.dropWhile_cons_of_neg hc, h]

/-- The text stands on one `line`, and no white space is at its ends; what `directiveValue`
gives. -/
structure IsValue (text : String) : Prop where
  oneLine : line text.toList = text.toList
  trimmed : trim text.toList = text.toList

theorem isValue_trim_line (input : List Char) : IsValue (String.ofList (trim (line input))) := by
  refine ⟨?_, ?_⟩
  · have hpre := List.rdropWhile_prefix isMember ((line input).dropWhile isMember)
    rw [String.toList_ofList, trim_eq, List.prefix_iff_eq_take.1 hpre]
    exact line_take (line_dropWhile (line_line input)) _
  · rw [String.toList_ofList, trim_trim]

theorem line_append {text : List Char} (h : line text = text)
    (hlast : text.getLast? ≠ some '\\') (rest : List Char) :
    line (text ++ '\n' :: rest) = text := by
  fun_induction line text with
  | case1 tail ih =>
    have htail : line tail = tail := by simpa using h
    rw [List.cons_append, List.cons_append, line, ih htail]
    intro hslash
    cases tail with
    | nil => cases hslash
    | cons c tail => exact hlast (by simpa using hslash)
  | case2 tail => cases h
  | case3 c tail hpair hc ih =>
    have htail : line tail = tail := by simpa using h
    cases tail with
    | nil =>
      have hslash : c ≠ '\\' := by simpa using hlast
      rw [List.cons_append, line_cons hc fun hc' => absurd hc' hslash]
      rfl
    | cons d tail =>
      rw [List.cons_append, line_cons hc, ih htail (by simpa using hlast)]
      rintro rfl hhead
      obtain rfl : d = '\n' := by simpa using hhead
      exact hpair tail rfl rfl
  | case4 => rfl

/-! ## Written lines -/

open Piece

/-- What is written behind the name of a directive, with more pieces behind its line; where
`directiveValue` starts. -/
def behindName (d : Directive) (k : List Piece) : List Char :=
  (if d.value.isEmpty then [] else ' ' :: d.value.toList) ++
    '\n' :: (Pen.past (.line d.text)).writeAll k

theorem head_text (d : Directive) : d.text.toList.head? = some '#' := by
  unfold text
  split <;> simp

theorem spell_text (d : Directive) (k : List Piece) :
    spell (.line d.text :: k) = '#' :: (d.name.toList ++ d.behindName k) := by
  rw [spell_line]
  simp only [behindName]
  generalize (Pen.past (.line d.text)).writeAll k = rest
  unfold text
  split <;> simp

theorem atHead?_behindName {d : Directive} (hname : Word.isWord d.name = true) (k : List Piece) :
    Word.atHead? ((d.name.toList ++ d.behindName k).dropWhile fun c => c == ' ' || c == '\t') =
      some (d.name, d.behindName k) := by
  have hstop : ∀ c, (d.behindName k).head? = some c → Word.isPart c = false := by
    intro c hc
    unfold behindName at hc
    split at hc
    · obtain rfl : '\n' = c := by simpa using hc
      rfl
    · obtain rfl : ' ' = c := by simpa using hc
      rfl
  obtain ⟨c, cs, hlist, hc, -⟩ := Word.isWord_iff.1 hname
  have hblank : (c == ' ' || c == '\t') = false := by
    rw [Bool.eq_false_iff]
    intro h
    rw [Bool.or_eq_true, beq_iff_eq, beq_iff_eq] at h
    obtain rfl | rfl := h <;> cases hc
  have hkeep : (d.name.toList ++ d.behindName k).dropWhile (fun c => c == ' ' || c == '\t') =
      d.name.toList ++ d.behindName k := by
    rw [hlist, List.cons_append, List.dropWhile_cons_of_neg (by simp [hblank])]
  rw [hkeep]
  exact Word.atHead?_append hname hstop

theorem nameAtHead?_spell {d : Directive} (hname : Word.isWord d.name = true) (k : List Piece) :
    nameAtHead? (spell (.line d.text :: k)) = some (d.name, d.behindName k) := by
  rw [spell_text]
  exact atHead?_behindName hname k

end Directive

namespace Parser

open Piece WhiteSpace

variable {d : Directive} {k : List Piece}

theorem directiveName_spell (hname : Word.isWord d.name = true) :
    directiveName (spell (.line d.text :: k)) = .matched d.name (d.behindName k) := by
  rw [Directive.spell_text]
  simp only [directiveName, Directive.atHead?_behindName hname]

theorem directiveValue_spell (hvalue : Directive.IsValue d.value)
    (hlast : d.value.toList.getLast? ≠ some '\\') (hk : Clean k) :
    directiveValue (d.behindName k) = .matched d.value (spell k) := by
  unfold Directive.behindName
  generalize Pen.past (.line d.text) = pen
  have hskip : Blank.skip ('\n' :: pen.writeAll k) = spell k := by
    rw [Blank.skip_space rfl, skip_writeAll pen hk]
  split
  · next hempty =>
    have hnil : d.value = "" := String.isEmpty_iff.1 hempty
    rw [List.nil_append, directiveValue, hnil]
    exact congrArg (Reply.matched "") hskip
  · have hline : Directive.line (' ' :: d.value.toList ++ '\n' :: pen.writeAll k) =
        ' ' :: d.value.toList := by
      rw [List.cons_append, Directive.line_cons (by decide) fun h => absurd h (by decide),
        Directive.line_append hvalue.oneLine hlast]
    have hvalue' : String.ofList (trim (' ' :: d.value.toList)) = d.value := by
      rw [trim_cons (by decide), hvalue.trimmed, String.ofList_toList]
    simp only [directiveValue, hline, List.drop_left, hvalue', hskip]

theorem nextMarker_spell (hname : Word.isWord d.name = true) :
    nextMarker (spell (.line d.text :: k)) =
      .matched (BranchMarker.ofKeyword? d.name) (spell (.line d.text :: k)) := by
  rw [nextMarker, Directive.nameAtHead?_spell hname]
  rfl

end Parser

end ShaderMinifier
