import Mathlib
import ShaderMinifier.Text.Location

/-
  Places in a text. An offset is a place between two characters exactly if it is the number of bytes
  of a beginning of the text; its line and its column then count the line feeds of that beginning
  and the characters behind the last of them. Going on by a character goes on to the next column or
  to the next line, so no two places have one line and one column.
-/

namespace ShaderMinifier

/-! ## Bytes -/

@[simp] theorem byteLength_nil : byteLength [] = 0 := rfl

@[simp] theorem byteLength_cons (c : Char) (text : List Char) :
    byteLength (c :: text) = c.utf8Size + byteLength text := rfl

@[simp] theorem byteLength_append (s t : List Char) :
    byteLength (s ++ t) = byteLength s + byteLength t := by
  induction s with
  | nil => simp
  | cons c s ih => rw [List.cons_append, byteLength_cons, byteLength_cons, ih, Nat.add_assoc]

theorem byteLength_toList (text : String) : byteLength text.toList = text.utf8ByteSize := by
  have hlist : ∀ s : List Char, byteLength s = (String.ofList s).utf8ByteSize := by
    intro s
    induction s with
    | nil => rfl
    | cons c s ih =>
      rw [byteLength_cons, ih, String.ofList_cons, String.utf8ByteSize_append,
        String.utf8ByteSize_singleton]
  rw [hlist, String.ofList_toList]

theorem takeBytes_append (before after : List Char) :
    takeBytes (byteLength before) (before ++ after) = before := by
  induction before with
  | nil =>
    cases after with
    | nil => rfl
    | cons c after =>
      have hpos := c.utf8Size_pos
      rw [byteLength_nil, List.nil_append, takeBytes, if_neg (by omega)]
  | cons c before ih =>
    rw [byteLength_cons, List.cons_append, takeBytes, if_pos (Nat.le_add_right _ _),
      Nat.add_sub_cancel_left, ih]

/-- The valid byte positions of a string (`String.Pos.Raw.IsValid`), that is the places between
characters, are the ends of the beginnings of the text. -/
theorem isValid_iff {source : String} {position : Nat} :
    (String.Pos.Raw.mk position).IsValid source ↔
      ∃ before after, source.toList = before ++ after ∧ position = byteLength before := by
  rw [String.Pos.Raw.isValid_iff_exists_append]
  constructor
  · rintro ⟨before, after, rfl, hposition⟩
    refine ⟨before.toList, after.toList, String.toList_append, ?_⟩
    rw [byteLength_toList]
    exact congrArg String.Pos.Raw.byteIdx hposition
  · rintro ⟨before, after, hsource, rfl⟩
    refine ⟨String.ofList before, String.ofList after, ?_, ?_⟩
    · rw [← String.ofList_append, ← hsource, String.ofList_toList]
    · rw [String.rawEndPos, ← byteLength_toList, String.toList_ofList]

/-! ## Lines and columns -/

namespace Location

/-- Whole lines: nothing, or a text that ends with a line feed. What stands before the current line
in `PlaceOf`. -/
def WholeLines (text : List Char) : Prop := text = [] ∨ ∃ lines, text = lines ++ ['\n']

/-- The place between two characters of `source`: behind whole lines and behind `current` on its own
line. This is what a `Location` should be, without `Location.after`. -/
inductive PlaceOf (source : List Char) : Location → Prop
  | between {lines current after : List Char} (hsource : source = lines ++ current ++ after)
      (hlines : WholeLines lines) (hcurrent : '\n' ∉ current) :
    PlaceOf source ⟨byteLength (lines ++ current), lines.count '\n' + 1, current.length + 1⟩

theorem exists_lines (before : List Char) :
    ∃ lines current, before = lines ++ current ∧ WholeLines lines ∧ '\n' ∉ current := by
  induction before using List.reverseRecOn with
  | nil => exact ⟨[], [], rfl, .inl rfl, by simp⟩
  | append_singleton before c ih =>
    by_cases hc : c = '\n'
    · exact ⟨before ++ [c], [], by simp, .inr ⟨before, by rw [hc]⟩, by simp⟩
    · obtain ⟨lines, current, rfl, hlines, hcurrent⟩ := ih
      refine ⟨lines, current ++ [c], by simp, hlines, ?_⟩
      simpa using ⟨hcurrent, Ne.symm hc⟩

theorem after_append {lines current : List Char} (hlines : WholeLines lines)
    (hcurrent : '\n' ∉ current) :
    after (lines ++ current) =
      ⟨byteLength (lines ++ current), lines.count '\n' + 1, current.length + 1⟩ := by
  have hcount : (lines ++ current).count '\n' = lines.count '\n' := by
    rw [List.count_append, List.count_eq_zero.2 hcurrent, Nat.add_zero]
  have hcolumn : (lines ++ current).reverse.takeWhile (· != '\n') = current.reverse := by
    have hall : ∀ c ∈ current.reverse, (c != '\n') = true := by
      intro c hc
      rw [bne_iff_ne]
      rintro rfl
      exact hcurrent (List.mem_reverse.1 hc)
    rw [List.reverse_append, List.takeWhile_append_of_pos hall]
    obtain rfl | ⟨lines, rfl⟩ := hlines <;> simp
  rw [after, hcount, hcolumn, List.length_reverse]

theorem placeOf_after {source before rest : List Char} (h : source = before ++ rest) :
    PlaceOf source (after before) := by
  obtain ⟨lines, current, rfl, hlines, hcurrent⟩ := exists_lines before
  rw [after_append hlines hcurrent]
  exact .between h hlines hcurrent

/-! ## Their order -/

/-- The line and the column of a `Location`, compared in this order. -/
def lineColumn (location : Location) : ℕ ×ₗ ℕ := toLex (location.line, location.column)

/-- One more character goes on to the next column or to the next line, so `lineColumn` grows. -/
theorem lineColumn_lt_step (before : List Char) (c : Char) :
    (after before).lineColumn < (after (before ++ [c])).lineColumn := by
  rw [lineColumn, lineColumn, Prod.Lex.toLex_lt_toLex]
  by_cases hc : c = '\n'
  · exact .inl (by simp [after, hc])
  · exact .inr (by simp [after, hc])

theorem lineColumn_lt (before : List Char) {more : List Char} (hmore : more ≠ []) :
    (after before).lineColumn < (after (before ++ more)).lineColumn := by
  induction more using List.reverseRecOn with
  | nil => exact absurd rfl hmore
  | append_singleton more c ih =>
    have hstep := lineColumn_lt_step (before ++ more) c
    rw [List.append_assoc] at hstep
    by_cases hnil : more = []
    · subst hnil
      simpa using hstep
    · exact (ih hnil).trans hstep

end Location

namespace SyntaxError

theorem location_ofOffset {source : String} {before rest : List Char}
    (h : source.toList = before ++ rest) (message : String) :
    (ofOffset source (byteLength before) message).location = Location.after before := by
  rw [ofOffset, h, takeBytes_append]

/-- Of two places the later one has the larger line, or on the same line the larger column:
`lineColumn` of the location of `ofOffset` is strictly monotone on valid positions. -/
theorem strictMonoOn_lineColumn (source : String) (message : String) :
    StrictMonoOn (fun position => (ofOffset source position message).location.lineColumn)
      {position | (String.Pos.Raw.mk position).IsValid source} := by
  intro p hp q hq hlt
  obtain ⟨before, rest, hbefore, rfl⟩ := isValid_iff.1 hp
  obtain ⟨longer, rest', hlonger, rfl⟩ := isValid_iff.1 hq
  dsimp only
  rw [location_ofOffset hbefore, location_ofOffset hlonger]
  -- of two beginnings of one text the one with fewer bytes is the beginning of the other
  rcases List.append_eq_append_iff.1 (hbefore.symm.trans hlonger) with
    ⟨more, rfl, -⟩ | ⟨more, rfl, -⟩
  · refine Location.lineColumn_lt before ?_
    rintro rfl
    simp at hlt
  · rw [byteLength_append] at hlt
    omega

end SyntaxError

end ShaderMinifier
