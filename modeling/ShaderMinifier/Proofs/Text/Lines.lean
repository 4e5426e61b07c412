import ShaderMinifier.Proofs.Text.Clean

/-
  Taking the lines of directives out of a text. `withoutLines?` is a function of texts alone: it is
  told the lines that stand in the text, finds each at the next hash and drops it with its line
  feed. On the text of pieces it finds the lines among the pieces (`withoutLines?_writeAll`), and
  what it leaves is written piece by piece (`Pen.writeCode`), with what stood behind every lexeme
  still behind it (`head_writeCode`).
-/

namespace ShaderMinifier

/-- `withoutLines? lines text` is the `text` without the `lines`, each of which starts at the next
hash and is dropped with its line feed. There is no such text where one of the `lines` is missing or
a hash is left over. -/
def withoutLines? : List String → List Char → Option (List Char)
  | [], text => if '#' ∈ text then none else some text
  | line :: lines, text => do
    let rest ← (text.dropWhile (· != '#')).dropPrefix? (line.toList ++ ['\n'])
    let code ← withoutLines? lines rest
    some (text.takeWhile (· != '#') ++ code)

theorem withoutLines?_append {front : List Char} (h : '#' ∉ front) (lines : List String)
    (text : List Char) :
    withoutLines? lines (front ++ text) = (withoutLines? lines text).map (front ++ ·) := by
  cases lines with
  | nil => by_cases htext : '#' ∈ text <;> simp [withoutLines?, h, htext]
  | cons line lines =>
    have hfront : ∀ c ∈ front, (c != '#') = true := by
      intro c hc
      rw [bne_iff_ne]
      rintro rfl
      exact h hc
    rw [withoutLines?, withoutLines?, List.dropWhile_append_of_pos hfront,
      List.takeWhile_append_of_pos hfront]
    simp [Option.map_bind]

theorem withoutLines?_cons {line : String} (h : line.toList.head? = some '#')
    (lines : List String) (text : List Char) :
    withoutLines? (line :: lines) (line.toList ++ '\n' :: text) = withoutLines? lines text := by
  obtain ⟨cs, hcs⟩ := List.head?_eq_some_iff.1 h
  have hdrop : (line.toList ++ '\n' :: text).dropWhile (· != '#') =
      (line.toList ++ ['\n']) ++ text := by simp [hcs]
  have htake : (line.toList ++ '\n' :: text).takeWhile (· != '#') = [] := by simp [hcs]
  rw [withoutLines?, hdrop, htake, List.dropPrefix?_append_of_beq _ (beq_self_eq_true _)]
  simp

example : withoutLines? ["#define A"] "x;\n#define A\ny;".toList = some "x;\ny;".toList := by
  decide +kernel

example : withoutLines? ["#define A"] "x;\n#if A\ny;".toList = none := by decide +kernel

namespace Piece

/-- The text of a directive's line, `none` for the lexemes that `Piece.token` and `Piece.number`
are. -/
def line? : Piece → Option String
  | line text => some text
  | token _ | number _ => none

theorem eq_line {p : Piece} {text : String} (h : p.line? = some text) : p = .line text := by
  cases p with
  | token t => cases h
  | number t => cases h
  | line t => rw [Option.some.inj h]

/-- The texts of the directives' lines among pieces, in order, as `line?` has them. -/
def lines (pieces : List Piece) : List String := pieces.filterMap line?

@[simp] theorem lines_nil : lines [] = [] := rfl

@[simp] theorem lines_line (text : String) (ps : List Piece) :
    lines (.line text :: ps) = text :: lines ps := rfl

@[simp] theorem lines_append (ps qs : List Piece) : lines (ps ++ qs) = lines ps ++ lines qs :=
  List.filterMap_append

/-- A piece other than a directive's line (`line?`) holds no hash and no line feed. -/
def InLine (p : Piece) : Prop := p.line? = none → ∀ c ∈ p.text.toList, c ≠ '#' ∧ c ≠ '\n'

end Piece

open Piece

namespace Pen

/-- The characters that a piece adds to the code: those of `write`, and of a directive's line only
what stands before it. -/
def code (pen : Pen) (p : Piece) : List Char :=
  match p.line? with
  | none => pen.write p
  | some _ => pen.lineStart

/-- The characters that pieces add, the directives' lines among them apart: `writeAll` with `code`
in place of `write`. -/
def writeCode (pen : Pen) : List Piece → List Char
  | [] => []
  | piece :: pieces => pen.code piece ++ (pen.after piece).writeCode pieces

theorem write_lexeme (pen : Pen) {p : Piece} (hline : p.line? = none) :
    pen.write p = pen.lead p ++ p.text.toList := by
  rw [write_eq_lead, start_write]
  cases p with
  | token t => rw [ending, List.append_nil]
  | number t => rw [ending, List.append_nil]
  | line t => cases hline

theorem hash_not_mem_write {pen : Pen} {p : Piece} (hp : p.InLine) (hline : p.line? = none) :
    '#' ∉ pen.write p := by
  rw [write_lexeme pen hline, List.mem_append]
  rintro (hlead | htext)
  · cases isSpace_of_mem_lead hlead
  · exact (hp hline '#' htext).1 rfl

/-- `withoutLines?` finds in the text of pieces the directives' lines among them and leaves what
`writeCode` writes. -/
theorem withoutLines?_writeAll {ps : List Piece} (hclean : Clean ps) (hps : ∀ p ∈ ps, p.InLine)
    (pen : Pen) : withoutLines? (lines ps) (pen.writeAll ps) = some (pen.writeCode ps) := by
  induction ps generalizing pen with
  | nil => simp [withoutLines?, writeAll, writeCode]
  | cons p ps ih =>
    have ih := ih hclean.tail (fun q hq => hps q (by simp [hq])) (pen.after p)
    have hcode : '#' ∉ pen.code p := by
      unfold code
      split
      · next hline => exact hash_not_mem_write (hps p (by simp)) hline
      · intro hmem
        cases isSpace_of_mem_lead (p := .line "") hmem
    cases hline : p.line? with
    | none =>
      have hlines : lines (p :: ps) = lines ps := by simp [lines, hline]
      rw [hlines, writeAll, withoutLines?_append (by simpa [code, hline] using hcode), ih,
        writeCode, code, hline, Option.map_some]
    | some text =>
      obtain rfl := eq_line hline
      have htext : text.toList.head? = some '#' := by simpa [isLexeme] using hclean.head
      rw [lines_line, writeAll, write, List.append_assoc, List.append_assoc,
        withoutLines?_append (by simpa [code, line?] using hcode), List.singleton_append,
        withoutLines?_cons htext, ih, writeCode, code, line?, Option.map_some]

theorem lineStart_past {p : Piece} (hlex : p.isLexeme = true) (hp : p.InLine)
    (hline : p.line? = none) : (past p).lineStart = ['\n'] := by
  have hne : p.text.toList ≠ [] := by
    obtain ⟨c, cs, htext⟩ := text_ne_nil hlex
    simp [htext]
  have hlast : (past p).last = some (p.text.toList.getLast hne) := by
    rw [past_last hlex, write_lexeme start hline, List.getLast?_append_of_ne_nil _ hne,
      List.getLast?_eq_some_getLast hne]
  have hfeed := (hp hline _ (List.getLast_mem hne)).2
  unfold lineStart
  split
  · next hnone => simp [hlast] at hnone
  · next hsome => exact absurd (Option.some.inj (hlast.symm.trans hsome)) hfeed
  · rfl

/-- What stands directly behind a lexeme in the text of pieces stays there in `writeCode`, since a
line that follows the lexeme leaves the line feed before it. -/
theorem head_writeCode {p : Piece} {k : List Piece} (hk : Clean (p :: k)) (hp : p.InLine)
    (hline : p.line? = none) :
    ((past p).writeCode k).head? = ((past p).writeAll k).head? := by
  cases k with
  | nil => rfl
  | cons q k =>
    have hwrite : (past p).write q ≠ [] := by
      rw [write_eq_lead]
      exact List.append_ne_nil_of_right_ne_nil _ (start_write_ne_nil hk.tail.head)
    rw [writeAll, List.head?_append_of_ne_nil _ hwrite, writeCode, code]
    split
    · rw [List.head?_append_of_ne_nil _ hwrite]
    · next text hq =>
      obtain rfl := eq_line hq
      simp [write, lineStart_past hk.head hp hline]

end Pen

end ShaderMinifier
