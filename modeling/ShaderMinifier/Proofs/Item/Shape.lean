import ShaderMinifier.Proofs.Item.Line
import ShaderMinifier.Proofs.Statement.Shape
import ShaderMinifier.Site.DirectiveWord

/-
  Which items a text can give, with the room that is needed to read them, and that their pieces
  are clean. A conditional takes one level of the room from the items of its branches. Every line
  of a conditional is written like a directive whose value is the condition, or empty.
-/

namespace ShaderMinifier

open Piece

/-- A condition that a line of a conditional can have: a value (`IsValue`) that is not empty. -/
structure Directive.IsCondition (text : String) : Prop where
  isValue : IsValue text
  nonempty : text.isEmpty = false

namespace Item

mutual

/-- The item can be read in a shader of this stage, with this room. A conditional leaves one level
less to its branches. -/
def Fits (stage : Stage) : Item → Nat → Prop
  | directive d, _ => d.name ∈ Directive.plainNames ∧ Directive.IsValue d.value
  | conditional _ condition body rest, room =>
    0 < room ∧ Directive.IsCondition condition ∧ AllFit stage body (room - 1) ∧
      BranchesFit stage rest (room - 1)
  | precision _ type, _ => Word.NamesType type
  | invariant names, _ =>
    names ≠ [] ∧ ∀ w ∈ names, Word.isWord w = true ∧ Word.isReserved w = false
  | declaration decl, room => decl.Fits room stage .topLevel
  | prototype signature, room => signature.Fits room
  | function signature body, room => signature.Fits room ∧ ∀ s ∈ body, s.Fits room

/-- All the items of a list can be read with this room (`Fits`). -/
def AllFit (stage : Stage) : List Item → Nat → Prop
  | [], _ => True
  | item :: items, room => Fits stage item room ∧ AllFit stage items room

/-- All the branches can be read with this room (`AllFit`), and their conditions are such. -/
def BranchesFit (stage : Stage) : Branches → Nat → Prop
  | .done, _ => True
  | .otherwise body, room => AllFit stage body room
  | .elif condition body rest, room =>
    Directive.IsCondition condition ∧ AllFit stage body room ∧ BranchesFit stage rest room

end

theorem allFit_iff {stage : Stage} {items : List Item} {room : Nat} :
    AllFit stage items room ↔ ∀ i ∈ items, i.Fits stage room := by
  induction items with
  | nil => simp [AllFit]
  | cons i items ih => simp [AllFit, ih]

end Item

/-! ## Lines -/

theorem ConditionalKind.text_eq (kind : ConditionalKind) {condition : String}
    (h : condition.isEmpty = false) :
    kind.text condition = (Directive.mk kind.keyword condition).text := by
  simp [ConditionalKind.text, Directive.text, h]

theorem BranchMarker.elif_text {condition : String} (h : condition.isEmpty = false) :
    "#elif " ++ condition = (Directive.mk BranchMarker.elif.keyword condition).text := by
  simp only [Directive.text, h, Bool.false_eq_true, if_false]
  rfl

/-- The `directiveText` of the event, if it has one, does not keep its line going. -/
def Event.EndsLine (e : Event) : Prop :=
  ∀ text ∈ e.directiveText, text.toList.getLast? ≠ some '\\'

namespace Branches

/-- The `#elif` branches with their conditions, as `elifBranch` reads them in a row. -/
def elifs : Branches → List (String × List Item)
  | done | otherwise _ => []
  | elif condition body rest => (condition, body) :: rest.elifs

/-- What follows the `#elif` branches: `otherwise` or `done`. -/
def last : Branches → Branches
  | done => done
  | otherwise body => otherwise body
  | elif _ _ rest => rest.last

theorem foldr_elifs (b : Branches) :
    b.elifs.foldr (fun branch rest => .elif branch.1 branch.2 rest) b.last = b := by
  fun_induction elifs b with
  | case1 => rfl
  | case2 body => rfl
  | case3 condition body rest ih => rw [last, List.foldr_cons, ih]

end Branches

/-! ## Clean pieces -/

theorem Piece.ClosedPieces.line {d : Directive} {ps : List Piece} (h : ClosedPieces ps) :
    ClosedPieces (.line d.text :: ps) :=
  fun k hk => Clean.line d.head_text (h k hk)

namespace Item

mutual

theorem closed_pieces {stage : Stage} : (i : Item) → {room : Nat} → i.Fits stage room →
    ClosedPieces i.pieces
  | directive _, _, _ => ClosedPieces.line ClosedPieces.nil
  | conditional kind condition body rest, room, h => by
    obtain ⟨-, hcondition, hbody, hrest⟩ := h
    rw [pieces, kind.text_eq hcondition.nonempty, List.cons_append]
    exact ClosedPieces.line ((closed_listPieces body hbody).append
      (closed_branchPieces rest hrest))
  | precision level type, room, h => by
    have htype : Word.NamesType type := h
    exact ClosedPieces.word (by decide) (ClosedPieces.word level.isWordLike
      (ClosedPieces.word htype.isWordLike (ClosedPieces.firm (by decide) ClosedPieces.nil)))
  | invariant names, room, h => by
    rw [pieces, List.cons_append]
    refine ClosedPieces.word (by decide) (ClosedPieces.ofClean ?_ (by decide)
      (ClosedPieces.firm (by decide) ClosedPieces.nil))
    refine CleanPieces.commaSeparated fun ps hps => ?_
    obtain ⟨w, hw, rfl⟩ := List.mem_map.1 hps
    have hword := Word.isWordLike_of_isWord (h.2 w hw).1
    exact (ClosedPieces.word hword ClosedPieces.nil).cleanPieces
  | declaration decl, room, h => Declaration.closed_pieces h
  | prototype signature, room, h =>
    (Prototype.closed_pieces h).append (ClosedPieces.firm (by decide) ClosedPieces.nil)
  | function signature body, room, h => by
    have hblock : (Statement.block body).Fits (room + 1) :=
      ⟨by omega, Statement.allFit_iff.2 h.2⟩
    exact (Prototype.closed_pieces h.1).append (Statement.closed_pieces hblock)

theorem closed_listPieces {stage : Stage} : (items : List Item) → {room : Nat} →
    AllFit stage items room → ClosedPieces (listPieces items)
  | [], _, _ => ClosedPieces.nil
  | i :: items, _, h => (closed_pieces i h.1).append (closed_listPieces items h.2)

theorem closed_branchPieces {stage : Stage} : (b : Branches) → {room : Nat} →
    BranchesFit stage b room → ClosedPieces (branchPieces b)
  | .done, _, _ => ClosedPieces.line (d := ⟨"endif", ""⟩) ClosedPieces.nil
  | .otherwise body, _, h => by
    rw [branchPieces]
    exact ClosedPieces.line (d := ⟨"else", ""⟩) ((closed_listPieces body h).append
      (ClosedPieces.line (d := ⟨"endif", ""⟩) ClosedPieces.nil))
  | .elif condition body rest, _, h => by
    rw [branchPieces, BranchMarker.elif_text h.1.nonempty]
    exact ClosedPieces.line ((closed_listPieces body h.2.1).append
      (closed_branchPieces rest h.2.2))

end

end Item

end ShaderMinifier
