import ShaderMinifier.Declaration.Parser
import ShaderMinifier.Declaration.Printer
import ShaderMinifier.Proofs.Expr.Parsed

/-
  Which types, declarations and signatures a text can give, with the room that is needed to read
  them, and that their pieces are clean.
-/

namespace ShaderMinifier

open Piece

/-! ## What fits into room -/

/-- The size of an array, if there is one, `Fits` where a conditional expression may stand. -/
def Expr.SizeFits (room : Nat) (size : Option Expr) : Prop :=
  ∀ e ∈ size, e.Fits room .conditional

/-- An initial value, if there is one, is `WellFormed` and fits where commas are not allowed
(`assignmentDepth`). -/
def Expr.ValueFits (room : Nat) (value : Option Expr) : Prop :=
  ∀ e ∈ value, e.WellFormed ∧ e.assignmentDepth ≤ room

structure MemberDeclarator.Fits (room : Nat) (d : MemberDeclarator) : Prop where
  name : Word.Declarable d.name
  size : Expr.SizeFits room d.size

structure Member.Fits (room : Nat) (m : Member) : Prop where
  type : Word.NamesType m.type
  nonempty : m.declarators ≠ []
  declarators : ∀ d ∈ m.declarators, d.Fits room

structure StructType.Fits (room : Nat) (s : StructType) : Prop where
  name : ∀ w ∈ s.name, Word.Declarable w
  nonempty : s.members ≠ []
  members : ∀ m ∈ s.members, m.Fits room

def TypeSpecifier.Fits (room : Nat) : TypeSpecifier → Prop
  | named name => Word.NamesType name
  | struct spec => spec.Fits room

def ArraySize.Fits (room : Nat) : ArraySize → Prop
  | unsized => True
  | sized size => size.Fits room .conditional

structure Declarator.Fits (room : Nat) (d : Declarator) : Prop where
  name : Word.Declarable d.name
  array : ∀ a ∈ d.array, a.Fits room
  initializer : Expr.ValueFits room d.initializer

/-- The declaration can stand at its place: its parts fit the room, it declares something, and
`Declaration.fault?` has nothing against it. -/
structure Declaration.Fits (room : Nat) (stage : Stage) (placement : Placement)
    (d : Declaration) : Prop where
  type : d.type.specifier.Fits room
  declarators : ∀ x ∈ d.declarators, x.Fits room
  bare : d.declarators = [] → d.type.specifier.isStruct = true
  allowed : d.fault? stage placement = none

structure Parameter.Fits (room : Nat) (p : Parameter) : Prop where
  direction : p.isConst = true → p.direction ≠ some .output ∧ p.direction ≠ some .both
  type : Word.NamesType p.type
  notVoid : p.type ≠ "void"
  name : ∀ w ∈ p.name, Word.Declarable w
  size : Expr.SizeFits room p.size

structure Prototype.Fits (room : Nat) (p : Prototype) : Prop where
  type : p.returnType.specifier.Fits room
  unqualified : p.returnType.qualifier = none
  name : Word.Declarable p.name
  params : ∀ x ∈ p.params, x.Fits room

/-! ## What is allowed where -/

/-- What `Declaration.fault?` asks of a declaration at its place, as conditions on the type and on
each variable by itself. -/
structure Declaration.Allowed (stage : Stage) (placement : Placement) (decl : Declaration) :
    Prop where
  notVoid : decl.declarators ≠ [] → decl.type.specifier.isVoid = false
  unlinkedLocal : placement = .inBody → ∀ q ∈ decl.type.qualifier, q = .const
  attributeType : decl.type.qualifier = some .vertexAttribute →
    stage = .vertex ∧ decl.type.specifier.isStruct = false
  plainAttribute : decl.type.qualifier = some .vertexAttribute →
    ∀ d ∈ decl.declarators, d.initializer = none ∧ d.array = none

theorem Declaration.fault?_eq_none {stage : Stage} {placement : Placement}
    {decl : Declaration} :
    decl.fault? stage placement = none ↔ decl.Allowed stage placement := by
  have hvoid : (decl.type.specifier.isVoid && !decl.declarators.isEmpty) = true ↔
      ¬ (decl.declarators ≠ [] → decl.type.specifier.isVoid = false) := by
    cases decl.declarators <;> simp
  unfold fault?
  rw [if_congr hvoid rfl rfl]
  by_cases hnotVoid : decl.declarators ≠ [] → decl.type.specifier.isVoid = false
  · rw [if_neg (not_not.2 hnotVoid)]
    split
    · rename_i hq
      exact ⟨fun _ => ⟨hnotVoid, by simp [hq], by simp [hq], by simp [hq]⟩, fun _ => rfl⟩
    · rename_i hq
      exact ⟨fun _ => ⟨hnotVoid, by simp [hq], by simp [hq], by simp [hq]⟩, fun _ => rfl⟩
    · rename_i q hconst hq
      refine ⟨fun h => absurd h (by simp), fun h => ?_⟩
      exact absurd (h.unlinkedLocal rfl q hq) (by simpa using hconst)
    · rename_i hq
      constructor
      · intro h
        repeat
          split at h
          · cases h
        rename_i hstage hinitializer harray hstruct
        refine ⟨hnotVoid, Placement.noConfusion, fun _ => ?_, fun _ d hd => ?_⟩
        · exact ⟨not_not.1 hstage, by simpa using hstruct⟩
        · simp only [List.any_eq_true, not_exists, not_and] at hinitializer harray
          exact ⟨by simpa using hinitializer d hd, by simpa using harray d hd⟩
      · intro h
        obtain ⟨hstage, hstruct⟩ := h.attributeType hq
        have hinitializer : ¬ decl.declarators.any (·.initializer.isSome) = true := by
          simpa using fun d hd => (h.plainAttribute hq d hd).1
        have harray : ¬ decl.declarators.any (·.array.isSome) = true := by
          simpa using fun d hd => (h.plainAttribute hq d hd).2
        rw [if_neg (not_not.2 hstage), if_neg hinitializer, if_neg harray, hstruct]
        rfl
    · rename_i q hconst hattribute hq
      have hne : decl.type.qualifier ≠ some .vertexAttribute := by
        rw [hq]
        simpa using hattribute
      exact ⟨fun _ => ⟨hnotVoid, Placement.noConfusion, fun h => absurd h hne,
        fun h => absurd h hne⟩, fun _ => rfl⟩
  · rw [if_pos hnotVoid]
    exact ⟨fun h => absurd h (by simp), fun h => absurd h.notVoid hnotVoid⟩
/-! ## Clean pieces -/

theorem Piece.closed_ofOption {w : Option String} (hw : ∀ v ∈ w, Word.isWordLike v = true) :
    ClosedPieces (Piece.ofOption w) := by
  cases w with
  | none => exact ClosedPieces.nil
  | some v => exact ClosedPieces.word (hw v rfl) ClosedPieces.nil

theorem Precision.isWordLike (p : Precision) : Word.isWordLike p.keyword = true := by
  cases p <;> decide

theorem TypeQualifier.isWordLike (q : TypeQualifier) : Word.isWordLike q.text = true := by
  cases q <;> decide

theorem Direction.isWordLike (d : Direction) : Word.isWordLike d.keyword = true := by
  cases d <;> decide

theorem Precision.closed_option (p : Option Precision) :
    ClosedPieces (Piece.ofOption (p.map Precision.keyword)) := by
  refine Piece.closed_ofOption fun v hv => ?_
  obtain ⟨q, -, rfl⟩ := Option.map_eq_some_iff.1 hv
  exact q.isWordLike

theorem Expr.closed_sizePieces {room : Nat} {size : Expr} (h : size.Fits room .conditional) :
    ClosedPieces size.sizePieces := by
  rw [Expr.sizePieces, List.cons_append]
  exact ClosedPieces.firm (by decide) (ClosedPieces.ofClean (Expr.clean_piecesAt h.1 _)
    (by decide) (ClosedPieces.firm (by decide) ClosedPieces.nil))

theorem Expr.closed_optionalSizePieces {room : Nat} {size : Option Expr}
    (h : Expr.SizeFits room size) : ClosedPieces (Expr.optionalSizePieces size) := by
  cases size with
  | none => exact ClosedPieces.nil
  | some e => exact Expr.closed_sizePieces (h e rfl)

theorem MemberDeclarator.closed_pieces {room : Nat} {d : MemberDeclarator} (h : d.Fits room) :
    ClosedPieces d.pieces :=
  ClosedPieces.word h.name.isWordLike (Expr.closed_optionalSizePieces h.size)

theorem Member.closed_pieces {room : Nat} {m : Member} (h : m.Fits room) :
    ClosedPieces m.pieces := by
  rw [Member.pieces, List.append_assoc]
  refine (Precision.closed_option m.precision).append (ClosedPieces.word h.type.isWordLike ?_)
  refine ClosedPieces.ofClean (CleanPieces.commaSeparated fun ps hps => ?_) (by decide)
    (ClosedPieces.firm (by decide) ClosedPieces.nil)
  obtain ⟨d, hd, rfl⟩ := List.mem_map.1 hps
  exact (MemberDeclarator.closed_pieces (h.declarators d hd)).cleanPieces

theorem StructType.closed_pieces {room : Nat} {s : StructType} (h : s.Fits room) :
    ClosedPieces s.pieces := by
  rw [StructType.pieces, List.cons_append]
  refine ClosedPieces.word (by decide) (ClosedPieces.append ?_ ?_)
  · exact Piece.closed_ofOption fun v hv => (h.name v hv).isWordLike
  · refine ClosedPieces.firm (by decide) (ClosedPieces.append ?_ ?_)
    · exact ClosedPieces.flatMap fun m hm => Member.closed_pieces (h.members m hm)
    · exact ClosedPieces.firm (by decide) ClosedPieces.nil

theorem TypeSpecifier.closed_pieces {room : Nat} {t : TypeSpecifier} (h : t.Fits room) :
    ClosedPieces t.pieces := by
  cases t with
  | named name => exact ClosedPieces.word (Word.NamesType.isWordLike h) ClosedPieces.nil
  | struct spec => exact StructType.closed_pieces h

theorem QualifiedType.closed_pieces {room : Nat} {t : QualifiedType}
    (h : t.specifier.Fits room) : ClosedPieces t.pieces := by
  refine (ClosedPieces.append ?_ (Precision.closed_option t.precision)).append
    (TypeSpecifier.closed_pieces h)
  refine Piece.closed_ofOption fun v hv => ?_
  obtain ⟨q, -, rfl⟩ := Option.map_eq_some_iff.1 hv
  exact q.isWordLike

theorem ArraySize.closed_pieces {room : Nat} {a : ArraySize} (h : a.Fits room) :
    ClosedPieces a.pieces := by
  cases a with
  | unsized =>
    exact ClosedPieces.firm (by decide) (ClosedPieces.firm (by decide) ClosedPieces.nil)
  | sized size => exact Expr.closed_sizePieces h

theorem Declarator.clean_pieces {room : Nat} {d : Declarator} (h : d.Fits room) :
    CleanPieces d.pieces := by
  intro k hk hb
  rw [Declarator.pieces, List.cons_append, List.cons_append, List.append_assoc]
  refine Clean.word h.name.isWordLike ?_
  have hvalue : Clean ((d.initializer.map Declarator.valuePieces).getD [] ++ k) := by
    cases hd : d.initializer with
    | none => exact hk
    | some e =>
      obtain ⟨hwf, -⟩ := h.initializer e hd
      exact Clean.before_start (by decide) (Expr.clean_piecesAt hwf _ k hk hb)
        (Expr.starts_piecesAt hwf _ hb.headWord?)
  cases hd : d.array with
  | none => exact hvalue
  | some a => exact ArraySize.closed_pieces (h.array a hd) _ hvalue

theorem Declaration.closed_pieces {room : Nat} {stage : Stage} {placement : Placement}
    {d : Declaration} (h : d.Fits room stage placement) : ClosedPieces d.pieces := by
  rw [Declaration.pieces, List.append_assoc]
  refine (QualifiedType.closed_pieces h.type).append
    (ClosedPieces.ofClean (CleanPieces.commaSeparated fun ps hps => ?_) (by decide)
      (ClosedPieces.firm (by decide) ClosedPieces.nil))
  obtain ⟨x, hx, rfl⟩ := List.mem_map.1 hps
  exact Declarator.clean_pieces (h.declarators x hx)

theorem Parameter.closed_pieces {room : Nat} {p : Parameter} (h : p.Fits room) :
    ClosedPieces p.pieces := by
  have hconst : ClosedPieces (if p.isConst then [.token "const"] else []) := by
    split
    · exact ClosedPieces.word (by decide) ClosedPieces.nil
    · exact ClosedPieces.nil
  have hdirection : ClosedPieces (Piece.ofOption (p.direction.map Direction.keyword)) := by
    refine Piece.closed_ofOption fun v hv => ?_
    obtain ⟨d, -, rfl⟩ := Option.map_eq_some_iff.1 hv
    exact d.isWordLike
  have hname : ClosedPieces (Piece.ofOption p.name) :=
    Piece.closed_ofOption fun v hv => (h.name v hv).isWordLike
  exact (((hconst.append hdirection).append (Precision.closed_option p.precision)).append
    (ClosedPieces.word h.type.isWordLike hname)).append (Expr.closed_optionalSizePieces h.size)

theorem Prototype.closed_pieces {room : Nat} {p : Prototype} (h : p.Fits room) :
    ClosedPieces p.pieces := by
  refine (QualifiedType.closed_pieces h.type).append (ClosedPieces.word h.name.isWordLike ?_)
  rw [Piece.parenthesized, List.cons_append]
  refine ClosedPieces.firm (by decide) (ClosedPieces.ofClean
    (CleanPieces.commaSeparated fun ps hps => ?_) (by decide)
    (ClosedPieces.firm (by decide) ClosedPieces.nil))
  obtain ⟨x, hx, rfl⟩ := List.mem_map.1 hps
  exact (Parameter.closed_pieces (h.params x hx)).cleanPieces

end ShaderMinifier
