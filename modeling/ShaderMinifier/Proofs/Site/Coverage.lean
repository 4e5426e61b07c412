import ShaderMinifier.Proofs.Gates
import ShaderMinifier.Proofs.Item.Merge
import ShaderMinifier.Proofs.Site.Relabel
import ShaderMinifier.Proofs.Text.Words

/-
  No name that is written is missed on the way through a shader. Printing and walking are two
  recursions over the same tree, in orders of their own: a declared name is written before the sizes
  and the value of its declarator and met behind them. So the names are compared as multisets, part
  by part (`names_pieces`), and for a shader that was read they are the names among the words that
  `emit` writes (`names_of_parse`). The lines of directives are taken out of the text before it is
  cut into words, as what they hold is no part of the tree (`directiveLines`, `withoutLines?`). A
  field may be called like a keyword that is no type; where one is, it is met and cannot be told
  from a keyword in the text.
-/

namespace ShaderMinifier

open Piece

/-! ## The names of events and of pieces -/

namespace Event

/-- The names at the sites among events (`siteNames`), whatever their order. -/
def bag (es : List Event) : Multiset String := siteNames es

@[simp] theorem bag_append (es fs : List Event) : bag (es ++ fs) = bag es + bag fs := by
  simp [bag, ← Multiset.coe_add]

@[simp] theorem bag_name (role : Role) (name : String) (es : List Event) :
    bag (.name role name :: es) = {name} + bag es := rfl

theorem bag_other {e : Event} (he : e.site? = none) (es : List Event) : bag (e :: es) = bag es := by
  rw [bag, siteNames_other he, bag]

@[simp] theorem bag_inScope (kind : ScopeKind) (es : List Event) :
    bag (inScope kind es) = bag es := by
  simp [bag]

end Event

open Event

namespace Piece.Names

variable {ps qs : List Piece} {names others : Multiset String}

theorem of_eq (h : Names ps names) (heq : names = others) : Names ps others := heq ▸ h

theorem append (h : Names ps names) (h' : Names qs others) : Names (ps ++ qs) (names + others) := by
  induction h with
  | nil => simpa using h'
  | symbol ht hpoint _ ih => exact .symbol ht hpoint ih
  | keyword hw hkeyword _ ih => exact .keyword hw hkeyword ih
  | invariantVarying _ ih => exact .invariantVarying ih
  | word hw _ ih => exact (Names.word hw ih).of_eq (add_assoc _ _ _).symm
  | field hw _ ih => exact (Names.field hw ih).of_eq (add_assoc _ _ _).symm
  | float hf _ ih => exact .float hf ih
  | int value _ ih => exact .int value ih

theorem behind (h : Names ps names) (h' : Names qs 0) : Names (qs ++ ps) names :=
  (h'.append h).of_eq (zero_add _)

theorem ended (h : Names ps names) {t : String} (ht : t ∈ Symbol.all) (hpoint : t ≠ ".") :
    Names (ps ++ [Piece.token t]) names :=
  (h.append (.symbol ht hpoint .nil)).of_eq (add_zero _)

/-- A word that is no name, such as a qualifier, and that may be missing (`Piece.ofOption`) writes
no name. -/
theorem ofOption {α : Type} {text : α → String} (h : ∀ x, Names [.token (text x)] 0)
    (x : Option α) : Names (Piece.ofOption (x.map text)) 0 := by
  cases x with
  | none => exact .nil
  | some x => exact h x

theorem parenthesized (h : Names ps names) : Names (Piece.parenthesized ps) names :=
  .symbol (by decide) (by decide) (h.ended (by decide) (by decide))

theorem flatMap {α : Type} {pieces : α → List Piece} {events : α → List Event} {xs : List α}
    (h : ∀ x ∈ xs, Names (pieces x) (bag (events x))) :
    Names (xs.flatMap pieces) (bag (xs.flatMap events)) := by
  induction xs with
  | nil => exact .nil
  | cons x xs ih =>
    rw [List.flatMap_cons, List.flatMap_cons, bag_append]
    exact (h x (by simp)).append (ih fun y hy => h y (by simp [hy]))

theorem commaSeparated {α : Type} {pieces : α → List Piece} {events : α → List Event} {xs : List α}
    (h : ∀ x ∈ xs, Names (pieces x) (bag (events x))) :
    Names (Piece.commaSeparated (xs.map pieces)) (bag (xs.flatMap events)) := by
  induction xs with
  | nil => exact .nil
  | cons x xs ih =>
    have htail := ih fun y hy => h y (by simp [hy])
    rw [List.map_cons, List.flatMap_cons, bag_append]
    cases xs with
    | nil => exact (h x (by simp)).of_eq (add_zero _).symm
    | cons y ys =>
      rw [commaSeparated_cons _ (by simp)]
      exact (h x (by simp)).append (.symbol (by decide) (by decide) htail)

end Piece.Names

/-! ## Fields that are no keywords -/

/-- No field that is selected inside the part, at any depth of `children`, is a reserved word. -/
def Part.Plain (part : Part) : Prop :=
  ∀ base name, Relation.ReflTransGen (fun parent child => child ∈ parent.children) part
    (.expression (.field base name)) → Word.isReserved name = false

theorem Part.Plain.child {part child : Part} (h : part.Plain) (hc : child ∈ part.children) :
    child.Plain :=
  fun base name hpath => h base name (hpath.head hc)

theorem Part.Plain.of_children {part : Part}
    (hself : ∀ base name, part = .expression (.field base name) → Word.isReserved name = false)
    (h : ∀ child ∈ part.children, child.Plain) : part.Plain := by
  intro base name hpath
  rcases hpath.cases_head with heq | ⟨child, hchild, hpath⟩
  · exact hself base name heq
  · exact h child hchild base name hpath

theorem Part.plain_leaf {e : Expr} (h : e.operands = []) : (Part.expression e).Plain := by
  refine .of_children (fun base name heq => ?_) (by simp [children, h])
  cases heq
  cases h

/-! ## Expressions -/

namespace Expr

/-- The expression is one that a text can give (`WellFormed`), and no field in it is a reserved
word. -/
structure Plain (e : Expr) : Prop where
  wellFormed : e.WellFormed
  fields : (Part.expression e).Plain

theorem Plain.operand {e x : Expr} (h : e.Plain) (hx : x ∈ e.operands) : x.Plain :=
  ⟨Part.fits_operand h.wellFormed hx, h.fields.child (List.mem_map_of_mem hx)⟩

theorem names_slotted {least : Precedence} {e : Expr} {ps : List Piece} {names : Multiset String}
    (h : Names ps names) : Names (slotted least e ps) names := by
  unfold slotted
  split
  · exact h.parenthesized
  · exact h

theorem listEvents_eq_flatMap (xs : List Expr) : listEvents xs = xs.flatMap events := by
  induction xs with
  | nil => rfl
  | cons x xs ih => rw [listEvents, ih, List.flatMap_cons]

theorem names_items {xs : List Expr} (h : ∀ x ∈ xs, Names x.pieces (bag x.events)) :
    Names (Piece.commaSeparated (itemPieces xs)) (bag (listEvents xs)) := by
  rw [itemPieces_eq_map, listEvents_eq_flatMap]
  exact .commaSeparated fun x hx => names_slotted (h x hx)

theorem names_pieces {e : Expr} (h : e.Plain) : Names e.pieces (bag e.events) := by
  induction e with
  | identifier name =>
    exact .word ⟨h.wellFormed.1, Parser.isTypeName_of_not_reserved h.wellFormed.2⟩ .nil
  | int value => exact .int value .nil
  | float value => exact .float h.wellFormed .nil
  | bool value => cases value <;> exact .keyword (by decide) (by decide) .nil
  | unary op x hx =>
    rw [pieces, events]
    exact .symbol op.token_mem (by cases op <;> decide)
      (names_slotted (hx (h.operand (by simp [operands]))))
  | step op x hx =>
    have hx := hx (h.operand (by simp [operands]))
    have hstepped : Names (stepped x x.pieces) (bag x.events) := by
      unfold stepped
      split
      · exact hx.parenthesized
      · exact names_slotted hx
    rw [pieces, events]
    exact hstepped.ended op.token_mem (by cases op <;> decide)
  | binary op x y hx hy =>
    rw [pieces, events, bag_append]
    exact (names_slotted (hx (h.operand (by simp [operands])))).append
      (.symbol op.token_mem (by cases op <;> decide)
        (names_slotted (hy (h.operand (by simp [operands])))))
  | assign op x y hx hy =>
    rw [pieces, events, bag_append]
    exact (names_slotted (hx (h.operand (by simp [operands])))).append
      (.symbol op.token_mem (by cases op <;> decide)
        (names_slotted (hy (h.operand (by simp [operands])))))
  | ternary x y z hx hy hz =>
    rw [pieces_ternary, events, bag_append, bag_append, add_assoc]
    refine (names_slotted (hx (h.operand (by simp [operands])))).append
      (.symbol (by decide) (by decide) ((hy (h.operand (by simp [operands]))).append ?_))
    exact .symbol (by decide) (by decide) (names_slotted (hz (h.operand (by simp [operands]))))
  | index x y hx hy =>
    rw [pieces_index, events, bag_append]
    exact (names_slotted (hx (h.operand (by simp [operands])))).append
      (.symbol (by decide) (by decide)
        ((hy (h.operand (by simp [operands]))).ended (by decide) (by decide)))
  | field x name hx =>
    have hname := Parser.isTypeName_of_not_reserved (h.fields x name .refl)
    rw [pieces_field, events, bag_append]
    exact (names_slotted (hx (h.operand (by simp [operands])))).append
      (.field ⟨h.wellFormed.1, hname⟩ .nil)
  | call callee args hargs =>
    rw [pieces, events, bag_name]
    exact .word ⟨h.wellFormed.1, h.wellFormed.2.1⟩
      (names_items fun x hx => hargs x hx (h.operand hx)).parenthesized
  | sequence items hitems =>
    rw [pieces, events]
    exact names_items fun x hx => hitems x hx (h.operand hx)

theorem names_piecesAt {e : Expr} (h : e.Plain) (least : Precedence) :
    Names (e.piecesAt least) (bag e.events) :=
  names_slotted (names_pieces h)

theorem names_sizePieces {e : Expr} (h : e.Plain) : Names e.sizePieces (bag e.events) :=
  .symbol (by decide) (by decide) ((names_piecesAt h _).ended (by decide) (by decide))

theorem names_optionalSizePieces {size : Option Expr} (h : ∀ e ∈ size, e.Plain) :
    Names (optionalSizePieces size) (bag (optionalEvents size)) := by
  cases size with
  | none => exact .nil
  | some e => exact names_sizePieces (h e rfl)

theorem names_optionalPieces {value : Option Expr} (h : ∀ e ∈ value, e.Plain) :
    Names (optionalPieces value) (bag (optionalEvents value)) := by
  cases value with
  | none => exact .nil
  | some e => exact names_pieces (h e rfl)

end Expr

/-! ## Declarations -/

theorem Precision.names_keyword (p : Precision) : Names [.token p.keyword] 0 := by
  cases p <;> exact .keyword (by decide) (by decide) .nil

theorem Direction.names_keyword (d : Direction) : Names [.token d.keyword] 0 := by
  cases d <;> exact .keyword (by decide) (by decide) .nil

theorem TypeQualifier.names_text (q : TypeQualifier) : Names [.token q.text] 0 := by
  cases q with
  | invariantVarying => exact .invariantVarying .nil
  | const | vertexAttribute | varying | uniform => exact .keyword (by decide) (by decide) .nil

/-- A name that may be missing is written as it is met: `Names` for the name of a struct or of a
parameter. -/
theorem Piece.names_optionalName {name : Option String} (h : ∀ w ∈ name, Word.Declarable w)
    (role : Role) :
    Names (Piece.ofOption name) (bag (name.map fun name => Event.name role name).toList) := by
  cases name with
  | none => exact .nil
  | some w => exact .word (h w rfl).namesType .nil

section

variable {room : Nat}

theorem MemberDeclarator.names_pieces {d : MemberDeclarator} (h : d.Fits room)
    (hsize : ∀ e ∈ d.size, e.Plain) : Names d.pieces (bag d.events) := by
  refine (Names.word h.name.namesType (Expr.names_optionalSizePieces hsize)).of_eq ?_
  rw [events, bag_append, add_comm]
  rfl

theorem Member.names_pieces {m : Member} (h : m.Fits room)
    (hsizes : ∀ d ∈ m.declarators, ∀ e ∈ d.size, e.Plain) : Names m.pieces (bag m.events) := by
  have hdeclarators : Names (Piece.commaSeparated (m.declarators.map MemberDeclarator.pieces))
      (bag (m.declarators.flatMap MemberDeclarator.events)) :=
    .commaSeparated fun d hd => MemberDeclarator.names_pieces (h.declarators d hd) (hsizes d hd)
  rw [pieces, events, bag_name]
  exact ((Names.word h.type hdeclarators).behind
    (.ofOption Precision.names_keyword m.precision)).ended (by decide) (by decide)

theorem StructType.names_pieces {s : StructType} (h : s.Fits room)
    (hfields : (Part.struct s).Plain) : Names s.pieces (bag s.events) := by
  have hsizes : ∀ m ∈ s.members, ∀ d ∈ m.declarators, ∀ e ∈ d.size, e.Plain := by
    intro m hm d hd e he
    have hmem : e ∈ s.sizes := by
      simp only [sizes, List.mem_flatMap, Option.mem_toList]
      exact ⟨m, hm, d, hd, he⟩
    exact ⟨Part.fits_size h hmem, hfields.child (List.mem_map_of_mem hmem)⟩
  have hmembers : Names (s.members.flatMap Member.pieces) (bag (s.members.flatMap Member.events)) :=
    .flatMap fun m hm => Member.names_pieces (h.members m hm) (hsizes m hm)
  rw [pieces, events, bag_append]
  exact .keyword (by decide) (by decide) ((Piece.names_optionalName h.name .type).append
    (.symbol (by decide) (by decide) (hmembers.ended (by decide) (by decide))))

theorem TypeSpecifier.names_pieces {t : TypeSpecifier} (h : t.Fits room)
    (hfields : ∀ spec ∈ t.struct?.toList, (Part.struct spec).Plain) :
    Names t.pieces (bag t.events) := by
  cases t with
  | named name => exact .word h .nil
  | struct spec => exact StructType.names_pieces h (hfields spec (by simp [struct?]))

theorem QualifiedType.names_pieces {t : QualifiedType}
    (h : Names t.specifier.pieces (bag t.specifier.events)) :
    Names t.pieces (bag t.specifier.events) :=
  h.behind ((Names.ofOption Precision.names_keyword t.precision).behind
    (.ofOption TypeQualifier.names_text t.qualifier))

theorem Declarator.names_pieces {d : Declarator} (h : d.Fits room)
    (hvalues : ∀ e ∈ d.values, e.Plain) (placement : Placement) (type : QualifiedType) :
    Names d.pieces (bag (d.events placement type)) := by
  have harray : Names ((d.array.map ArraySize.pieces).getD [])
      (bag ((d.array.map ArraySize.events).getD [])) := by
    cases ha : d.array with
    | none => exact .nil
    | some a =>
      cases a with
      | unsized => exact .symbol (by decide) (by decide) (Names.nil.ended (by decide) (by decide))
      | sized size =>
        exact Expr.names_sizePieces (hvalues size (by simp [values, ha, ArraySize.size?]))
  have hinitializer : Names ((d.initializer.map valuePieces).getD [])
      (bag (Expr.optionalEvents d.initializer)) := by
    cases hv : d.initializer with
    | none => exact .nil
    | some value =>
      exact .symbol (by decide) (by decide)
        (Expr.names_piecesAt (hvalues value (by simp [values, hv])) _)
  refine (Names.word h.name.namesType (harray.append hinitializer)).of_eq ?_
  rw [events, bag_append, bag_append, add_comm]
  rfl

theorem Declaration.names_pieces {decl : Declaration} {stage : Stage} {placement : Placement}
    (h : decl.Fits room stage placement) (hfields : (Part.declaration placement decl).Plain) :
    Names decl.pieces (bag (decl.events placement)) := by
  have htype : Names decl.type.pieces (bag decl.type.specifier.events) := by
    refine QualifiedType.names_pieces (TypeSpecifier.names_pieces h.type fun spec hspec => ?_)
    exact hfields.child (List.mem_append_left _ (List.mem_map_of_mem hspec))
  have hvalues : ∀ d ∈ decl.declarators, ∀ e ∈ d.values, e.Plain := by
    intro d hd e he
    refine ⟨Part.fits_value (h.declarators d hd) he, hfields.child (List.mem_append_right _ ?_)⟩
    exact List.mem_map_of_mem (List.mem_flatMap.2 ⟨d, hd, he⟩)
  rw [pieces, events, bag_append]
  exact (htype.append (.commaSeparated fun d hd =>
    Declarator.names_pieces (h.declarators d hd) (hvalues d hd) placement decl.type)).ended
      (by decide) (by decide)

theorem Parameter.names_pieces {p : Parameter} (h : p.Fits room)
    (hfields : (Part.parameter p).Plain) : Names p.pieces (bag p.events) := by
  have hconst : Names (if p.isConst then [.token "const"] else []) 0 := by
    split
    · exact .keyword (by decide) (by decide) .nil
    · exact .nil
  have hsize : ∀ e ∈ p.size, e.Plain := fun e he =>
    ⟨(h.size e he).1, hfields.child (List.mem_map_of_mem (Option.mem_toList.2 he))⟩
  have hqualifiers := (Names.ofOption Precision.names_keyword p.precision).behind
    ((Names.ofOption Direction.names_keyword p.direction).behind hconst)
  have hname := (Names.word h.type (Piece.names_optionalName h.name .parameter)).behind hqualifiers
  refine (hname.append (Expr.names_optionalSizePieces hsize)).of_eq ?_
  rw [events, bag_append, bag_name]
  exact add_right_comm _ _ _

theorem Prototype.names_pieces {p : Prototype} (h : p.Fits room)
    (hfields : (Part.signature p).Plain) :
    Names p.pieces (bag p.headEvents + bag p.paramEvents) := by
  have htype : Names p.returnType.pieces (bag p.returnType.specifier.events) := by
    refine QualifiedType.names_pieces (TypeSpecifier.names_pieces h.type fun spec hspec => ?_)
    exact hfields.child (List.mem_append_left _ (List.mem_map_of_mem hspec))
  have hparams : Names (Piece.commaSeparated (p.params.map Parameter.pieces)) (bag p.paramEvents) :=
    .commaSeparated fun x hx => Parameter.names_pieces (h.params x hx)
      (hfields.child (List.mem_append_right _ (List.mem_map_of_mem hx)))
  refine (htype.append (.word h.name.namesType hparams.parenthesized)).of_eq ?_
  rw [headEvents, bag_append, add_assoc]
  rfl

end

/-! ## Statements -/

theorem Expr.plain_optional {part : Part} {value : Option Expr} {room : Nat} (hpart : part.Plain)
    (h : ∀ e ∈ value, e.FitsEnclosed room)
    (hchild : ∀ e ∈ value, Part.expression e ∈ part.children) : ∀ e ∈ value, e.Plain :=
  fun e he => ⟨(h e he).1, hpart.child (hchild e he)⟩

theorem SimpleStatement.names_pieces {s : SimpleStatement} {room : Nat} (h : s.Fits room)
    (hfields : (Part.simple s).Plain) : Names s.pieces (bag s.events) := by
  cases s with
  | declaration decl => exact Declaration.names_pieces h (hfields.child (by simp [Part.children]))
  | expression value =>
    have hvalue := Expr.plain_optional hfields h fun e he =>
      List.mem_map_of_mem (Option.mem_toList.2 he)
    exact (Expr.names_optionalPieces hvalue).ended (by decide) (by decide)

namespace Statement

theorem names_pieces {s : Statement} {room : Nat} (h : s.Fits room)
    (hfields : (Part.statement s).Plain) : Names s.pieces (bag s.events) := by
  induction s generalizing room with
  | block body ih =>
    have hall := allFit_iff.1 h.2
    rw [pieces, events, bag_inScope, listPieces_eq_flatMap, listEvents_eq_flatMap]
    exact .symbol (by decide) (by decide) ((Names.flatMap fun s hs => ih s hs (hall s hs)
      (hfields.child (List.mem_map_of_mem hs))).ended (by decide) (by decide))
  | simple stmt =>
    exact SimpleStatement.names_pieces h.2 (hfields.child (by simp [Part.children]))
  | ifThen c body ih | whileLoop c body ih =>
    have hc : c.Plain := ⟨h.2.1.1, hfields.child (by simp [Part.children])⟩
    have hbody := ih h.2.2 (hfields.child (by simp [Part.children]))
    rw [pieces, events, bag_append]
    exact .keyword (by decide) (by decide) ((Expr.names_pieces hc).parenthesized.append hbody)
  | ifElse c x y hx hy =>
    obtain ⟨-, hcondition, hthen, -, helse⟩ := h
    have hc : c.Plain := ⟨hcondition.1, hfields.child (by simp [Part.children])⟩
    have hx := hx hthen (hfields.child (by simp [Part.children]))
    have hy := hy helse (hfields.child (by simp [Part.children]))
    rw [pieces, events, bag_append, bag_append]
    exact .keyword (by decide) (by decide) (((Expr.names_pieces hc).parenthesized.append hx).append
      (.keyword (by decide) (by decide) hy))
  | doWhile body c ih =>
    have hc : c.Plain := ⟨h.2.1.1, hfields.child (by simp [Part.children])⟩
    have hbody := ih h.2.2 (hfields.child (by simp [Part.children]))
    rw [pieces, events, bag_append]
    exact .keyword (by decide) (by decide) ((hbody.append (.keyword (by decide) (by decide)
      (Expr.names_pieces hc).parenthesized)).ended (by decide) (by decide))
  | forLoop init c step body ih =>
    obtain ⟨-, hinit, hcondition, hstep, hbody⟩ := h
    have hinit := SimpleStatement.names_pieces hinit (hfields.child (by simp [Part.children]))
    have hc := Expr.names_optionalPieces (Expr.plain_optional hfields hcondition fun e he => by
      simp [Part.children, Option.mem_def.1 he])
    have hstep := Expr.names_optionalPieces (Expr.plain_optional hfields hstep fun e he => by
      simp [Part.children, Option.mem_def.1 he])
    have hbody := ih hbody (hfields.child (by simp [Part.children]))
    rw [pieces, events, bag_inScope, bag_append, bag_append, bag_append]
    exact .keyword (by decide) (by decide) (.symbol (by decide) (by decide)
      (((hinit.append hc).append (.symbol (by decide) (by decide) hstep)).append
        (.symbol (by decide) (by decide) hbody)))
  | returnValue value =>
    have hvalue := Expr.plain_optional hfields h.2 fun e he =>
      List.mem_map_of_mem (Option.mem_toList.2 he)
    exact .keyword (by decide) (by decide)
      ((Expr.names_optionalPieces hvalue).ended (by decide) (by decide))
  | continueLoop | breakLoop | discard =>
    exact .keyword (by decide) (by decide) (Names.nil.ended (by decide) (by decide))

end Statement

/-! ## Items -/

namespace Item

variable {stage : Stage}

theorem names_invariant {names : List String}
    (h : ∀ w ∈ names, Word.isWord w = true ∧ Word.isReserved w = false) :
    Names (pieces (.invariant names)) (bag (events (.invariant names))) := by
  have hnames : Names (Piece.commaSeparated (names.map fun name => [.token name]))
      (bag (names.flatMap fun name => [.name .use name])) :=
    .commaSeparated fun w hw =>
      .word ⟨(h w hw).1, Parser.isTypeName_of_not_reserved (h w hw).2⟩ .nil
  rw [← List.map_eq_flatMap] at hnames
  rw [pieces, events]
  exact .keyword (by decide) (by decide) (hnames.ended (by decide) (by decide))

theorem names_function {signature : Prototype} {body : List Statement} {room : Nat}
    (h : Item.Fits stage (.function signature body) room)
    (hfields : (Part.item (.function signature body)).Plain) :
    Names (pieces (.function signature body)) (bag (events (.function signature body))) := by
  have hsignature := Prototype.names_pieces h.1 (hfields.child (by simp [Part.children]))
  have hbody : Names (body.flatMap Statement.pieces) (bag (body.flatMap Statement.events)) :=
    .flatMap fun s hs => Statement.names_pieces (h.2 s hs)
      (hfields.child (List.mem_cons_of_mem _ (List.mem_map_of_mem hs)))
  rw [pieces, events, bag_append, bag_inScope, bag_append, Statement.pieces,
    Statement.listPieces_eq_flatMap, Statement.listEvents_eq_flatMap, ← add_assoc]
  exact hsignature.append (.symbol (by decide) (by decide) (hbody.ended (by decide) (by decide)))

mutual

/-- The lines of the directives and the conditions of an item, from its first to its last, as
`Item.pieces` has them. -/
def directiveLines : Item → List String
  | directive d => [d.text]
  | conditional kind condition body rest =>
    kind.text condition :: listDirectiveLines body ++ branchDirectiveLines rest
  | precision _ _ | invariant _ | declaration _ | prototype _ | function _ _ => []

/-- The lines of the directives and the conditions of items in a row (`directiveLines`). -/
def listDirectiveLines : List Item → List String
  | [] => []
  | item :: items => directiveLines item ++ listDirectiveLines items

/-- The lines of the directives and the conditions from the end of a branch to the `#endif`. -/
def branchDirectiveLines : Branches → List String
  | .done => ["#endif"]
  | .otherwise body => "#else" :: listDirectiveLines body ++ ["#endif"]
  | .elif condition body rest =>
    ("#elif " ++ condition) :: listDirectiveLines body ++ branchDirectiveLines rest

end

mutual

theorem coded_pieces : (i : Item) → {room : Nat} → i.Fits stage room → (Part.item i).Plain →
    Coded i.pieces i.directiveLines (bag i.events)
  | directive d, _, _, _ => .line _ .nil
  | conditional kind condition body rest, room, h, hfields => by
    obtain ⟨-, -, hbody, hrest⟩ := h
    have hbody := coded_listPieces body hbody fun i hi =>
      hfields.child (List.mem_append_left _ (List.mem_map_of_mem hi))
    have hrest := coded_branchPieces rest hrest (hfields.child (by simp [Part.children]))
    rw [pieces, events, List.cons_append, List.cons_append, bag_other rfl, bag_append]
    exact .line _ (hbody.append hrest)
  | precision level type, room, h, _ =>
    .of_names (.keyword (by decide) (by decide)
      ((Names.word h (Names.nil.ended (by decide) (by decide))).behind level.names_keyword))
  | invariant names, _, h, _ => .of_names (names_invariant h.2)
  | declaration decl, _, h, hfields =>
    .of_names (Declaration.names_pieces h (hfields.child (by simp [Part.children])))
  | prototype signature, _, h, hfields => by
    have hsignature := Prototype.names_pieces h (hfields.child (by simp [Part.children]))
    rw [pieces, events, bag_append, bag_inScope]
    exact .of_names (hsignature.ended (by decide) (by decide))
  | function signature body, _, h, hfields => .of_names (names_function h hfields)

theorem coded_listPieces : (items : List Item) → {room : Nat} → AllFit stage items room →
    (∀ i ∈ items, (Part.item i).Plain) →
    Coded (listPieces items) (listDirectiveLines items) (bag (listEvents items))
  | [], _, _, _ => .nil
  | i :: items, _, h, hfields => by
    have hi := coded_pieces i h.1 (hfields i (by simp))
    have hitems := coded_listPieces items h.2 fun j hj => hfields j (by simp [hj])
    rw [listPieces, listEvents, bag_append]
    exact hi.append hitems

theorem coded_branchPieces : (b : Branches) → {room : Nat} → BranchesFit stage b room →
    (Part.branches b).Plain →
    Coded (branchPieces b) (branchDirectiveLines b) (bag (branchEvents b))
  | .done, _, _, _ => .line _ .nil
  | .otherwise body, _, h, hfields => by
    have hbody := coded_listPieces body h fun i hi => hfields.child (List.mem_map_of_mem hi)
    rw [branchPieces, branchEvents]
    exact .line _ ((hbody.append (.line _ .nil)).of_eq (add_zero _))
  | .elif condition body rest, _, h, hfields => by
    have hbody := coded_listPieces body h.2.1 fun i hi =>
      hfields.child (List.mem_append_left _ (List.mem_map_of_mem hi))
    have hrest := coded_branchPieces rest h.2.2 (hfields.child (by simp [Part.children]))
    rw [branchPieces, branchEvents, List.cons_append, List.cons_append, bag_other rfl, bag_append]
    exact .line _ (hbody.append hrest)

end

end Item

/-! ## Shaders -/

namespace Shader

/-- The lines of the directives and the conditions of a shader, as `emit` writes them. -/
def directiveLines (shader : Shader) : List String := Item.listDirectiveLines shader.items

/-- The names at the `sites` of a shader that was read are the names among the words that `emit`
writes for it, its `directiveLines` taken out of the text, however often each of them occurs. -/
theorem names_of_parse {source : String} {stage : Stage} {shader : Shader}
    (h : Shader.parse source stage = .ok shader)
    (hfields : ∀ base name, (Tree.shader shader).Has (.expression (.field base name)) →
      Word.isReserved name = false) :
    ∃ code, withoutLines? shader.directiveLines shader.emit.toList = some code ∧
      (shader.sites.map Site.name : Multiset String) = Word.namesIn code := by
  have hfits : Item.AllFit stage shader.items Parser.maxNesting :=
    Parser.yields_shader _ _ _ (Parser.run_eq_ok.1 h)
  have hplain : ∀ i ∈ shader.items, (Part.item i).Plain := fun i hi base name hpath =>
    hfields base name ⟨_, List.mem_map_of_mem hi, hpath⟩
  have hclean : Clean (shader.pieces ++ []) := Item.closed_listPieces _ hfits [] .nil
  rw [List.append_nil] at hclean
  exact (Item.coded_listPieces _ hfits hplain).names_withoutLines? hclean

/-- The size of an array and its value are met before its name and written behind it, so `sites` and
`emit` agree in the names but not in their order. -/
theorem names_of_parse_array :
    ∃ shader code, Shader.parse "#define N 2\nconst float a[N]=s.x*1e2;" .vertex = .ok shader ∧
      shader.emit = "#define N 2\nconst float a[N]=s.x*1e2;" ∧
      shader.directiveLines = ["#define N 2"] ∧
      withoutLines? shader.directiveLines shader.emit.toList = some code ∧
      String.ofList code = "const float a[N]=s.x*1e2;" ∧
      shader.sites.map Site.name = ["float", "N", "s", "x", "a"] ∧
      Word.namesIn code = ["float", "a", "N", "s", "x"] ∧
      (shader.sites.map Site.name : Multiset String) = Word.namesIn code := by
  have hparse : Shader.parse "#define N 2\nconst float a[N]=s.x*1e2;" .vertex =
      .ok ⟨[.directive ⟨"define", "N 2"⟩,
        .declaration ⟨⟨some .const, none, .named "float"⟩, [⟨"a", some (.sized (.identifier "N")),
          some (.binary .mul (.field (.identifier "s") "x") (.float ⟨"1e2"⟩))⟩]⟩]⟩ := by
    decide +kernel
  have hfield : (Part.expression (.field (.identifier "s") "x")).Plain :=
    .of_children (fun _ _ heq => by cases heq; decide)
      (List.forall_mem_singleton.2 (Part.plain_leaf rfl))
  have hvalue : (Part.expression
      (.binary .mul (.field (.identifier "s") "x") (.float ⟨"1e2"⟩))).Plain :=
    .of_children (by simp) (List.forall_mem_cons.2
      ⟨hfield, List.forall_mem_singleton.2 (Part.plain_leaf rfl)⟩)
  have hdeclaration : (Part.declaration .topLevel ⟨⟨some .const, none, .named "float"⟩,
      [⟨"a", some (.sized (.identifier "N")),
        some (.binary .mul (.field (.identifier "s") "x") (.float ⟨"1e2"⟩))⟩]⟩).Plain :=
    .of_children (by simp) (List.forall_mem_cons.2
      ⟨Part.plain_leaf rfl, List.forall_mem_singleton.2 hvalue⟩)
  refine (names_of_parse hparse ?_).elim fun code hcode => ?_
  · rintro base name ⟨root, hroot, hpath⟩
    rcases List.mem_cons.1 hroot with rfl | hroot
    · refine Part.Plain.of_children ?_ (List.forall_mem_nil _) base name hpath
      simp
    · obtain rfl := List.mem_singleton.1 hroot
      refine Part.Plain.of_children ?_ (fun child hc => ?_) base name hpath
      · simp
      · obtain rfl := List.mem_singleton.1 hc
        exact hdeclaration
  · obtain ⟨hwithout, hnames⟩ := hcode
    obtain rfl : code = "const float a[N]=s.x*1e2;".toList :=
      Option.some.inj (hwithout.symm.trans (by decide +kernel))
    exact ⟨_, _, hparse, by decide +kernel, by decide +kernel, hwithout, by decide +kernel, rfl,
      by decide +kernel, hnames⟩

end Shader

end ShaderMinifier
