import ShaderMinifier.Proofs.Item.Shape
import ShaderMinifier.Proofs.Lists

/-
  What can be read in place of what. A tree is replaced by another if that can be read wherever
  the tree can, with the same room: brackets and nesting do not depend on names, and a name that
  may be declared may stand wherever a name can.
-/

namespace ShaderMinifier

/-! ## Words -/

/-- The second word is the first one, or may be declared (`Declarable`), so it can stand wherever
the first could. -/
def Word.ReplacedBy (old new : String) : Prop := new = old ∨ Word.Declarable new

namespace Word

variable {old new : String}

theorem Declarable.namesType (h : Declarable new) : NamesType new :=
  ⟨h.isWord, by simp [isTypeName, h.notReserved]⟩

namespace ReplacedBy

theorem declarable (h : ReplacedBy old new) (hold : Declarable old) : Declarable new := by
  rcases h with rfl | h
  · exact hold
  · exact h

theorem namesType (h : ReplacedBy old new) (hold : NamesType old) : NamesType new := by
  rcases h with rfl | h
  · exact hold
  · exact h.namesType

theorem isWord (h : ReplacedBy old new) (hold : Word.isWord old = true) :
    Word.isWord new = true := by
  rcases h with rfl | h
  · exact hold
  · exact h.isWord

theorem notReserved (h : ReplacedBy old new) (hold : isReserved old = false) :
    isReserved new = false := by
  rcases h with rfl | h
  · exact hold
  · exact h.notReserved

theorem ne_void (h : ReplacedBy old new) (hold : old ≠ "void") : new ≠ "void" := by
  rcases h with rfl | h
  · exact hold
  · rintro rfl
    exact absurd h.notReserved (by decide)

end ReplacedBy

end Word

/-! ## Expressions -/

/-- The second expression can be read wherever the first can: it binds, steps and nests alike, and
is `WellFormed` if the first is. -/
structure Expr.ReplacedBy (e e' : Expr) : Prop where
  precedence : e'.precedence = e.precedence
  isStep : e'.isStep = e.isStep
  depth : e'.depth = e.depth
  wellFormed : e.WellFormed → e'.WellFormed

namespace Expr

namespace ReplacedBy

variable {x x' y y' z z' : Expr} {items items' : List Expr}

theorem refl (e : Expr) : ReplacedBy e e := ⟨rfl, rfl, rfl, id⟩

theorem optionRefl (value : Option Expr) : Option.Rel ReplacedBy value value := by
  cases value with
  | none => exact .none
  | some e => exact .some (refl e)

theorem identifier {old new : String} (h : Word.ReplacedBy old new) :
    ReplacedBy (.identifier old) (.identifier new) where
  precedence := rfl
  isStep := rfl
  depth := rfl
  wellFormed := fun hold => ⟨h.isWord hold.1, h.notReserved hold.2⟩

theorem unary (op : UnaryOp) (hx : ReplacedBy x x') :
    ReplacedBy (.unary op x) (.unary op x') where
  precedence := rfl
  isStep := rfl
  depth := by simp only [depth_unary, unaryDepth, hx.precedence, hx.depth]
  wellFormed := hx.wellFormed

theorem step (op : StepOp) (hx : ReplacedBy x x') : ReplacedBy (.step op x) (.step op x') where
  precedence := rfl
  isStep := rfl
  depth := by
    simp only [depth_step, enclosedDepth, suffixedDepth, hx.precedence, hx.isStep, hx.depth]
  wellFormed := hx.wellFormed

theorem binary (op : BinaryOp) (hx : ReplacedBy x x') (hy : ReplacedBy y y') :
    ReplacedBy (.binary op x y) (.binary op x' y') where
  precedence := rfl
  isStep := rfl
  depth := by
    simp only [depth_binary, operandDepth, hx.precedence, hx.depth, hy.precedence, hy.depth]
  wellFormed := fun h => ⟨hx.wellFormed h.1, hy.wellFormed h.2⟩

theorem assign (op : AssignOp) (hx : ReplacedBy x x') (hy : ReplacedBy y y') :
    ReplacedBy (.assign op x y) (.assign op x' y') where
  precedence := rfl
  isStep := rfl
  depth := by
    simp only [depth_assign, unaryDepth, assignmentDepth, hx.precedence, hx.depth, hy.precedence,
      hy.depth]
  wellFormed := fun h => ⟨hx.precedence ▸ h.1, hx.wellFormed h.2.1, hy.wellFormed h.2.2⟩

theorem ternary (hx : ReplacedBy x x') (hy : ReplacedBy y y') (hz : ReplacedBy z z') :
    ReplacedBy (.ternary x y z) (.ternary x' y' z') where
  precedence := rfl
  isStep := rfl
  depth := by
    simp only [depth_ternary, operandDepth, enclosedDepth, assignmentDepth, hx.precedence, hx.depth,
      hy.precedence, hy.depth, hz.precedence, hz.depth]
  wellFormed := fun h => ⟨hx.wellFormed h.1, hy.wellFormed h.2.1, hz.wellFormed h.2.2⟩

theorem index (hx : ReplacedBy x x') (hy : ReplacedBy y y') :
    ReplacedBy (.index x y) (.index x' y') where
  precedence := rfl
  isStep := rfl
  depth := by
    simp only [depth_index, suffixedDepth, enclosedDepth, hx.precedence, hx.depth, hy.precedence,
      hy.depth]
  wellFormed := fun h => ⟨hx.wellFormed h.1, hy.wellFormed h.2⟩

theorem field {old new : String} (hx : ReplacedBy x x') (hname : Word.ReplacedBy old new) :
    ReplacedBy (.field x old) (.field x' new) where
  precedence := rfl
  isStep := rfl
  depth := by simp only [depth_field, suffixedDepth, hx.precedence, hx.depth]
  wellFormed := fun h => ⟨hname.isWord h.1, hx.wellFormed h.2⟩

theorem listDepth_eq (h : List.Forall₂ ReplacedBy items items') :
    listDepth items' = listDepth items := by
  induction h with
  | nil => rfl
  | cons hx _ ih => rw [listDepth, listDepth, ih, hx.precedence, hx.depth]

theorem allWellFormed (h : List.Forall₂ ReplacedBy items items')
    (hitems : AllWellFormed items) : AllWellFormed items' := by
  induction h with
  | nil => exact hitems
  | cons hx _ ih =>
    rw [AllWellFormed] at hitems ⊢
    exact ⟨hx.wellFormed hitems.1, ih hitems.2⟩

theorem call {old new : String} (hname : Word.ReplacedBy old new)
    (h : List.Forall₂ ReplacedBy items items') :
    ReplacedBy (.call old items) (.call new items') where
  precedence := rfl
  isStep := rfl
  depth := listDepth_eq h
  wellFormed := by
    rintro ⟨hword, htype, hitems⟩
    have hnames := hname.namesType ⟨hword, htype⟩
    exact ⟨hnames.isWord, hnames.isTypeName, allWellFormed h hitems⟩

theorem sequence (h : List.Forall₂ ReplacedBy items items') :
    ReplacedBy (.sequence items) (.sequence items') where
  precedence := rfl
  isStep := rfl
  depth := listDepth_eq h
  wellFormed := by
    rintro ⟨hlength, hitems⟩
    exact ⟨h.length_eq ▸ hlength, allWellFormed h hitems⟩

/-- Whatever a place costs, it costs the same: `Fits` goes from `x` to what replaces it. -/
theorem fits {room : Nat} {level : Precedence} (h : ReplacedBy x x') (hx : x.Fits room level) :
    x'.Fits room level := by
  refine ⟨h.wellFormed hx.1, ?_⟩
  rw [operandDepth, h.precedence, h.depth]
  exact hx.2

theorem fitsEnclosed {room : Nat} (h : ReplacedBy x x') (hx : x.FitsEnclosed room) :
    x'.FitsEnclosed room := by
  refine ⟨h.wellFormed hx.1, ?_⟩
  rw [enclosedDepth, h.precedence, h.depth]
  exact hx.2

theorem fitsValue {room : Nat} (h : ReplacedBy x x')
    (hx : x.WellFormed ∧ x.assignmentDepth ≤ room) :
    x'.WellFormed ∧ x'.assignmentDepth ≤ room := by
  refine ⟨h.wellFormed hx.1, ?_⟩
  rw [assignmentDepth, h.precedence, h.depth]
  exact hx.2

end ReplacedBy

end Expr

/-! ## Declarations -/

theorem Expr.SizeFits.of_replacedBy {size size' : Option Expr} {room : Nat}
    (h : Option.Rel Expr.ReplacedBy size size') (hsize : Expr.SizeFits room size) :
    Expr.SizeFits room size' :=
  forall_of_optionRel h (fun _ _ he => he.fits) hsize

theorem Expr.ValueFits.of_replacedBy {value value' : Option Expr} {room : Nat}
    (h : Option.Rel Expr.ReplacedBy value value') (hvalue : Expr.ValueFits room value) :
    Expr.ValueFits room value' :=
  forall_of_optionRel h (fun _ _ he => he.fitsValue) hvalue

/-- The second `MemberDeclarator` can be read wherever the first can. -/
def MemberDeclarator.ReplacedBy (d d' : MemberDeclarator) : Prop :=
  ∀ room, d.Fits room → d'.Fits room

def Member.ReplacedBy (m m' : Member) : Prop := ∀ room, m.Fits room → m'.Fits room

/-- The second type can be read wherever the first can, and is a struct (`isStruct`) if the first
is. -/
structure TypeSpecifier.ReplacedBy (t t' : TypeSpecifier) : Prop where
  isStruct : t'.isStruct = t.isStruct
  notVoid : t.isVoid = false → t'.isVoid = false
  fits : ∀ room, t.Fits room → t'.Fits room

structure QualifiedType.ReplacedBy (t t' : QualifiedType) : Prop where
  qualifier : t'.qualifier = t.qualifier
  specifier : t.specifier.ReplacedBy t'.specifier

/-- The second variable can be read wherever the first can, and is an array or has an initial value
only if the first is or has, as `Declaration.fault?` asks. -/
structure Declarator.ReplacedBy (d d' : Declarator) : Prop where
  plain : d.initializer = none ∧ d.array = none → d'.initializer = none ∧ d'.array = none
  fits : ∀ room, d.Fits room → d'.Fits room

def Declaration.ReplacedBy (d d' : Declaration) : Prop :=
  ∀ room stage placement, d.Fits room stage placement → d'.Fits room stage placement

def Parameter.ReplacedBy (p p' : Parameter) : Prop := ∀ room, p.Fits room → p'.Fits room

def Prototype.ReplacedBy (p p' : Prototype) : Prop := ∀ room, p.Fits room → p'.Fits room

namespace MemberDeclarator

theorem ReplacedBy.of_parts {d : MemberDeclarator} {name : String} {size : Option Expr}
    (hname : Word.ReplacedBy d.name name) (hsize : Option.Rel Expr.ReplacedBy d.size size) :
    ReplacedBy d ⟨name, size⟩ :=
  fun _ h => ⟨hname.declarable h.name, h.size.of_replacedBy hsize⟩

end MemberDeclarator

namespace Member

theorem ReplacedBy.of_parts {m : Member} {type : String} {declarators : List MemberDeclarator}
    (htype : Word.ReplacedBy m.type type)
    (hdeclarators : List.Forall₂ MemberDeclarator.ReplacedBy m.declarators declarators) :
    ReplacedBy m ⟨m.precision, type, declarators⟩ := by
  intro room h
  refine ⟨htype.namesType h.type, fun hnil => ?_, ?_⟩
  · exact h.nonempty (eq_nil_of_forall₂ hdeclarators hnil)
  · exact forall_of_forall₂ hdeclarators (fun _ _ hd => hd room) h.declarators

end Member

namespace TypeSpecifier

theorem ReplacedBy.named {old new : String} (h : Word.ReplacedBy old new) :
    ReplacedBy (.named old) (.named new) where
  isStruct := rfl
  notVoid := by
    intro hvoid
    simp only [isVoid, beq_eq_false_iff_ne] at hvoid ⊢
    exact h.ne_void hvoid
  fits := fun _ hold => h.namesType hold

theorem ReplacedBy.struct {spec : StructType} {name : Option String} {members : List Member}
    (hname : Option.Rel Word.ReplacedBy spec.name name)
    (hmembers : List.Forall₂ Member.ReplacedBy spec.members members) :
    ReplacedBy (.struct spec) (.struct ⟨name, members⟩) where
  isStruct := rfl
  notVoid := id
  fits := by
    intro room h
    have hspec : spec.Fits room := h
    refine ⟨forall_of_optionRel hname (fun _ _ hw => hw.declarable) hspec.name,
      fun hnil => ?_, ?_⟩
    · exact hspec.nonempty (eq_nil_of_forall₂ hmembers hnil)
    · exact forall_of_forall₂ hmembers (fun _ _ hm => hm room) hspec.members

end TypeSpecifier

namespace Declarator

/-- The brackets of a declared name in place of others, with an `Expr.ReplacedBy` size. -/
inductive ArrayReplacedBy : Option ArraySize → Option ArraySize → Prop
  | none : ArrayReplacedBy none none
  | unsized : ArrayReplacedBy (some .unsized) (some .unsized)
  | sized {size size' : Expr} (h : size.ReplacedBy size') :
    ArrayReplacedBy (some (.sized size)) (some (.sized size'))

theorem ReplacedBy.of_parts {d : Declarator} {name : String} {array : Option ArraySize}
    {value : Option Expr} (hname : Word.ReplacedBy d.name name)
    (harray : ArrayReplacedBy d.array array)
    (hvalue : Option.Rel Expr.ReplacedBy d.initializer value) :
    ReplacedBy d ⟨name, array, value⟩ where
  plain := by
    rintro ⟨hinitializer, hnone⟩
    rw [hinitializer] at hvalue
    rw [hnone] at harray
    cases hvalue
    cases harray
    exact ⟨rfl, rfl⟩
  fits := by
    intro room h
    refine ⟨hname.declarable h.name, ?_, h.initializer.of_replacedBy hvalue⟩
    have hfits := h.array
    generalize d.array = old at harray hfits
    cases harray with
    | none => simp
    | unsized => exact hfits
    | sized hsize =>
      rintro a ⟨⟩
      exact hsize.fits (hfits _ rfl)

end Declarator

namespace Declaration

theorem ReplacedBy.of_parts {decl : Declaration} {type : QualifiedType}
    {declarators : List Declarator} (htype : decl.type.ReplacedBy type)
    (hdeclarators : List.Forall₂ Declarator.ReplacedBy decl.declarators declarators) :
    ReplacedBy decl ⟨type, declarators⟩ := by
  intro room stage placement h
  have hallowed := fault?_eq_none.1 h.allowed
  refine ⟨htype.specifier.fits room h.type, ?_, fun hnil => ?_, fault?_eq_none.2 ⟨?_, ?_, ?_, ?_⟩⟩
  · exact forall_of_forall₂ hdeclarators (fun _ _ hd => hd.fits room) h.declarators
  · rw [htype.specifier.isStruct]
    exact h.bare (eq_nil_of_forall₂ hdeclarators hnil)
  · intro hne
    refine htype.specifier.notVoid (hallowed.notVoid fun hnil => hne ?_)
    rw [hnil] at hdeclarators
    exact List.forall₂_nil_left_iff.1 hdeclarators
  · rw [htype.qualifier]
    exact hallowed.unlinkedLocal
  · rw [htype.qualifier, htype.specifier.isStruct]
    exact hallowed.attributeType
  · rw [htype.qualifier]
    intro hattribute
    exact forall_of_forall₂ hdeclarators (fun _ _ hd => hd.plain)
      (hallowed.plainAttribute hattribute)

end Declaration

namespace Parameter

theorem ReplacedBy.of_parts {p : Parameter} {type : String} {name : Option String}
    {size : Option Expr} (htype : Word.ReplacedBy p.type type)
    (hname : Option.Rel Word.ReplacedBy p.name name)
    (hsize : Option.Rel Expr.ReplacedBy p.size size) :
    ReplacedBy p { p with type, name, size } :=
  fun _ h => ⟨h.direction, htype.namesType h.type, htype.ne_void h.notVoid,
    forall_of_optionRel hname (fun _ _ hw => hw.declarable) h.name, h.size.of_replacedBy hsize⟩

end Parameter

namespace Prototype

theorem ReplacedBy.of_parts {p : Prototype} {type : QualifiedType} {name : String}
    {params : List Parameter} (htype : p.returnType.ReplacedBy type)
    (hname : Word.ReplacedBy p.name name)
    (hparams : List.Forall₂ Parameter.ReplacedBy p.params params) :
    ReplacedBy p ⟨type, name, params⟩ := by
  intro room h
  refine ⟨htype.specifier.fits room h.type, htype.qualifier.trans h.unqualified,
    hname.declarable h.name, ?_⟩
  exact forall_of_forall₂ hparams (fun _ _ hp => hp room) h.params

end Prototype

/-! ## Statements -/

def SimpleStatement.ReplacedBy (s s' : SimpleStatement) : Prop :=
  ∀ room, s.Fits room → s'.Fits room

namespace SimpleStatement

theorem ReplacedBy.declaration {decl decl' : Declaration} (h : decl.ReplacedBy decl') :
    ReplacedBy (.declaration decl) (.declaration decl') :=
  fun room hdecl => h room _ _ hdecl

theorem ReplacedBy.expression {value value' : Option Expr}
    (h : Option.Rel Expr.ReplacedBy value value') :
    ReplacedBy (.expression value) (.expression value') :=
  fun _ hvalue => forall_of_optionRel h (fun _ _ he => he.fitsEnclosed) hvalue

end SimpleStatement

/-- The second statement can be read wherever the first can, also before an `else` (`endsOpen`). -/
structure Statement.ReplacedBy (s s' : Statement) : Prop where
  endsOpen : s'.endsOpen = s.endsOpen
  fits : ∀ room, s.Fits room → s'.Fits room

namespace Statement

def ListReplacedBy (body body' : List Statement) : Prop :=
  ∀ room, AllFit body room → AllFit body' room

theorem ListReplacedBy.of_forall₂ {body body' : List Statement}
    (h : List.Forall₂ ReplacedBy body body') : ListReplacedBy body body' := by
  intro room hbody
  rw [allFit_iff] at hbody ⊢
  exact forall_of_forall₂ h (fun _ _ hs => hs.fits room) hbody

namespace ReplacedBy

variable {s s' t t' : Statement} {condition condition' : Expr}

theorem refl (s : Statement) : ReplacedBy s s := ⟨rfl, fun _ => id⟩

theorem block {body body' : List Statement} (h : ListReplacedBy body body') :
    ReplacedBy (.block body) (.block body') :=
  ⟨rfl, fun _ hbody => ⟨hbody.1, h _ hbody.2⟩⟩

theorem simple {stmt stmt' : SimpleStatement} (h : stmt.ReplacedBy stmt') :
    ReplacedBy (.simple stmt) (.simple stmt') :=
  ⟨rfl, fun _ hs => ⟨hs.1, h _ hs.2⟩⟩

theorem ifThen (hcondition : condition.ReplacedBy condition') (hs : ReplacedBy s s') :
    ReplacedBy (.ifThen condition s) (.ifThen condition' s') :=
  ⟨rfl, fun _ h => ⟨h.1, hcondition.fitsEnclosed h.2.1, hs.fits _ h.2.2⟩⟩

theorem ifElse (hcondition : condition.ReplacedBy condition') (hs : ReplacedBy s s')
    (ht : ReplacedBy t t') : ReplacedBy (.ifElse condition s t) (.ifElse condition' s' t') where
  endsOpen := ht.endsOpen
  fits := by
    rintro room ⟨hroom, hc, hfits, hopen, hfits'⟩
    exact ⟨hroom, hcondition.fitsEnclosed hc, hs.fits _ hfits, hs.endsOpen.trans hopen,
      ht.fits _ hfits'⟩

theorem whileLoop (hcondition : condition.ReplacedBy condition') (hs : ReplacedBy s s') :
    ReplacedBy (.whileLoop condition s) (.whileLoop condition' s') :=
  ⟨hs.endsOpen, fun _ h => ⟨h.1, hcondition.fitsEnclosed h.2.1, hs.fits _ h.2.2⟩⟩

theorem doWhile (hs : ReplacedBy s s') (hcondition : condition.ReplacedBy condition') :
    ReplacedBy (.doWhile s condition) (.doWhile s' condition') :=
  ⟨rfl, fun _ h => ⟨h.1, hcondition.fitsEnclosed h.2.1, hs.fits _ h.2.2⟩⟩

theorem forLoop {init init' : SimpleStatement} {condition condition' step step' : Option Expr}
    (hinit : init.ReplacedBy init') (hcondition : Option.Rel Expr.ReplacedBy condition condition')
    (hstep : Option.Rel Expr.ReplacedBy step step') (hs : ReplacedBy s s') :
    ReplacedBy (.forLoop init condition step s) (.forLoop init' condition' step' s') where
  endsOpen := hs.endsOpen
  fits := by
    rintro room ⟨hroom, hi, hc, hst, hfits⟩
    exact ⟨hroom, hinit _ hi, forall_of_optionRel hcondition (fun _ _ he => he.fitsEnclosed) hc,
      forall_of_optionRel hstep (fun _ _ he => he.fitsEnclosed) hst, hs.fits _ hfits⟩

theorem returnValue {value value' : Option Expr} (h : Option.Rel Expr.ReplacedBy value value') :
    ReplacedBy (.returnValue value) (.returnValue value') :=
  ⟨rfl, fun _ hs => ⟨hs.1, forall_of_optionRel h (fun _ _ he => he.fitsEnclosed) hs.2⟩⟩

end ReplacedBy

end Statement

/-! ## Items -/

namespace Item

/-- The second item can be read wherever the first can, in every stage (`Item.Fits`). -/
def ReplacedBy (i i' : Item) : Prop := ∀ stage room, i.Fits stage room → i'.Fits stage room

def ListReplacedBy (items items' : List Item) : Prop :=
  ∀ stage room, AllFit stage items room → AllFit stage items' room

def BranchesReplacedBy (b b' : Branches) : Prop :=
  ∀ stage room, BranchesFit stage b room → BranchesFit stage b' room

theorem ListReplacedBy.nil : ListReplacedBy [] [] := fun _ _ => id

theorem ListReplacedBy.cons {i i' : Item} {items items' : List Item} (hi : ReplacedBy i i')
    (hitems : ListReplacedBy items items') : ListReplacedBy (i :: items) (i' :: items') :=
  fun stage room h => ⟨hi stage room h.1, hitems stage room h.2⟩

namespace ReplacedBy

theorem refl (i : Item) : ReplacedBy i i := fun _ _ => id

theorem conditional (kind : ConditionalKind) (condition : String) {body body' : List Item}
    {rest rest' : Branches} (hbody : ListReplacedBy body body')
    (hrest : BranchesReplacedBy rest rest') :
    ReplacedBy (.conditional kind condition body rest)
      (.conditional kind condition body' rest') :=
  fun stage _ h => ⟨h.1, h.2.1, hbody stage _ h.2.2.1, hrest stage _ h.2.2.2⟩

theorem invariant {names names' : List String}
    (h : List.Forall₂ Word.ReplacedBy names names') :
    ReplacedBy (.invariant names) (.invariant names') := by
  rintro stage room ⟨hne, hnames⟩
  refine ⟨fun hnil => hne (eq_nil_of_forall₂ h hnil), ?_⟩
  exact forall_of_forall₂ h (fun _ _ hw hword => ⟨hw.isWord hword.1, hw.notReserved hword.2⟩)
    hnames

theorem declaration {decl decl' : Declaration} (h : decl.ReplacedBy decl') :
    ReplacedBy (.declaration decl) (.declaration decl') :=
  fun stage room hdecl => h room stage _ hdecl

theorem prototype {p p' : Prototype} (h : p.ReplacedBy p') :
    ReplacedBy (.prototype p) (.prototype p') :=
  fun _ room hp => h room hp

theorem function {p p' : Prototype} {body body' : List Statement} (hp : p.ReplacedBy p')
    (hbody : Statement.ListReplacedBy body body') :
    ReplacedBy (.function p body) (.function p' body') :=
  fun _ room h => ⟨hp room h.1,
    Statement.allFit_iff.1 (hbody room (Statement.allFit_iff.2 h.2))⟩

end ReplacedBy

namespace BranchesReplacedBy

theorem done : BranchesReplacedBy .done .done := fun _ _ => id

theorem otherwise {body body' : List Item} (h : ListReplacedBy body body') :
    BranchesReplacedBy (.otherwise body) (.otherwise body') :=
  fun stage room hbody => h stage room hbody

theorem elif (condition : String) {body body' : List Item} {rest rest' : Branches}
    (hbody : ListReplacedBy body body') (hrest : BranchesReplacedBy rest rest') :
    BranchesReplacedBy (.elif condition body rest) (.elif condition body' rest') :=
  fun stage room h => ⟨h.1, hbody stage room h.2.1, hrest stage room h.2.2⟩

end BranchesReplacedBy

end Item

end ShaderMinifier
