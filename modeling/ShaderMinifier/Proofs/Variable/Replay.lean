import ShaderMinifier.Proofs.Site.Restore
import ShaderMinifier.Proofs.Variable.Resolution

/-
  Renaming goes through a shader as resolving does. The variable names of a tree, and the tree with
  all of them left blank, are defined part by part; together they make up the tree. Whatever table
  is used, a renamed shader has the new names at its variable sites, in the order of the walk, and
  is the same shader once they are left blank; that the table has another number of sites is
  noticed and changes nothing else.
-/

namespace ShaderMinifier

/-! ## The variable names of a tree -/

namespace Expr

mutual

/-- The expression with its variables left blank: all that renaming cannot change. -/
def nameless : Expr → Expr
  | identifier _ => .identifier ""
  | int value => .int value
  | float value => .float value
  | bool value => .bool value
  | unary op operand => .unary op (nameless operand)
  | step op operand => .step op (nameless operand)
  | binary op left right => .binary op (nameless left) (nameless right)
  | assign op left right => .assign op (nameless left) (nameless right)
  | ternary condition whenTrue whenFalse =>
    .ternary (nameless condition) (nameless whenTrue) (nameless whenFalse)
  | index base position => .index (nameless base) (nameless position)
  | field base name => .field (nameless base) name
  | call callee args => .call callee (namelessList args)
  | sequence items => .sequence (namelessList items)

def namelessList : List Expr → List Expr
  | [] => []
  | item :: items => nameless item :: namelessList items

end

mutual

/-- The variables that are used in an expression, from left to right as `Expr.events` meets them. -/
def variableNames : Expr → List String
  | identifier name => [name]
  | int _ | float _ | bool _ => []
  | unary _ operand | step _ operand => variableNames operand
  | binary _ left right | assign _ left right => variableNames left ++ variableNames right
  | ternary condition whenTrue whenFalse =>
    variableNames condition ++ variableNames whenTrue ++ variableNames whenFalse
  | index base position => variableNames base ++ variableNames position
  | field base _ => variableNames base
  | call _ args => listVariableNames args
  | sequence items => listVariableNames items

def listVariableNames : List Expr → List String
  | [] => []
  | item :: items => variableNames item ++ listVariableNames items

end

def optionalVariableNames (value : Option Expr) : List String :=
  (value.map variableNames).getD []

end Expr

namespace MemberDeclarator

def nameless (d : MemberDeclarator) : MemberDeclarator := ⟨d.name, d.size.map Expr.nameless⟩

def variableNames (d : MemberDeclarator) : List String := Expr.optionalVariableNames d.size

end MemberDeclarator

namespace Member

def nameless (m : Member) : Member :=
  ⟨m.precision, m.type, m.declarators.map MemberDeclarator.nameless⟩

def variableNames (m : Member) : List String :=
  m.declarators.flatMap MemberDeclarator.variableNames

end Member

namespace TypeSpecifier

def nameless : TypeSpecifier → TypeSpecifier
  | named name => .named name
  | struct spec => .struct ⟨spec.name, spec.members.map Member.nameless⟩

def variableNames : TypeSpecifier → List String
  | named _ => []
  | struct spec => spec.members.flatMap Member.variableNames

end TypeSpecifier

namespace QualifiedType

def nameless (t : QualifiedType) : QualifiedType :=
  ⟨t.qualifier, t.precision, t.specifier.nameless⟩

def variableNames (t : QualifiedType) : List String := t.specifier.variableNames

end QualifiedType

namespace ArraySize

def nameless : ArraySize → ArraySize
  | unsized => .unsized
  | sized size => .sized size.nameless

def variableNames : ArraySize → List String
  | unsized => []
  | sized size => size.variableNames

end ArraySize

namespace Declarator

def nameless (d : Declarator) : Declarator :=
  ⟨"", d.array.map ArraySize.nameless, d.initializer.map Expr.nameless⟩

/-- The variables of a declarator; the declared one comes last, as in `Declarator.events`. -/
def variableNames (d : Declarator) : List String :=
  (d.array.map ArraySize.variableNames).getD [] ++ Expr.optionalVariableNames d.initializer ++
    [d.name]

end Declarator

namespace Declaration

def nameless (d : Declaration) : Declaration :=
  ⟨d.type.nameless, d.declarators.map Declarator.nameless⟩

def variableNames (d : Declaration) : List String :=
  d.type.variableNames ++ d.declarators.flatMap Declarator.variableNames

end Declaration

namespace Parameter

def nameless (p : Parameter) : Parameter :=
  { p with name := p.name.map fun _ => "", size := p.size.map Expr.nameless }

def variableNames (p : Parameter) : List String :=
  Expr.optionalVariableNames p.size ++ p.name.toList

end Parameter

namespace Prototype

def nameless (p : Prototype) : Prototype :=
  ⟨p.returnType.nameless, p.name, p.params.map Parameter.nameless⟩

def variableNames (p : Prototype) : List String :=
  p.returnType.variableNames ++ p.params.flatMap Parameter.variableNames

end Prototype

namespace SimpleStatement

def nameless : SimpleStatement → SimpleStatement
  | declaration decl => .declaration decl.nameless
  | expression value => .expression (value.map Expr.nameless)

def variableNames : SimpleStatement → List String
  | declaration decl => decl.variableNames
  | expression value => Expr.optionalVariableNames value

end SimpleStatement

namespace Statement

mutual

/-- The statement with its variables left blank, as `Expr.nameless` has expressions. -/
def nameless : Statement → Statement
  | block body => .block (namelessList body)
  | simple stmt => .simple stmt.nameless
  | ifThen condition body => .ifThen condition.nameless (nameless body)
  | ifElse condition whenTrue whenFalse =>
    .ifElse condition.nameless (nameless whenTrue) (nameless whenFalse)
  | whileLoop condition body => .whileLoop condition.nameless (nameless body)
  | doWhile body condition => .doWhile (nameless body) condition.nameless
  | forLoop init condition step body =>
    .forLoop init.nameless (condition.map Expr.nameless) (step.map Expr.nameless) (nameless body)
  | continueLoop => .continueLoop
  | breakLoop => .breakLoop
  | returnValue value => .returnValue (value.map Expr.nameless)
  | discard => .discard

def namelessList : List Statement → List Statement
  | [] => []
  | stmt :: body => nameless stmt :: namelessList body

end

mutual

/-- The variables that are declared and used in a statement, in the order of `Statement.events`. -/
def variableNames : Statement → List String
  | block body => listVariableNames body
  | simple stmt => stmt.variableNames
  | ifThen condition body | whileLoop condition body =>
    condition.variableNames ++ variableNames body
  | ifElse condition whenTrue whenFalse =>
    condition.variableNames ++ variableNames whenTrue ++ variableNames whenFalse
  | doWhile body condition => variableNames body ++ condition.variableNames
  | forLoop init condition step body =>
    init.variableNames ++ Expr.optionalVariableNames condition ++
      Expr.optionalVariableNames step ++ variableNames body
  | returnValue value => Expr.optionalVariableNames value
  | continueLoop | breakLoop | discard => []

def listVariableNames : List Statement → List String
  | [] => []
  | stmt :: body => variableNames stmt ++ listVariableNames body

end

end Statement

namespace Item

mutual

/-- The item with its variables left blank, the names of an `invariant` statement included. -/
def nameless : Item → Item
  | directive line => .directive line
  | conditional kind condition body rest =>
    .conditional kind condition (namelessList body) (namelessBranches rest)
  | precision level type => .precision level type
  | invariant names => .invariant (names.map fun _ => "")
  | declaration decl => .declaration decl.nameless
  | prototype signature => .prototype signature.nameless
  | function signature body => .function signature.nameless (Statement.namelessList body)

def namelessList : List Item → List Item
  | [] => []
  | item :: items => nameless item :: namelessList items

def namelessBranches : Branches → Branches
  | .done => .done
  | .otherwise body => .otherwise (namelessList body)
  | .elif condition body rest => .elif condition (namelessList body) (namelessBranches rest)

end

mutual

/-- The variables of an item, in every branch: those that are declared, parameters of definitions
and prototypes among them, those that are used, and those that are made `invariant`. -/
def variableNames : Item → List String
  | directive _ | precision _ _ => []
  | conditional _ _ body rest => listVariableNames body ++ branchVariableNames rest
  | invariant names => names
  | declaration decl => decl.variableNames
  | prototype signature => signature.variableNames
  | function signature body => signature.variableNames ++ Statement.listVariableNames body

def listVariableNames : List Item → List String
  | [] => []
  | item :: items => variableNames item ++ listVariableNames items

def branchVariableNames : Branches → List String
  | .done => []
  | .otherwise body => listVariableNames body
  | .elif _ body rest => listVariableNames body ++ branchVariableNames rest

end

end Item

namespace Shader

/-- The shader with all its variables left blank (`Item.nameless`). -/
def nameless (shader : Shader) : Shader := ⟨Item.namelessList shader.items⟩

/-- The variable names of a shader, in the order in which its `sites` are met. -/
def variableNames (shader : Shader) : List String := Item.listVariableNames shader.items

end Shader

/-! ## Names for the variable sites -/

/-- The `names` keep what stands at the sites, but for the `new` ones at the variable sites. -/
inductive Puts : List Site → (names new : List String) → Prop
  | nil : Puts [] [] []
  | renamed {s : Site} {sites : List Site} {names new : List String} (name : String)
      (hs : s.role.isVariable = true) (h : Puts sites names new) :
    Puts (s :: sites) (name :: names) (name :: new)
  | kept {s : Site} {sites : List Site} {names new : List String}
      (hs : s.role.isVariable = false) (h : Puts sites names new) :
    Puts (s :: sites) (s.name :: names) new

namespace Puts

variable {sites sites' : List Site} {names new : List String}

theorem split (h : Puts (sites ++ sites') names new) :
    ∃ names₁ new₁ names₂ new₂, names = names₁ ++ names₂ ∧ new = new₁ ++ new₂ ∧
      Puts sites names₁ new₁ ∧ Puts sites' names₂ new₂ := by
  induction sites generalizing names new with
  | nil => exact ⟨[], [], names, new, rfl, rfl, .nil, h⟩
  | cons s sites ih =>
    cases h with
    | renamed name hs h =>
      obtain ⟨names₁, new₁, names₂, new₂, rfl, rfl, h₁, h₂⟩ := ih h
      exact ⟨name :: names₁, name :: new₁, names₂, new₂, rfl, rfl, .renamed name hs h₁, h₂⟩
    | kept hs h =>
      obtain ⟨names₁, new₁, names₂, new₂, rfl, rfl, h₁, h₂⟩ := ih h
      exact ⟨s.name :: names₁, new₁, names₂, new₂, rfl, rfl, .kept hs h₁, h₂⟩

theorem self (sites : List Site) :
    Puts sites (sites.map Site.name)
      ((sites.filter fun s => s.role.isVariable).map Site.name) := by
  induction sites with
  | nil => exact .nil
  | cons s sites ih =>
    rw [List.filter_cons]
    split
    · rename_i hs
      exact .renamed s.name hs ih
    · rename_i hs
      exact .kept (Bool.not_eq_true _ ▸ hs) ih

/-- The names that a table leads to: `Puts` for `ShaderMinifier.renamedSites`. -/
theorem renamedSites (names : NewNames) (sites : List Site) (ids : List (Option Nat)) :
    Puts sites (ShaderMinifier.renamedSites names sites ids)
      (((sites.filter fun s => s.role.isVariable).map Site.name).mapIdx
        fun k old => ((ids[k]?).join.bind names.get).getD old) := by
  induction sites generalizing ids with
  | nil => exact .nil
  | cons s sites ih =>
    rw [List.filter_cons, ShaderMinifier.renamedSites]
    split
    · rename_i hs
      rw [List.map_cons, List.mapIdx_cons, List.head?_eq_getElem?]
      have hrest := ih ids.tail
      simp only [List.getElem?_tail] at hrest
      exact .renamed _ hs hrest
    · rename_i hs
      exact .kept (Bool.not_eq_true _ ▸ hs) (ih ids)

end Puts

/-! ## Walks -/

theorem Event.filterMap_inScope (kind : ScopeKind) (es : List Event) :
    (inScope kind es).filterMap site? = es.filterMap site? := by
  rw [inScope, List.filterMap_append, List.filterMap_cons_none rfl, List.filterMap_cons_none rfl,
    List.filterMap_nil, List.append_nil]

/-- A kind of tree with what renaming does to it: `relabel` and the two halves into which it is
taken apart. -/
structure Walk (α : Type) where
  relabel : α → Relabel α
  nameless : α → α
  variableNames : α → List String

namespace Walk

open Relabel Event

variable {α β γ δ ε : Type}

/-- Given names for the sites among these events, the tree has the new ones as its `variableNames`
and stays the same otherwise (`nameless`). -/
def Replays (w : Walk α) (x : α) (es : List Event) : Prop :=
  ∀ names new, Puts (es.filterMap site?) names new →
    ∃ y, Gives (w.relabel x) y names ∧ w.nameless y = w.nameless x ∧ w.variableNames y = new

/-- A variable name as a `Walk`: it is all name and nothing else. -/
def ofVariable : Walk String := ⟨next, fun _ => "", fun name => [name]⟩

/-- A name that is no variable's as a `Walk`: it stays. -/
def ofOther : Walk String := ⟨next, id, fun _ => []⟩

/-- Two trees, one after the other, as one `Walk`. -/
def pair (w₁ : Walk α) (w₂ : Walk β) : Walk (α × β) where
  relabel p := w₁.relabel p.1 >>= fun a => w₂.relabel p.2 >>= fun b => pure (a, b)
  nameless p := (w₁.nameless p.1, w₂.nameless p.2)
  variableNames p := w₁.variableNames p.1 ++ w₂.variableNames p.2

def list (w : Walk α) : Walk (List α) :=
  ⟨List.mapM w.relabel, List.map w.nameless, List.flatMap w.variableNames⟩

namespace Replays

variable {w : Walk ε} {w₁ : Walk α} {w₂ : Walk β} {w₃ : Walk γ} {w₄ : Walk δ}
  {a : α} {b : β} {c : γ} {d : δ} {x : ε} {es es₁ es₂ es₃ es₄ : List Event}

theorem congr (h : Replays w x es) {es' : List Event}
    (hes : es'.filterMap site? = es.filterMap site?) : Replays w x es' := by
  intro names new hputs
  rw [hes] at hputs
  exact h names new hputs

theorem other (h : Replays w x es) {e : Event} (he : e.site? = none) : Replays w x (e :: es) :=
  h.congr (List.filterMap_cons_none he)

theorem inScope (h : Replays w x es) (kind : ScopeKind) :
    Replays w x (Event.inScope kind es) :=
  h.congr (filterMap_inScope kind es)

/-! ### Trees by their parts -/

theorem hole {role : Role} (hrole : role.isVariable = true) (name : String) :
    Replays ofVariable name [.name role name] := by
  intro names new hputs
  cases hputs with
  | renamed name' _ h =>
    cases h
    exact ⟨name', fun _ => rfl, rfl, rfl⟩
  | kept hs _ => exact absurd (hs.symm.trans hrole) Bool.false_ne_true

theorem fixed {role : Role} (hrole : role.isVariable = false) (name : String) :
    Replays ofOther name [.name role name] := by
  intro names new hputs
  cases hputs with
  | renamed _ hs _ => exact absurd (hrole.symm.trans hs) Bool.false_ne_true
  | kept _ h =>
    cases h
    exact ⟨name, fun _ => rfl, rfl, rfl⟩

/-- A tree without names `Replays` no events. -/
theorem const (hw : w.relabel x = pure x ∧ w.variableNames x = []) : Replays w x [] := by
  intro names new hputs
  cases hputs
  refine ⟨x, ?_, rfl, hw.2⟩
  rw [hw.1]
  exact fun _ => rfl

theorem map {g : α → ε}
    (hw : ∀ a, w.relabel (g a) = (w₁.relabel a >>= fun a => pure (g a)) ∧
      w.nameless (g a) = g (w₁.nameless a) ∧ w.variableNames (g a) = w₁.variableNames a)
    (ha : Replays w₁ a es) : Replays w (g a) es := by
  intro names new hputs
  obtain ⟨a', hgives, hnameless, hnames⟩ := ha names new hputs
  refine ⟨g a', ?_, ?_, ?_⟩
  · rw [(hw a).1]
    exact hgives.map
  · rw [(hw a').2.1, (hw a).2.1, hnameless]
  · rw [(hw a').2.2, hnames]

theorem map₂ {g : α → β → ε}
    (hw : ∀ a b, w.relabel (g a b) =
        (w₁.relabel a >>= fun a => w₂.relabel b >>= fun b => pure (g a b)) ∧
      w.nameless (g a b) = g (w₁.nameless a) (w₂.nameless b) ∧
      w.variableNames (g a b) = w₁.variableNames a ++ w₂.variableNames b)
    (ha : Replays w₁ a es₁) (hb : Replays w₂ b es₂) : Replays w (g a b) (es₁ ++ es₂) := by
  intro names new hputs
  rw [List.filterMap_append] at hputs
  obtain ⟨names₁, new₁, names₂, new₂, rfl, rfl, h₁, h₂⟩ := hputs.split
  obtain ⟨a', hgives₁, hnameless₁, hnames₁⟩ := ha names₁ new₁ h₁
  obtain ⟨b', hgives₂, hnameless₂, hnames₂⟩ := hb names₂ new₂ h₂
  refine ⟨g a' b', ?_, ?_, ?_⟩
  · rw [(hw a b).1]
    exact hgives₁.bind hgives₂.map
  · rw [(hw a' b').2.1, (hw a b).2.1, hnameless₁, hnameless₂]
  · rw [(hw a' b').2.2, hnames₁, hnames₂]

theorem pair (ha : Replays w₁ a es₁) (hb : Replays w₂ b es₂) :
    Replays (w₁.pair w₂) (a, b) (es₁ ++ es₂) :=
  map₂ (g := Prod.mk) (fun _ _ => ⟨rfl, rfl, rfl⟩) ha hb

theorem map₃ {g : α → β → γ → ε}
    (hw : ∀ a b c, w.relabel (g a b c) = (w₁.relabel a >>= fun a => w₂.relabel b >>= fun b =>
        w₃.relabel c >>= fun c => pure (g a b c)) ∧
      w.nameless (g a b c) = g (w₁.nameless a) (w₂.nameless b) (w₃.nameless c) ∧
      w.variableNames (g a b c) =
        w₁.variableNames a ++ w₂.variableNames b ++ w₃.variableNames c)
    (ha : Replays w₁ a es₁) (hb : Replays w₂ b es₂) (hc : Replays w₃ c es₃) :
    Replays w (g a b c) (es₁ ++ es₂ ++ es₃) :=
  map₂ (g := fun p c => g p.1 p.2 c) (fun p c => hw p.1 p.2 c) (pair ha hb) hc

theorem map₄ {g : α → β → γ → δ → ε}
    (hw : ∀ a b c d, w.relabel (g a b c d) = (w₁.relabel a >>= fun a => w₂.relabel b >>= fun b =>
        w₃.relabel c >>= fun c => w₄.relabel d >>= fun d => pure (g a b c d)) ∧
      w.nameless (g a b c d) =
        g (w₁.nameless a) (w₂.nameless b) (w₃.nameless c) (w₄.nameless d) ∧
      w.variableNames (g a b c d) =
        w₁.variableNames a ++ w₂.variableNames b ++ w₃.variableNames c ++ w₄.variableNames d)
    (ha : Replays w₁ a es₁) (hb : Replays w₂ b es₂) (hc : Replays w₃ c es₃)
    (hd : Replays w₄ d es₄) : Replays w (g a b c d) (es₁ ++ es₂ ++ es₃ ++ es₄) :=
  map₃ (g := fun p c d => g p.1 p.2 c d) (fun p c d => hw p.1 p.2 c d) (pair ha hb) hc hd

theorem list {events : α → List Event} {xs : List α}
    (h : ∀ x ∈ xs, Replays w₁ x (events x)) : Replays w₁.list xs (xs.flatMap events) := by
  induction xs with
  | nil => exact const ⟨rfl, rfl⟩
  | cons x xs ih =>
    rw [List.flatMap_cons]
    refine map₂ (g := List.cons) ?_ (h x (by simp)) (ih fun y hy => h y (by simp [hy]))
    exact fun _ _ => ⟨List.mapM_cons, rfl, List.flatMap_cons⟩

end Replays

end Walk

open Walk Relabel

/-! ## Expressions -/

namespace Expr

def walk : Walk Expr := ⟨relabel, nameless, variableNames⟩

def listWalk : Walk (List Expr) := ⟨relabelList, namelessList, listVariableNames⟩

def optionWalk : Walk (Option Expr) :=
  ⟨relabelOption, Option.map nameless, optionalVariableNames⟩

mutual

theorem replays : (e : Expr) → walk.Replays e e.events
  | identifier name => .map (fun _ => ⟨rfl, rfl, rfl⟩) (.hole rfl name)
  | int _ | float _ | bool _ => .const ⟨rfl, rfl⟩
  | unary _ operand | step _ operand => .map (fun _ => ⟨rfl, rfl, rfl⟩) (replays operand)
  | binary _ left right | assign _ left right | index left right =>
    .map₂ (fun _ _ => ⟨rfl, rfl, rfl⟩) (replays left) (replays right)
  | ternary condition whenTrue whenFalse =>
    .map₃ (fun _ _ _ => ⟨rfl, rfl, rfl⟩) (replays condition) (replays whenTrue)
      (replays whenFalse)
  | field base name =>
    .map₂ (fun _ _ => ⟨rfl, rfl, (List.append_nil _).symm⟩) (replays base) (.fixed rfl name)
  | call callee args => by
    have hcallee : ofOther.Replays callee [.name (.callee args.length) callee] := .fixed rfl callee
    exact .map₂ (g := call) (fun _ _ => ⟨rfl, rfl, rfl⟩) hcallee (replays_list args)
  | sequence items => .map (fun _ => ⟨rfl, rfl, rfl⟩) (replays_list items)

theorem replays_list : (items : List Expr) → listWalk.Replays items (listEvents items)
  | [] => .const ⟨rfl, rfl⟩
  | item :: items => .map₂ (fun _ _ => ⟨rfl, rfl, rfl⟩) (replays item) (replays_list items)

end

theorem replays_option (value : Option Expr) :
    optionWalk.Replays value (optionalEvents value) := by
  cases value with
  | none => exact .const ⟨rfl, rfl⟩
  | some e => exact .map (fun _ => ⟨rfl, rfl, rfl⟩) (replays e)

end Expr

/-! ## Declarations -/

namespace MemberDeclarator

def walk : Walk MemberDeclarator := ⟨relabel, nameless, variableNames⟩

theorem replays (d : MemberDeclarator) : walk.Replays d d.events :=
  .map₂ (g := fun size name => MemberDeclarator.mk name size)
    (fun _ _ => ⟨rfl, rfl, (List.append_nil _).symm⟩) (Expr.replays_option d.size)
    (.fixed rfl d.name)

end MemberDeclarator

namespace Member

def walk : Walk Member := ⟨relabel, nameless, variableNames⟩

theorem replays (m : Member) : walk.Replays m m.events := by
  have htype : ofOther.Replays m.type [.name .type m.type] := .fixed rfl m.type
  exact .map₂ (g := Member.mk m.precision) (fun _ _ => ⟨rfl, rfl, rfl⟩) htype
    (.list fun d _ => MemberDeclarator.replays d)

end Member

namespace TypeSpecifier

def walk : Walk TypeSpecifier := ⟨relabel, nameless, variableNames⟩

/-- The name of a struct, if it has one, as a `Walk`: it is no variable's. -/
def structNameWalk : Walk (Option String) := ⟨nextOption, id, fun _ => []⟩

theorem replays_structName (name : Option String) :
    structNameWalk.Replays name (name.map fun name => Event.name .type name).toList := by
  cases name with
  | none => exact .const ⟨rfl, rfl⟩
  | some name => exact .map (fun _ => ⟨rfl, rfl, rfl⟩) (.fixed rfl name)

theorem replays (t : TypeSpecifier) : walk.Replays t t.events := by
  cases t with
  | named name => exact .map (fun _ => ⟨rfl, rfl, rfl⟩) (.fixed rfl name)
  | struct spec =>
    exact .map₂ (g := fun name members => struct ⟨name, members⟩) (fun _ _ => ⟨rfl, rfl, rfl⟩)
      (replays_structName spec.name) (.list fun m _ => Member.replays m)

end TypeSpecifier

namespace QualifiedType

def walk : Walk QualifiedType := ⟨relabel, nameless, variableNames⟩

theorem replays (t : QualifiedType) : walk.Replays t t.specifier.events :=
  .map (g := QualifiedType.mk t.qualifier t.precision) (fun _ => ⟨rfl, rfl, rfl⟩)
    t.specifier.replays

end QualifiedType

namespace ArraySize

def optionWalk : Walk (Option ArraySize) :=
  ⟨relabelOption, Option.map nameless, fun array => (array.map variableNames).getD []⟩

theorem replays_option (array : Option ArraySize) :
    optionWalk.Replays array ((array.map ArraySize.events).getD []) := by
  cases array with
  | none => exact .const ⟨rfl, rfl⟩
  | some size =>
    cases size with
    | unsized => exact .const ⟨rfl, rfl⟩
    | sized size =>
      exact .map (g := fun size => some (sized size)) (fun _ => ⟨rfl, rfl, rfl⟩) size.replays

end ArraySize

namespace Declarator

def walk : Walk Declarator := ⟨relabel, nameless, variableNames⟩

theorem replays (placement : Placement) (type : QualifiedType) (d : Declarator) :
    walk.Replays d (d.events placement type) :=
  .map₃ (g := fun array value name => Declarator.mk name array value)
    (fun _ _ _ => ⟨rfl, rfl, rfl⟩) (ArraySize.replays_option d.array)
    (Expr.replays_option d.initializer) (.hole rfl d.name)

end Declarator

namespace Declaration

def walk : Walk Declaration := ⟨relabel, nameless, variableNames⟩

theorem replays (placement : Placement) (d : Declaration) :
    walk.Replays d (d.events placement) :=
  .map₂ (g := Declaration.mk) (fun _ _ => ⟨rfl, rfl, rfl⟩) d.type.replays
    (.list fun x _ => Declarator.replays placement d.type x)

end Declaration

namespace Parameter

def walk : Walk Parameter := ⟨relabel, nameless, variableNames⟩

/-- The name of a parameter, if it has one, as a `Walk`: it is a variable's. -/
def nameWalk : Walk (Option String) := ⟨nextOption, Option.map fun _ => "", Option.toList⟩

theorem replays_name (name : Option String) :
    nameWalk.Replays name (name.map fun name => Event.name .parameter name).toList := by
  cases name with
  | none => exact .const ⟨rfl, rfl⟩
  | some name => exact .map (fun _ => ⟨rfl, rfl, rfl⟩) (.hole rfl name)

theorem replays (p : Parameter) : walk.Replays p p.events := by
  have htype : ofOther.Replays p.type [.name .type p.type] := .fixed rfl p.type
  exact .map₃ (w := walk) (g := fun type size name => { p with type, size, name })
    (fun _ _ _ => ⟨rfl, rfl, rfl⟩) htype (Expr.replays_option p.size) (replays_name p.name)

end Parameter

namespace Prototype

def walk : Walk Prototype := ⟨relabel, nameless, variableNames⟩

theorem replays (p : Prototype) : walk.Replays p (p.headEvents ++ p.paramEvents) :=
  .map₃ (g := Prototype.mk)
    (fun _ _ _ => ⟨rfl, rfl, congrArg (· ++ _) (List.append_nil _).symm⟩)
    p.returnType.replays (.fixed rfl p.name) (.list fun x _ => Parameter.replays x)

end Prototype

/-! ## Statements -/

namespace SimpleStatement

def walk : Walk SimpleStatement := ⟨relabel, nameless, variableNames⟩

theorem replays (s : SimpleStatement) : walk.Replays s s.events := by
  cases s with
  | declaration decl => exact .map (fun _ => ⟨rfl, rfl, rfl⟩) (decl.replays .inBody)
  | expression value => exact .map (fun _ => ⟨rfl, rfl, rfl⟩) (Expr.replays_option value)

end SimpleStatement

namespace Statement

def walk : Walk Statement := ⟨relabel, nameless, variableNames⟩

def listWalk : Walk (List Statement) := ⟨relabelList, namelessList, listVariableNames⟩

mutual

theorem replays : (s : Statement) → walk.Replays s s.events
  | block body =>
    .inScope (.map (w := walk) (g := block) (fun _ => ⟨rfl, rfl, rfl⟩) (replays_list body)) .block
  | simple stmt => .map (fun _ => ⟨rfl, rfl, rfl⟩) stmt.replays
  | ifThen condition body | whileLoop condition body =>
    .map₂ (fun _ _ => ⟨rfl, rfl, rfl⟩) condition.replays (replays body)
  | ifElse condition whenTrue whenFalse =>
    .map₃ (fun _ _ _ => ⟨rfl, rfl, rfl⟩) condition.replays (replays whenTrue) (replays whenFalse)
  | doWhile body condition =>
    .map₂ (fun _ _ => ⟨rfl, rfl, rfl⟩) (replays body) condition.replays
  | forLoop init condition step body =>
    .inScope (.map₄ (w := walk) (g := forLoop) (fun _ _ _ _ => ⟨rfl, rfl, rfl⟩) init.replays
      (Expr.replays_option condition) (Expr.replays_option step) (replays body)) .block
  | returnValue value => .map (fun _ => ⟨rfl, rfl, rfl⟩) (Expr.replays_option value)
  | continueLoop | breakLoop | discard => .const ⟨rfl, rfl⟩

theorem replays_list : (body : List Statement) → listWalk.Replays body (listEvents body)
  | [] => .const ⟨rfl, rfl⟩
  | stmt :: body => .map₂ (fun _ _ => ⟨rfl, rfl, rfl⟩) (replays stmt) (replays_list body)

end

end Statement

/-! ## Items -/

namespace Item

open Event (filterMap_inScope)

def walk : Walk Item := ⟨relabel, nameless, variableNames⟩

def listWalk : Walk (List Item) := ⟨relabelList, namelessList, listVariableNames⟩

def branchWalk : Walk Branches := ⟨relabelBranches, namelessBranches, branchVariableNames⟩

theorem replays_names (names : List String) :
    ofVariable.list.Replays names (names.map (Event.name .use)) := by
  have hnames : names.map (Event.name .use) = names.flatMap fun name => [Event.name .use name] := by
    rw [← List.map_eq_flatMap]
  rw [hnames]
  exact .list fun name _ => .hole rfl name

mutual

theorem replays : (i : Item) → walk.Replays i i.events
  | directive _ => .other (.const ⟨rfl, rfl⟩) rfl
  | conditional kind condition body rest => by
    have hbranches : walk.Replays (conditional kind condition body rest)
        (listEvents body ++ branchEvents rest) :=
      .map₂ (fun _ _ => ⟨rfl, rfl, rfl⟩) (replays_list body) (replays_branches rest)
    exact hbranches.other rfl
  | precision _ type => .map (fun _ => ⟨rfl, rfl, rfl⟩) (.fixed rfl type)
  | invariant names =>
    .map (fun _ => ⟨rfl, rfl, (List.flatMap_singleton' _).symm⟩) (replays_names names)
  | declaration decl => .map (fun _ => ⟨rfl, rfl, rfl⟩) (decl.replays .topLevel)
  | prototype signature => by
    have hsignature : walk.Replays (prototype signature)
        (signature.headEvents ++ signature.paramEvents) :=
      .map (fun _ => ⟨rfl, rfl, rfl⟩) signature.replays
    refine hsignature.congr ?_
    simp only [events, List.filterMap_append, filterMap_inScope]
  | function signature body => by
    have hfunction : walk.Replays (function signature body)
        (signature.headEvents ++ signature.paramEvents ++ Statement.listEvents body) :=
      .map₂ (fun _ _ => ⟨rfl, rfl, rfl⟩) signature.replays (Statement.replays_list body)
    refine hfunction.congr ?_
    simp only [events, List.filterMap_append, filterMap_inScope, List.append_assoc]

theorem replays_list : (items : List Item) → listWalk.Replays items (listEvents items)
  | [] => .const ⟨rfl, rfl⟩
  | item :: items => .map₂ (fun _ _ => ⟨rfl, rfl, rfl⟩) (replays item) (replays_list items)

theorem replays_branches : (b : Branches) → branchWalk.Replays b (branchEvents b)
  | .done => .const ⟨rfl, rfl⟩
  | .otherwise body => .map (fun _ => ⟨rfl, rfl, rfl⟩) (replays_list body)
  | .elif condition body rest => by
    have hbranches : branchWalk.Replays (.elif condition body rest)
        (listEvents body ++ branchEvents rest) :=
      .map₂ (fun _ _ => ⟨rfl, rfl, rfl⟩) (replays_list body) (replays_branches rest)
    exact hbranches.other rfl

end

end Item

/-! ## Shaders -/

namespace Shader

theorem variableNames_eq (shader : Shader) :
    shader.variableNames = shader.variableSites.map Site.name := by
  obtain ⟨items, hgives, -, hnames⟩ :=
    Item.replays_list shader.items _ _ (Puts.self shader.sites)
  have hown : Relabel.Gives (Item.relabelList shader.items) shader.items
      (shader.sites.map Site.name) := (Item.restores_relabelList shader.items).own
  obtain rfl : items = shader.items := hgives.unique hown
  exact hnames

theorem replays_renameVariables (shader : Shader) (ids : List (Option Nat)) (names : NewNames) :
    (shader.renameVariables ids names).nameless = shader.nameless ∧
      (shader.renameVariables ids names).variableNames = shader.variableNames.mapIdx
        fun k old => ((ids[k]?).join.bind names.get).getD old := by
  obtain ⟨items, hgives, hnameless, hnames⟩ :=
    Item.replays_list shader.items _ _ (Puts.renamedSites names shader.sites ids)
  have hitems : shader.renameVariables ids names = ⟨items⟩ := congrArg Shader.mk hgives.fst_eq
  rw [hitems, shader.variableNames_eq]
  exact ⟨congrArg Shader.mk hnameless, hnames⟩

theorem checkSites_eq_ok_iff (shader : Shader) (ids : List (Option Nat)) :
    shader.checkSites ids = .ok () ↔ shader.variableNames.length = ids.length := by
  rw [checkSites, variableNames_eq, List.length_map]
  by_cases h : shader.variableSites.length = ids.length <;> simp [h]

end Shader

/-- `renameVariables` on a stage by any table and any new names puts each new name at the variable
sites that the table gives to its binding, and changes nothing else (`nameless`). It goes well, by
`checkSites`, exactly if the table has as many sites as the shader has variable names, as the table
made from the shader always has. -/
theorem Program.renameVariables_replays (shader : Shader) (bindings : StageBindings)
    (names : NewNames) :
    (shader.checkSites bindings.sites = .ok () ↔
        shader.variableNames.length = bindings.sites.length) ∧
      (shader.renameVariables bindings.sites names).nameless = shader.nameless ∧
      (shader.renameVariables bindings.sites names).variableNames =
        shader.variableNames.mapIdx
          (fun k old => ((bindings.sites[k]?).join.bind names.get).getD old) ∧
      ∀ vertex fragment, ∃ table,
        (BindingTable.build ⟨some vertex, some fragment⟩).result = .ok table ∧
        ∀ stage, ∃ own built, (Program.mk (some vertex) (some fragment)).shader stage = .ok own ∧
          table.stage stage = .ok built ∧ own.checkSites built.sites = .ok () := by
  obtain ⟨hnameless, hnames⟩ := shader.replays_renameVariables bindings.sites names
  refine ⟨shader.checkSites_eq_ok_iff bindings.sites, hnameless, hnames, fun vertex fragment => ?_⟩
  refine ⟨_, result_build vertex fragment, fun stage => ?_⟩
  have hsites : ∀ (stage : Stage) (earlier : List Binding) (own : Shader),
      own.checkSites (Resolver.run stage earlier own).sites = .ok () :=
    fun stage earlier own => if_pos (Resolver.length_sites_run stage earlier own).symm
  cases stage with
  | vertex => exact ⟨vertex, _, rfl, rfl, hsites _ _ _⟩
  | fragment => exact ⟨fragment, _, rfl, rfl, hsites _ _ _⟩

end ShaderMinifier
