import ShaderMinifier.Site.DirectiveWord

/-
  How the scopes of a shader nest. Functions and prototypes stand at the top, blocks inside
  functions; a declaration stands at the top or inside a function, a parameter at the start of a
  scope that is opened for it. Expressions and types declare nothing, bodies declare no globals
  and open no functions. The preprocessor reads nothing but directives and conditionals.
-/

namespace ShaderMinifier

/-- The role declares a variable, so it matters where the event stands (`Leads`). -/
def Role.declares : Role → Bool
  | declared _ _ _ | parameter => true
  | type | field | function _ | use | callee _ => false

/-- The event is a name that declares no variable (`declares`); it may stand anywhere. -/
def Event.isPlain : Event → Bool
  | site s => !s.role.declares
  | directive _ | conditional _ _ | elif _ | enter _ | leave => false

/-- A place among nested scopes: outside all of them, in the parameters of a prototype, or in a
function. -/
inductive Place where
  | top
  | prototype
  /-- Inside a function and this many blocks; parameters stand in `body 0`. -/
  | body (blocks : Nat)

/-- The event can stand at the first `Place` and leads to the second. This is what `Item.events`
guarantees and `Resolver.step` relies on. -/
inductive Event.Leads : Place → Event → Place → Prop
  | directive (line : Directive) : Leads .top (.directive line) .top
  | conditional (kind : ConditionalKind) (condition : String) :
    Leads .top (.conditional kind condition) .top
  | elif (condition : String) : Leads .top (.elif condition) .top
  | plain {place : Place} {s : Site} (h : s.role.declares = false) :
    Leads place (.site s) place
  | declaredGlobal (type : QualifiedType) (d : Declarator) (name : String) :
    Leads .top (.site ⟨.declared .topLevel type d, name⟩) .top
  | declaredLocal (type : QualifiedType) (d : Declarator) (name : String) (blocks : Nat) :
    Leads (.body blocks) (.site ⟨.declared .inBody type d, name⟩) (.body blocks)
  | parameter (name : String) : Leads (.body 0) (.site ⟨.parameter, name⟩) (.body 0)
  | prototypeParameter (name : String) :
    Leads .prototype (.site ⟨.parameter, name⟩) .prototype
  | enterFunction : Leads .top (.enter .function) (.body 0)
  | enterPrototype : Leads .top (.enter .prototype) .prototype
  | enterBlock (blocks : Nat) : Leads (.body blocks) (.enter .block) (.body (blocks + 1))
  | leaveFunction : Leads (.body 0) .leave .top
  | leavePrototype : Leads .prototype .leave .top
  | leaveBlock (blocks : Nat) : Leads (.body (blocks + 1)) .leave (.body blocks)

/-- The events can stand in a row from the first `Place` on and lead to the second, each by
`Leads`. -/
inductive Nested : Place → List Event → Place → Prop
  | nil {place : Place} : Nested place [] place
  | cons {place next last : Place} {e : Event} {es : List Event} (he : e.Leads place next)
      (h : Nested next es last) : Nested place (e :: es) last

namespace Nested

variable {place next last : Place} {es fs : List Event}

theorem append (h : Nested place es next) (h' : Nested next fs last) :
    Nested place (es ++ fs) last := by
  induction h with
  | nil => exact h'
  | cons he _ ih => exact .cons he (ih h')

theorem uncons {e : Event} (h : Nested place (e :: es) last) :
    ∃ next, e.Leads place next ∧ Nested next es last := by
  cases h with
  | cons he h => exact ⟨_, he, h⟩

theorem singleton {e : Event} (he : e.Leads place next) : Nested place [e] next :=
  .cons he .nil

theorem ofPlain (h : ∀ e ∈ es, e.isPlain = true) (place : Place) : Nested place es place := by
  induction es with
  | nil => exact .nil
  | cons e es ih =>
    have he : e.isPlain = true := h e (by simp)
    have hlead : e.Leads place place := by
      cases e with
      | site s => exact .plain (by simpa [Event.isPlain] using he)
      | directive _ => cases he
      | conditional _ _ => cases he
      | elif _ => cases he
      | enter _ => cases he
      | leave => cases he
    exact .cons hlead (ih fun f hf => h f (by simp [hf]))

theorem flatMap {α : Type} {f : α → List Event} {xs : List α}
    (h : ∀ x ∈ xs, Nested place (f x) place) : Nested place (xs.flatMap f) place := by
  induction xs with
  | nil => exact .nil
  | cons x xs ih =>
    rw [List.flatMap_cons]
    exact (h x (by simp)).append (ih fun y hy => h y (by simp [hy]))

theorem block {blocks : Nat} (h : Nested (.body (blocks + 1)) es (.body (blocks + 1))) :
    Nested (.body blocks) (Event.inScope .block es) (.body blocks) :=
  .cons (.enterBlock blocks) (h.append (singleton (.leaveBlock blocks)))

end Nested

/-! ## Expressions and types -/

namespace Expr

mutual

theorem isPlain_events : (x : Expr) → ∀ e ∈ x.events, e.isPlain = true
  | identifier _ => by simp [events, Event.name, Event.isPlain, Role.declares]
  | int _ | float _ | bool _ => by simp [events]
  | unary _ operand | step _ operand => isPlain_events operand
  | binary _ left right | assign _ left right | index left right => by
    rw [events, List.forall_mem_append]
    exact ⟨isPlain_events left, isPlain_events right⟩
  | ternary condition whenTrue whenFalse => by
    rw [events, List.forall_mem_append, List.forall_mem_append]
    exact ⟨⟨isPlain_events condition, isPlain_events whenTrue⟩, isPlain_events whenFalse⟩
  | field base _ => by
    rw [events, List.forall_mem_append]
    exact ⟨isPlain_events base, by simp [Event.name, Event.isPlain, Role.declares]⟩
  | call _ args => by
    rw [events, List.forall_mem_cons]
    exact ⟨rfl, isPlain_listEvents args⟩
  | sequence items => isPlain_listEvents items

theorem isPlain_listEvents : (xs : List Expr) → ∀ e ∈ listEvents xs, e.isPlain = true
  | [] => by simp [listEvents]
  | x :: xs => by
    rw [listEvents, List.forall_mem_append]
    exact ⟨isPlain_events x, isPlain_listEvents xs⟩

end

theorem isPlain_optionalEvents (value : Option Expr) :
    ∀ e ∈ optionalEvents value, e.isPlain = true := by
  cases value with
  | none => simp [optionalEvents]
  | some x => exact isPlain_events x

end Expr

theorem Member.isPlain_events (m : Member) : ∀ e ∈ m.events, e.isPlain = true := by
  rw [events, List.forall_mem_cons, List.forall_mem_flatMap]
  refine ⟨rfl, fun d _ => ?_⟩
  rw [MemberDeclarator.events, List.forall_mem_append]
  exact ⟨Expr.isPlain_optionalEvents d.size, by simp [Event.name, Event.isPlain, Role.declares]⟩

theorem TypeSpecifier.isPlain_events (t : TypeSpecifier) :
    ∀ e ∈ t.events, e.isPlain = true := by
  cases t with
  | named name => simp [events, Event.name, Event.isPlain, Role.declares]
  | struct spec =>
    rw [events, StructType.events, List.forall_mem_append, List.forall_mem_flatMap]
    refine ⟨?_, fun m _ => m.isPlain_events⟩
    cases spec.name <;> simp [Event.name, Event.isPlain, Role.declares]

theorem ArraySize.isPlain_events (array : Option ArraySize) :
    ∀ e ∈ (array.map ArraySize.events).getD [], e.isPlain = true := by
  cases array with
  | none => simp
  | some size =>
    cases size with
    | unsized => simp [events]
    | sized size => exact size.isPlain_events

/-! ## Declarations -/

/-- Where a declaration of a `Placement` stands: a global outside all scopes, a local in a body. -/
inductive Placement.Stands : Placement → Place → Prop
  | topLevel : Stands .topLevel .top
  | inBody (blocks : Nat) : Stands .inBody (.body blocks)

theorem Declarator.nested_events {placement : Placement} {place : Place}
    (h : placement.Stands place) (type : QualifiedType) (d : Declarator) :
    Nested place (d.events placement type) place := by
  refine ((Nested.ofPlain (ArraySize.isPlain_events d.array) place).append
    (.ofPlain (Expr.isPlain_optionalEvents d.initializer) place)).append (.singleton ?_)
  cases h with
  | topLevel => exact .declaredGlobal type d d.name
  | inBody blocks => exact .declaredLocal type d d.name blocks

theorem Declaration.nested_events {placement : Placement} {place : Place}
    (h : placement.Stands place) (d : Declaration) :
    Nested place (d.events placement) place :=
  (Nested.ofPlain d.type.specifier.isPlain_events place).append
    (.flatMap fun x _ => x.nested_events h d.type)

theorem Parameter.nested_events {place : Place}
    (h : ∀ name, (Event.name .parameter name).Leads place place) (p : Parameter) :
    Nested place p.events place := by
  refine Nested.append (.cons (.plain rfl) (.ofPlain (Expr.isPlain_optionalEvents p.size) place)) ?_
  cases p.name with
  | none => exact .nil
  | some name => exact .singleton (h name)

theorem Prototype.isPlain_headEvents (p : Prototype) :
    ∀ e ∈ p.headEvents, e.isPlain = true := by
  rw [headEvents, List.forall_mem_append]
  exact ⟨p.returnType.specifier.isPlain_events,
    by simp [Event.name, Event.isPlain, Role.declares]⟩

theorem Prototype.nested_headEvents (p : Prototype) : Nested .top p.headEvents .top :=
  .ofPlain p.isPlain_headEvents .top

/-! ## Statements and items -/

theorem SimpleStatement.nested_events (s : SimpleStatement) (blocks : Nat) :
    Nested (.body blocks) s.events (.body blocks) := by
  cases s with
  | declaration decl => exact decl.nested_events (.inBody blocks)
  | expression value => exact .ofPlain (Expr.isPlain_optionalEvents value) _

namespace Statement

mutual

theorem nested_events : (s : Statement) → (blocks : Nat) →
    Nested (.body blocks) s.events (.body blocks)
  | block body, blocks => Nested.block (nested_listEvents body (blocks + 1))
  | simple stmt, blocks => stmt.nested_events blocks
  | ifThen condition body, blocks | whileLoop condition body, blocks =>
    (Nested.ofPlain condition.isPlain_events _).append (nested_events body blocks)
  | ifElse condition whenTrue whenFalse, blocks =>
    ((Nested.ofPlain condition.isPlain_events _).append (nested_events whenTrue blocks)).append
      (nested_events whenFalse blocks)
  | doWhile body condition, blocks =>
    (nested_events body blocks).append (.ofPlain condition.isPlain_events _)
  | forLoop init condition step body, blocks =>
    Nested.block ((((init.nested_events (blocks + 1)).append
      (.ofPlain (Expr.isPlain_optionalEvents condition) _)).append
      (.ofPlain (Expr.isPlain_optionalEvents step) _)).append (nested_events body (blocks + 1)))
  | returnValue value, _ => .ofPlain (Expr.isPlain_optionalEvents value) _
  | continueLoop, _ | breakLoop, _ | discard, _ => .nil

theorem nested_listEvents : (body : List Statement) → (blocks : Nat) →
    Nested (.body blocks) (listEvents body) (.body blocks)
  | [], _ => .nil
  | stmt :: body, blocks => (nested_events stmt blocks).append (nested_listEvents body blocks)

end

end Statement

namespace Item

mutual

theorem nested_events : (i : Item) → Nested .top i.events .top
  | directive line => .singleton (.directive line)
  | conditional kind condition body rest =>
    .cons (.conditional kind condition) ((nested_listEvents body).append (nested_branchEvents rest))
  | precision _ _ => .singleton (.plain rfl)
  | invariant names => .ofPlain (by simp [events, Event.name, Event.isPlain, Role.declares]) .top
  | declaration decl => decl.nested_events .topLevel
  | prototype signature =>
    signature.nested_headEvents.append (.cons .enterPrototype
      ((Nested.flatMap fun p _ => p.nested_events .prototypeParameter).append
        (.singleton .leavePrototype)))
  | function signature body =>
    signature.nested_headEvents.append (.cons .enterFunction
      (((Nested.flatMap fun p _ => p.nested_events .parameter).append
        (Statement.nested_listEvents body 0)).append (.singleton .leaveFunction)))

theorem nested_listEvents : (items : List Item) → Nested .top (listEvents items) .top
  | [] => .nil
  | item :: items => (nested_events item).append (nested_listEvents items)

theorem nested_branchEvents : (b : Branches) → Nested .top (branchEvents b) .top
  | .done => .nil
  | .otherwise body => nested_listEvents body
  | .elif condition body rest =>
    .cons (.elif condition) ((nested_listEvents body).append (nested_branchEvents rest))

end

end Item

/-- The scopes of a shader nest, and all of them are closed at its end: its `events` are `Nested`
from `top` to `top`. -/
theorem Shader.nested_events (shader : Shader) : Nested .top shader.events .top :=
  Item.nested_listEvents shader.items

/-! ## What stands inside functions -/

/-- The event can stand in a signature or in a body: a name that declares no global, or the `enter`
or `leave` of a block. -/
def Event.isInner : Event → Bool
  | site ⟨.declared .topLevel _ _, _⟩ => false
  | site _ | enter .block | leave => true
  | enter .function | enter .prototype | directive _ | conditional _ _ | elif _ => false

/-- All of these events can stand in a signature or in a body (`isInner`). -/
def Event.Inner (es : List Event) : Prop := ∀ e ∈ es, e.isInner = true

namespace Event.Inner

variable {es fs : List Event}

theorem append (h : Inner es) (h' : Inner fs) : Inner (es ++ fs) :=
  List.forall_mem_append.2 ⟨h, h'⟩

theorem cons {e : Event} (he : e.isInner = true) (h : Inner es) : Inner (e :: es) :=
  List.forall_mem_cons.2 ⟨he, h⟩

theorem nil : Inner [] := fun _ he => by cases he

theorem flatMap {α : Type} {f : α → List Event} {xs : List α} (h : ∀ x ∈ xs, Inner (f x)) :
    Inner (xs.flatMap f) :=
  List.forall_mem_flatMap.2 h

theorem block (h : Inner es) : Inner (Event.inScope .block es) :=
  append (cons rfl h) (cons rfl nil)

theorem ofPlain (h : ∀ e ∈ es, e.isPlain = true) : Inner es := by
  intro e he
  have hplain := h e he
  cases e with
  | site s =>
    obtain ⟨role, name⟩ := s
    cases role with
    | declared _ _ _ => cases hplain
    | type | field | function _ | parameter | use | callee _ => rfl
  | directive _ | conditional _ _ | elif _ | enter _ | leave => cases hplain

end Event.Inner

open Event (Inner)

theorem Prototype.inner_headEvents (p : Prototype) : Inner p.headEvents :=
  .ofPlain p.isPlain_headEvents

theorem Prototype.inner_paramEvents (p : Prototype) : Inner p.paramEvents := by
  refine Inner.flatMap fun x _ => ?_
  refine Inner.append (.cons rfl (.ofPlain (Expr.isPlain_optionalEvents x.size))) ?_
  cases x.name with
  | none => exact .nil
  | some name => exact .cons rfl .nil

theorem SimpleStatement.inner_events (s : SimpleStatement) : Inner s.events := by
  cases s with
  | declaration decl =>
    refine (Inner.ofPlain decl.type.specifier.isPlain_events).append (.flatMap fun d _ => ?_)
    exact ((Inner.ofPlain (ArraySize.isPlain_events d.array)).append
      (.ofPlain (Expr.isPlain_optionalEvents d.initializer))).append (.cons rfl .nil)
  | expression value => exact .ofPlain (Expr.isPlain_optionalEvents value)

namespace Statement

mutual

theorem inner_events : (s : Statement) → Inner s.events
  | block body => (inner_listEvents body).block
  | simple stmt => stmt.inner_events
  | ifThen condition body | whileLoop condition body =>
    (Inner.ofPlain condition.isPlain_events).append (inner_events body)
  | ifElse condition whenTrue whenFalse =>
    ((Inner.ofPlain condition.isPlain_events).append (inner_events whenTrue)).append
      (inner_events whenFalse)
  | doWhile body condition => (inner_events body).append (.ofPlain condition.isPlain_events)
  | forLoop init condition step body =>
    (((init.inner_events.append (.ofPlain (Expr.isPlain_optionalEvents condition))).append
      (.ofPlain (Expr.isPlain_optionalEvents step))).append (inner_events body)).block
  | returnValue value => .ofPlain (Expr.isPlain_optionalEvents value)
  | continueLoop | breakLoop | discard => .nil

theorem inner_listEvents : (body : List Statement) → Inner (listEvents body)
  | [] => .nil
  | stmt :: body => (inner_events stmt).append (inner_listEvents body)

end

end Statement

/-! ## What the preprocessor reads -/

/-- The preprocessor reads nothing of these events: none has a `directiveText`. -/
def Event.Unread (es : List Event) : Prop := ∀ e ∈ es, e.directiveText = none

namespace Event.Unread

variable {es fs : List Event}

theorem append (h : Unread es) (h' : Unread fs) : Unread (es ++ fs) :=
  List.forall_mem_append.2 ⟨h, h'⟩

theorem cons {e : Event} (he : e.directiveText = none) (h : Unread es) : Unread (e :: es) :=
  List.forall_mem_cons.2 ⟨he, h⟩

theorem nil : Unread [] := fun _ he => by cases he

theorem flatMap {α : Type} {f : α → List Event} {xs : List α} (h : ∀ x ∈ xs, Unread (f x)) :
    Unread (xs.flatMap f) :=
  List.forall_mem_flatMap.2 h

theorem inScope (h : Unread es) (kind : ScopeKind) : Unread (Event.inScope kind es) :=
  append (cons rfl h) (cons rfl nil)

theorem ofInner (h : Inner es) : Unread es := by
  intro e he
  cases e with
  | site _ | enter _ | leave => rfl
  | directive _ | conditional _ _ | elif _ => cases h _ he

theorem ofPlain (h : ∀ e ∈ es, e.isPlain = true) : Unread es := ofInner (.ofPlain h)

theorem filterMap (h : Unread es) : es.filterMap directiveText = [] :=
  List.filterMap_eq_nil_iff.2 h

end Event.Unread

open Event (Unread)

theorem Declarator.unread_events (placement : Placement) (type : QualifiedType)
    (d : Declarator) : Unread (d.events placement type) :=
  ((Unread.ofPlain (ArraySize.isPlain_events d.array)).append
    (.ofPlain (Expr.isPlain_optionalEvents d.initializer))).append (.cons rfl .nil)

theorem Declaration.unread_events (placement : Placement) (d : Declaration) :
    Unread (d.events placement) :=
  (Unread.ofPlain d.type.specifier.isPlain_events).append
    (.flatMap fun x _ => x.unread_events placement d.type)

theorem Prototype.unread_headEvents (p : Prototype) : Unread p.headEvents :=
  .ofInner p.inner_headEvents

theorem Prototype.unread_paramEvents (p : Prototype) : Unread p.paramEvents :=
  .ofInner p.inner_paramEvents

theorem Statement.unread_listEvents (body : List Statement) : Unread (listEvents body) :=
  .ofInner (inner_listEvents body)

end ShaderMinifier
