import ShaderMinifier.Item.Basic

/-
  The names of a shader in the one order in which every analysis and every renaming meets them,
  with the scopes that open and close in between. A declared name comes after the sizes and the
  values of its own declarator, where it is not yet visible; every branch of a conditional is
  met, as its condition is never evaluated.
-/

namespace ShaderMinifier

/-- What opens a scope. `Resolver.enter` counts functions, and only their parameters are bound. -/
inductive ScopeKind where
  /-- The parameters and the body of a function, which share one scope. -/
  | function
  /-- The parameters of a prototype without a body. They are visible nowhere, so `Resolver.meet`
  binds none of them. -/
  | prototype
  /-- A block or a `for` loop, the head of which is in the scope too. -/
  | block
deriving DecidableEq

/-- What a name stands for at its site. The passes decide by the `Role` alone whether a name is
theirs. -/
inductive Role where
  /-- A variable where it is declared, with all that `Resolver.signature` needs to write its
  declaration alone. -/
  | declared (placement : Placement) (type : QualifiedType) (declarator : Declarator)
  /-- A type, where a struct declares it or where it is used. Types are not renamed, so their names
  are taken (`addFreeName`). -/
  | type
  /-- A member of a struct, where it is declared or behind a dot. Members live apart from all other
  names, so `Resolver.meet` passes them over. -/
  | field
  /-- A function where it is declared or defined, with its number of parameters as in
  `FunctionKey`. -/
  | function (arity : Nat)
  /-- A parameter where it is declared, in a function or in a prototype; the innermost `ScopeKind`
  says which. -/
  | parameter
  /-- A variable where it is used, as a value or in an `invariant` statement. -/
  | use
  /-- A function or a type where it is called, with the number of arguments, which
  `CallGraph.callees` compares with that of parameters. -/
  | callee (arity : Nat)
deriving DecidableEq

namespace Role

/-- Whether the name is that of a variable or of a parameter. These are the sites that
`renamedSites` may change. -/
def isVariable : Role → Bool
  | declared _ _ _ | parameter | use => true
  | type | field | function _ | callee _ => false

/-- Whether the name is that of a function, or of what is called like one. These are the sites that
`Shader.renameFunctions` may change. -/
def isFunction : Role → Bool
  | function _ | callee _ => true
  | declared _ _ _ | parameter | use | type | field => false

end Role

/-- An occurrence of a name. The place is not kept: the index in `Shader.sites` stands for it. -/
structure Site where
  role : Role
  name : String
deriving DecidableEq

/-- What is met on the way through a shader: its names, the scopes around them, and the lines that
the preprocessor sees. -/
inductive Event where
  | directive (line : Directive)
  | conditional (kind : ConditionalKind) (condition : String)
  | elif (condition : String)
  | site (site : Site)
  | enter (kind : ScopeKind)
  | leave
deriving DecidableEq

namespace Event

/-- The event of a name in a `role`, short for a `site`. -/
def name (role : Role) (name : String) : Event := .site ⟨role, name⟩

/-- Events inside a scope of this `kind`, between `enter` and `leave`. -/
def inScope (kind : ScopeKind) (inner : List Event) : List Event :=
  .enter kind :: inner ++ [.leave]

/-- The occurrence of a name that the event is, if it is one; `Shader.sites` collects them. -/
def site? : Event → Option Site
  | site s => some s
  | _ => none

end Event

namespace Expr

mutual

/-- The events of an expression, from left to right as its names are written. There are no scopes in
it. -/
def events : Expr → List Event
  | identifier name => [.name .use name]
  | int _ | float _ | bool _ => []
  | unary _ operand => events operand
  | step _ operand => events operand
  | binary _ left right => events left ++ events right
  | assign _ left right => events left ++ events right
  | ternary condition whenTrue whenFalse =>
    events condition ++ events whenTrue ++ events whenFalse
  | index base position => events base ++ events position
  | field base name => events base ++ [.name .field name]
  | call callee args => .name (.callee args.length) callee :: listEvents args
  | sequence items => listEvents items

/-- The `events` of expressions in a row, arguments or items of a sequence. -/
def listEvents : List Expr → List Event
  | [] => []
  | item :: items => events item ++ listEvents items

end

/-- The `events` of an expression that may be missing. -/
def optionalEvents (value : Option Expr) : List Event := (value.map events).getD []

end Expr

namespace MemberDeclarator

def events (d : MemberDeclarator) : List Event :=
  Expr.optionalEvents d.size ++ [.name .field d.name]

end MemberDeclarator

namespace Member

def events (m : Member) : List Event :=
  .name .type m.type :: m.declarators.flatMap MemberDeclarator.events

end Member

namespace StructType

def events (s : StructType) : List Event :=
  (s.name.map fun name => Event.name .type name).toList ++ s.members.flatMap Member.events

end StructType

namespace TypeSpecifier

def events : TypeSpecifier → List Event
  | named name => [.name .type name]
  | struct spec => spec.events

end TypeSpecifier

namespace ArraySize

def events : ArraySize → List Event
  | unsized => []
  | sized size => size.events

end ArraySize

namespace Declarator

/-- The events of a declared variable of this `type`. Its name comes last: it is not yet visible in
its own size and initial value. -/
def events (placement : Placement) (type : QualifiedType) (d : Declarator) : List Event :=
  (d.array.map ArraySize.events).getD [] ++ Expr.optionalEvents d.initializer ++
    [.name (.declared placement type d) d.name]

end Declarator

namespace Declaration

def events (placement : Placement) (d : Declaration) : List Event :=
  d.type.specifier.events ++ d.declarators.flatMap (Declarator.events placement d.type)

end Declaration

namespace Parameter

def events (p : Parameter) : List Event :=
  .name .type p.type :: Expr.optionalEvents p.size ++
    (p.name.map fun name => Event.name .parameter name).toList

end Parameter

namespace Prototype

/-- The events of what stands before the parameters, which lie outside the scope that the parameters
open. -/
def headEvents (p : Prototype) : List Event :=
  p.returnType.specifier.events ++ [.name (.function p.arity) p.name]

/-- The events of the parameters, in the scope that `Item.events` opens for them. -/
def paramEvents (p : Prototype) : List Event := p.params.flatMap Parameter.events

end Prototype

namespace SimpleStatement

def events : SimpleStatement → List Event
  | declaration decl => decl.events .inBody
  | expression value => Expr.optionalEvents value

end SimpleStatement

namespace Statement

mutual

/-- The events of a statement. Only a block and a `for` loop open a scope (`inScope`), a single
statement behind `if` or `while` does not. -/
def events : Statement → List Event
  | block body => Event.inScope .block (listEvents body)
  | simple stmt => stmt.events
  | ifThen condition body => condition.events ++ events body
  | ifElse condition whenTrue whenFalse =>
    condition.events ++ events whenTrue ++ events whenFalse
  | whileLoop condition body => condition.events ++ events body
  | doWhile body condition => events body ++ condition.events
  | forLoop init condition step body =>
    Event.inScope .block (init.events ++ Expr.optionalEvents condition ++
      Expr.optionalEvents step ++ events body)
  | returnValue value => Expr.optionalEvents value
  | continueLoop | breakLoop | discard => []

/-- The `events` of statements in a row. -/
def listEvents : List Statement → List Event
  | [] => []
  | stmt :: body => events stmt ++ listEvents body

end

end Statement

namespace Item

mutual

/-- The events of an item. A conditional contributes those of every branch, since its condition is
never evaluated, with an event for each condition. -/
def events : Item → List Event
  | directive line => [.directive line]
  | conditional kind condition body rest =>
    .conditional kind condition :: listEvents body ++ branchEvents rest
  | precision _ type => [.name .type type]
  | invariant names => names.map (Event.name .use)
  | declaration decl => decl.events .topLevel
  | prototype signature =>
    signature.headEvents ++ Event.inScope .prototype signature.paramEvents
  | function signature body =>
    signature.headEvents ++
      Event.inScope .function (signature.paramEvents ++ Statement.listEvents body)

/-- The `events` of items in a row. -/
def listEvents : List Item → List Event
  | [] => []
  | item :: items => events item ++ listEvents items

/-- The events of what follows a branch of a conditional. `#else` and `#endif` have no text that the
preprocessor could see and no event. -/
def branchEvents : Branches → List Event
  | .done => []
  | .otherwise body => listEvents body
  | .elif condition body rest => .elif condition :: listEvents body ++ branchEvents rest

end

end Item

namespace Shader

/-- All that is met on the way through a shader, the one order that `Resolver.run` and
`Shader.mapNames` share. -/
def events (shader : Shader) : List Event := Item.listEvents shader.items

/-- The occurrences of names in a shader, in the order of its `events`. -/
def sites (shader : Shader) : List Site := shader.events.filterMap Event.site?

end Shader

end ShaderMinifier
