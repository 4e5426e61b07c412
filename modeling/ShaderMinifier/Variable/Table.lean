import ShaderMinifier.Program.Basic
import ShaderMinifier.Program.Log
import ShaderMinifier.Site.DirectiveWord

/-
  Resolving the variables of a program. The events of a stage are met once, in order, with the
  scopes that are open; every variable site is resolved to the binding that it stands for. A
  binding is known by its index among the bindings of both stages, the vertex stage's first.
-/

namespace ShaderMinifier

/-- A variable of a stage. Renaming decides by these fields alone, see `BindingTable.groups`. -/
structure Binding where
  name : String
  stage : Stage
  extent : Extent
  /-- Whether it is joined by name with the application or with the other stage, by the qualifier of
  one of its declarations (`isLinked`). -/
  linked : Bool
  /-- The text of a global's declaration, by `Resolver.signature`; `none` for a local, or for a
  global that is declared again in another way. -/
  signature : Option String
  /-- The number of sites that stand for it, its declarations among them. `Resolver.addSite`
  counts. -/
  sites : Nat
deriving DecidableEq

/-- The names declared in a scope so far with their bindings, the latest first, so `lookup` finds
the latest. -/
structure Scope where
  /-- What opened the scope. Nothing opened the scope of the globals, which is there from
  `Resolver.start` on. -/
  kind : Option ScopeKind
  names : List (String × Nat)

/-- What is known of the variables of a stage, the part of a `Resolver` that lasts. -/
structure StageBindings where
  /-- The binding of each variable site; `none` if nothing is declared under the name, or for a
  parameter of a prototype without a body. -/
  sites : List (Option Nat)
  /-- Names in use that no binding accounts for: functions, types, built-ins and macros. No variable
  may get one of them, see `reservedNames`. -/
  freeNames : List String
  /-- Words that the preprocessor can see, `Shader.directiveWords` of the stage. -/
  directiveWords : List String
deriving DecidableEq

/-- What is known on the way through a stage, the state of `Resolver.step`. -/
structure Resolver where
  /-- The bindings so far, also those of an earlier stage, so that an index is good for both. -/
  bindings : List Binding
  /-- The open scopes, the innermost first and the globals last. `resolve` searches them in this
  order. -/
  scopes : List Scope
  /-- The number of functions met so far, the index of the next one to `enter`. -/
  functions : Nat
  /-- The function whose scope is open, which `extent` reads; `none` outside of functions, also in a
  prototype. -/
  function : Option Nat
  sites : List (Option Nat)
  freeNames : List String

namespace Resolver

/-- The state before the first event of a stage: only the scope of the globals is open. The
`bindings` are those of the stages before. -/
def start (bindings : List Binding) : Resolver where
  bindings := bindings
  scopes := [⟨none, []⟩]
  functions := 0
  function := none
  sites := []
  freeNames := []

/-- The binding that a name stands for: that of the innermost scope that declares it. `none` means
that the name is free. -/
def resolve (r : Resolver) (name : String) : Option Nat :=
  r.scopes.findSome? fun scope => scope.names.lookup name

/-- The binding of a name that the innermost scope declares itself. `declare` uses it again rather
than making a second one. -/
def declaredHere (r : Resolver) (name : String) : Option Nat :=
  r.scopes.head?.bind fun scope => scope.names.lookup name

/-- Where a variable declared now lives: in the open `function`, or else among the globals. -/
def extent (r : Resolver) : Extent :=
  match r.function with
  | some index => .inFunction index
  | none => .global

/-- Notes a site and counts it for its binding, in `sites` of both the state and the binding. -/
def addSite (id : Option Nat) (r : Resolver) : Resolver :=
  { r with
    sites := r.sites ++ [id]
    bindings :=
      match id with
      | some id => r.bindings.modify id fun b => { b with sites := b.sites + 1 }
      | none => r.bindings }

/-- Notes a name that no binding accounts for; `reservedNames` will keep variables from taking
it. -/
def addFreeName (name : String) (r : Resolver) : Resolver :=
  { r with freeNames := r.freeNames ++ [name] }

/-- Puts a name into the innermost scope. It hides the same name of the scopes around from here on
(`resolve`). -/
def bindHere (name : String) (id : Nat) (r : Resolver) : Resolver :=
  { r with
    scopes :=
      match r.scopes with
      | scope :: outer => { scope with names := (name, id) :: scope.names } :: outer
      | [] => [] }

/-- A binding that is declared once more. One linked declaration makes it `linked`, and two
different texts take its `signature` away. -/
def redeclare (linked : Bool) (signature : Option String) (b : Binding) : Binding :=
  { b with
    linked := b.linked || linked
    signature := if b.signature = signature then b.signature else none }

/-- Declares a name in the innermost scope, where it may be declared already (`redeclare`), and
notes the site. A new binding gets the next index. -/
def declare (stage : Stage) (name : String) (linked : Bool) (signature : Option String)
    (r : Resolver) : Resolver :=
  match r.declaredHere name with
  | some id =>
    let bindings := r.bindings.modify id (redeclare linked signature)
    { r with bindings }.addSite (some id)
  | none =>
    let binding : Binding := ⟨name, stage, r.extent, linked, signature, 0⟩
    let id := r.bindings.length
    ({ r with bindings := r.bindings ++ [binding] }.bindHere name id).addSite (some id)

/-- The text of a declaration of this variable alone, by `Statement.emit`. Only that of a global is
kept, as locals are never shared. -/
def signature (placement : Placement) (type : QualifiedType) (d : Declarator) : Option String :=
  match placement with
  | .topLevel => some (Statement.declaration ⟨type, [d]⟩).emit
  | .inBody => none

/-- Meets a name. Only a site with `isVariable` is noted in `sites`; a parameter is declared only in
a function, and members are passed over. -/
def meet (stage : Stage) (r : Resolver) (site : Site) : Resolver :=
  match site.role with
  | .declared placement type d =>
    r.declare stage site.name (type.qualifier.any TypeQualifier.isLinked)
      (signature placement type d)
  | .parameter =>
    if r.scopes.head?.any fun scope => scope.kind = some .function then
      r.declare stage site.name false none
    else r.addSite none
  | .use =>
    match r.resolve site.name with
    | some id => r.addSite (some id)
    | none => (r.addFreeName site.name).addSite none
  | .type | .function _ | .callee _ => r.addFreeName site.name
  | .field => r

/-- Opens a scope. The scope of a function also sets `function`, and the next function gets the next
index. -/
def enter (kind : ScopeKind) (r : Resolver) : Resolver :=
  if kind = .function then
    { r with
      scopes := ⟨some kind, []⟩ :: r.scopes
      function := some r.functions
      functions := r.functions + 1 }
  else { r with scopes := ⟨some kind, []⟩ :: r.scopes }

/-- Closes the innermost scope. With the scope of a function, `function` is none again. -/
def leave (r : Resolver) : Resolver :=
  { r with
    scopes := r.scopes.tail
    function :=
      if r.scopes.head?.any fun scope => scope.kind = some .function then none else r.function }

/-- Meets an event. Preprocessor lines change nothing, so the branches of a conditional are met one
after the other in one scope. -/
def step (stage : Stage) (r : Resolver) : Event → Resolver
  | .site site => r.meet stage site
  | .enter kind => r.enter kind
  | .leave => r.leave
  | .directive _ | .conditional _ _ | .elif _ => r

/-- Goes through a stage from `start`, folding `step` over the events of the shader. -/
def run (stage : Stage) (bindings : List Binding) (shader : Shader) : Resolver :=
  shader.events.foldl (step stage) (start bindings)

end Resolver

/-- The variables of a program: the bindings of both stages in one list, and what is known of each
stage. -/
structure BindingTable where
  bindings : List Binding
  vertex : Option StageBindings
  fragment : Option StageBindings
deriving DecidableEq

namespace BindingTable

/-- The table in which nothing is known yet of either stage. -/
def empty : BindingTable := ⟨[], none, none⟩

/-- What is known of a stage, if anything. `stage` is the same with an error. -/
def stage? (table : BindingTable) : Stage → Option StageBindings
  | .vertex => table.vertex
  | .fragment => table.fragment

/-- What is known of a stage, which must be something: otherwise the error is `noBindings`. -/
def stage (table : BindingTable) (stage : Stage) : Except CompileError StageBindings :=
  match table.stage? stage with
  | some bindings => .ok bindings
  | none => .error (.noBindings stage)

/-- What the way through a stage has told of it: the sites and free names of `r`, and the words that
its directives show. -/
def stageOf (shader : Shader) (r : Resolver) : StageBindings :=
  ⟨r.sites, r.freeNames, shader.directiveWords⟩

/-- The table of two shaders. The fragment stage goes on with the bindings of the vertex stage, so
`Resolver.run` gives its own the indexes behind them. -/
def ofShaders (vertex fragment : Shader) : BindingTable :=
  let v := Resolver.run .vertex [] vertex
  let f := Resolver.run .fragment v.bindings fragment
  ⟨f.bindings, some (stageOf vertex v), some (stageOf fragment f)⟩

/-- Tells of the bindings of a stage, one entry each in the order of their declarations. -/
def announce (stage : Stage) (bindings : List Binding) : Logged Unit :=
  Logged.tell ((bindings.filter fun b => b.stage = stage).map fun b =>
    .binding b.stage b.name b.extent)

/-- The table of a program, `ofShaders` of its two shaders. The bindings of each stage are told as
soon as the stage is there. -/
def build (program : Program) : Logged BindingTable := do
  let vertex ← Logged.ofResult (program.shader .vertex)
  announce .vertex (Resolver.run .vertex [] vertex).bindings
  let fragment ← Logged.ofResult (program.shader .fragment)
  let table := ofShaders vertex fragment
  announce .fragment table.bindings
  return table

/-- The bindings of a stage by their indexes, in increasing order. -/
def ids (table : BindingTable) (stage : Stage) : List Nat :=
  (table.bindings.zipIdx.filter fun entry => entry.1.stage = stage).map Prod.snd

end BindingTable

end ShaderMinifier
