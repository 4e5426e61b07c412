import Mathlib
import ShaderMinifier.Item.Leaves
import ShaderMinifier.Site.Event

/-
  The scope of a variable by the rules of the language. A name can be seen from the end of its
  declarator to the end of its scope. A function with its parameters is a scope, so are the
  parameters of a prototype, a block, a `for` loop, each branch of an `if` and each body of a
  `while` or `do` loop, in braces or not. Where such a branch or body declares no variable itself,
  only the braces matter.
-/

namespace ShaderMinifier

/-! ## Scopes -/

/-- What matters for the scopes of variables, as a tree: uses, declarations and the scopes around
them. `Shader.resolve` is defined on it, without a `Resolver`. -/
inductive Scoping where
  | use (name : String)
  | declare (name : String)
  /-- A name that is no variable but hides those of its name: a prototype's parameter by
  `ScopeRules.language`. -/
  | hide (name : String)
  /-- A name that is no variable and hides nothing: a prototype's parameter by
  `ScopeRules.braces`. -/
  | blank
  | scope (inner : List Scoping)

/-- What names stand for: a variable, which is known by the site that declares it first, or
something that is none (`some none`). -/
structure View where
  /-- The names of the innermost scope, which `declare` looks at. -/
  own : String → Option (Option Nat)
  /-- The names that can be seen from the scopes around it, unless `own` hides them. -/
  outer : String → Option (Option Nat)

namespace View

def empty : View := ⟨fun _ => none, fun _ => none⟩

/-- What a name stands for; the innermost scope, `own`, goes first. -/
def lookup (view : View) (name : String) : Option (Option Nat) :=
  (view.own name).or (view.outer name)

/-- Adds a name to the innermost scope, `own`. -/
def bind (view : View) (name : String) (id : Option Nat) : View :=
  { view with own := fun other => if other = name then some id else view.own other }

/-- The view from a scope that opens here: all that could be seen is now `outer`. -/
def inner (view : View) : View := ⟨fun _ => none, view.lookup⟩

theorem own_bind (view : View) (name : String) (id : Option Nat) (other : String) :
    (view.bind name id).own other = if other = name then some id else view.own other := rfl

theorem lookup_bind (view : View) (name : String) (id : Option Nat) (other : String) :
    (view.bind name id).lookup other = if other = name then some id else view.lookup other := by
  by_cases h : other = name <;> simp [lookup, bind, h]

@[simp] theorem lookup_inner (view : View) : view.inner.lookup = view.lookup := by
  funext name
  simp [lookup, inner]

end View

/-- What is known on the way through a `Scoping` tree. -/
structure Reading where
  view : View
  /-- For each variable site met so far, the site that declares the variable first. -/
  sites : List (Option Nat)

namespace Reading

def start : Reading := ⟨.empty, []⟩

/-- Notes a site in `sites`. -/
def note (id : Option Nat) (r : Reading) : Reading := { r with sites := r.sites ++ [id] }

end Reading

namespace Scoping

mutual

/-- Goes through what matters. A name that is declared again in its scope is the same variable, and
what a `scope` declares is forgotten at its end. -/
def resolve : Scoping → Reading → Reading
  | use name, r => r.note (r.view.lookup name).join
  | declare name, r =>
    match r.view.own name with
    | some id => r.note id
    | none =>
      let id := some r.sites.length
      { r.note id with view := r.view.bind name id }
  | hide name, r => { r.note none with view := r.view.bind name none }
  | blank, r => r.note none
  | scope inner, r => { resolveList inner { r with view := r.view.inner } with view := r.view }

def resolveList : List Scoping → Reading → Reading
  | [], r => r
  | t :: ts, r => resolveList ts (resolve t r)

end

end Scoping

/-! ## The scopes of a shader -/

/-- Which rules of scope are followed: `language` is the specification, `braces` is what `Resolver`
does. -/
inductive ScopeRules where
  /-- Those of the language: every branch and body is a scope, and a prototype's parameters hide
  what they are named like. -/
  | language
  /-- Without braces, a branch or a body is no scope, and the parameters of a prototype hide
  nothing; this is how `Item.events` opens scopes. -/
  | braces

namespace ScopeRules

/-- A branch or a body: a scope by `language`, and nothing of its own by `braces`. -/
def branch : ScopeRules → List Scoping → List Scoping
  | language, inner => [.scope inner]
  | braces, inner => inner

/-- A parameter of a prototype: it hides by `language`, and is blank by `braces`. -/
def parameter : ScopeRules → String → Scoping
  | language, name => .hide name
  | braces, _ => .blank

end ScopeRules

/-- The variables that are used among events, in order, as `Scoping.use`. -/
def usesIn (es : List Event) : List Scoping :=
  es.filterMap fun
    | .site ⟨.use, name⟩ => some (.use name)
    | _ => none

/-- A declarator: its size and its value come first, since its name is visible only behind it
(`Scoping.declare`). -/
def Declarator.scoping (d : Declarator) : List Scoping :=
  usesIn ((d.array.map ArraySize.events).getD []) ++ usesIn (Expr.optionalEvents d.initializer) ++
    [.declare d.name]

def Declaration.scoping (d : Declaration) : List Scoping :=
  usesIn d.type.specifier.events ++ d.declarators.flatMap Declarator.scoping

/-- A parameter, where its name is declared in the way of `declare`, behind its size. -/
def Parameter.scoping (declare : String → Scoping) (p : Parameter) : List Scoping :=
  usesIn (Expr.optionalEvents p.size) ++ (p.name.map declare).toList

def SimpleStatement.scoping : SimpleStatement → List Scoping
  | declaration decl => decl.scoping
  | expression value => usesIn (Expr.optionalEvents value)

namespace Statement

mutual

def scoping (rules : ScopeRules) : Statement → List Scoping
  | block body => [.scope (listScoping rules body)]
  | simple stmt => stmt.scoping
  | ifThen condition body => usesIn condition.events ++ rules.branch (scoping rules body)
  | ifElse condition whenTrue whenFalse =>
    usesIn condition.events ++ rules.branch (scoping rules whenTrue) ++
      rules.branch (scoping rules whenFalse)
  | whileLoop condition body => usesIn condition.events ++ rules.branch (scoping rules body)
  | doWhile body condition => rules.branch (scoping rules body) ++ usesIn condition.events
  | forLoop init condition step body =>
    [.scope (init.scoping ++ usesIn (Expr.optionalEvents condition) ++
      usesIn (Expr.optionalEvents step) ++ scoping rules body)]
  | returnValue value => usesIn (Expr.optionalEvents value)
  | continueLoop | breakLoop | discard => []

def listScoping (rules : ScopeRules) : List Statement → List Scoping
  | [] => []
  | stmt :: body => scoping rules stmt ++ listScoping rules body

end

/-- The statement itself declares a variable; without braces it does so in the scope around it. -/
def declaresVariable : Statement → Bool
  | simple (.declaration decl) => !decl.declarators.isEmpty
  | _ => false

mutual

/-- No branch and no body of a `while` or `do` loop declares a variable without braces
(`declaresVariable`). -/
def declaresInBraces : Statement → Bool
  | block body => listDeclaresInBraces body
  | ifThen _ body | whileLoop _ body | doWhile body _ =>
    !body.declaresVariable && declaresInBraces body
  | ifElse _ whenTrue whenFalse =>
    !whenTrue.declaresVariable && declaresInBraces whenTrue &&
      (!whenFalse.declaresVariable && declaresInBraces whenFalse)
  | forLoop _ _ _ body => declaresInBraces body
  | simple _ | returnValue _ | continueLoop | breakLoop | discard => true

def listDeclaresInBraces : List Statement → Bool
  | [] => true
  | stmt :: body => declaresInBraces stmt && listDeclaresInBraces body

end

end Statement

/-- No parameter is used in the size of a later one, so it does not matter whether parameters
hide. -/
def Prototype.SizesApart (p : Prototype) : Prop :=
  p.params.Pairwise fun x y => ∀ name, x.name = some name →
    .name .use name ∉ Expr.optionalEvents y.size

instance (p : Prototype) : Decidable p.SizesApart :=
  inferInstanceAs (Decidable (List.Pairwise _ _))

namespace Item

mutual

/-- What matters for scopes in an item. All branches of a conditional are in the scope of the
globals, as in `Item.events`. -/
def scoping (rules : ScopeRules) : Item → List Scoping
  | directive _ | precision _ _ => []
  | conditional _ _ body rest => listScoping rules body ++ branchScoping rules rest
  | invariant names => names.map .use
  | declaration decl => decl.scoping
  | prototype signature =>
    usesIn signature.returnType.specifier.events ++
      [.scope (signature.params.flatMap (Parameter.scoping rules.parameter))]
  | function signature body =>
    usesIn signature.returnType.specifier.events ++
      [.scope (signature.params.flatMap (Parameter.scoping .declare) ++
        Statement.listScoping rules body)]

def listScoping (rules : ScopeRules) : List Item → List Scoping
  | [] => []
  | item :: items => scoping rules item ++ listScoping rules items

def branchScoping (rules : ScopeRules) : Branches → List Scoping
  | .done => []
  | .otherwise body => listScoping rules body
  | .elif _ body rest => listScoping rules body ++ branchScoping rules rest

end

/-- In the item, braces tell where variables are visible: `SizesApart` for a prototype,
`declaresInBraces` for a body. -/
def Braced : Item → Prop
  | prototype signature => signature.SizesApart
  | function _ body => Statement.listDeclaresInBraces body = true
  | _ => True

instance : DecidablePred Braced
  | prototype signature => inferInstanceAs (Decidable signature.SizesApart)
  | function _ body => inferInstanceAs (Decidable (Statement.listDeclaresInBraces body = true))
  | directive _ | conditional _ _ _ _ | precision _ _ | invariant _ | declaration _ =>
    inferInstanceAs (Decidable True)

end Item

namespace Shader

/-- For each variable site of a shader, the site that declares the variable first by these rules;
`none` if nothing is declared under the name, or for a parameter of a prototype. -/
def resolve (rules : ScopeRules) (shader : Shader) : List (Option Nat) :=
  (Scoping.resolveList (Item.listScoping rules shader.items) .start).sites

/-- No branch and no loop body declares a variable without braces, and no parameter of a prototype
is used in the size of another (`Item.Braced`). -/
def Braced (shader : Shader) : Prop := ∀ item ∈ shader.leaves, item.Braced

instance (shader : Shader) : Decidable shader.Braced :=
  inferInstanceAs (Decidable (∀ item ∈ shader.leaves, item.Braced))

end Shader

/-! ## Where the rules agree -/

namespace Scoping

variable {ts ts' us us' : List Scoping} {r r' : Reading}

theorem resolveList_append (ts us : List Scoping) (r : Reading) :
    resolveList (ts ++ us) r = resolveList us (resolveList ts r) := by
  induction ts generalizing r with
  | nil => rfl
  | cons t ts ih => rw [List.cons_append, resolveList, ih, resolveList]

theorem resolveList_singleton (t : Scoping) (r : Reading) : resolveList [t] r = resolve t r := rfl

theorem resolve_declare_of_own {name : String} {id : Option Nat}
    (h : r.view.own name = some id) : resolve (.declare name) r = r.note id := by
  simp only [resolve, h]

theorem resolve_declare_of_new {name : String} (h : r.view.own name = none) :
    resolve (.declare name) r =
      ⟨r.view.bind name (some r.sites.length), r.sites ++ [some r.sites.length]⟩ := by
  simp only [resolve, h, Reading.note]

/-- The two are the same to `resolveList`. -/
def Same (ts ts' : List Scoping) : Prop := resolveList ts = resolveList ts'

namespace Same

theorem refl (ts : List Scoping) : Same ts ts := rfl

theorem trans (h : Same ts us) (h' : Same us ts') : Same ts ts' := Eq.trans h h'

theorem append (h : Same ts ts') (h' : Same us us') : Same (ts ++ us) (ts' ++ us') := by
  funext r
  rw [resolveList_append, resolveList_append, h, h']

theorem scope (h : Same ts ts') : Same [.scope ts] [.scope ts'] := by
  funext r
  rw [resolveList_singleton, resolveList_singleton, resolve, resolve, h]

end Same

/-- Nothing is added to the scope that is open: no `declare` and no `hide`. -/
def isQuiet : Scoping → Bool
  | use _ | blank | scope _ => true
  | declare _ | hide _ => false

theorem view_resolve_of_isQuiet {t : Scoping} (h : t.isQuiet = true) (r : Reading) :
    (resolve t r).view = r.view := by
  cases t with
  | use _ | blank | scope _ => rfl
  | declare _ | hide _ => cases h

theorem sites_resolve_of_isQuiet {t : Scoping} (h : t.isQuiet = true)
    (hview : r'.view.lookup = r.view.lookup) (hsites : r'.sites = r.sites) :
    (resolve t r').sites = (resolve t r).sites := by
  cases t with
  | use name => simp only [resolve, Reading.note, hview, hsites]
  | blank => simp only [resolve, Reading.note, hsites]
  | scope inner => simp only [resolve, View.inner, hview, hsites]
  | declare _ | hide _ => cases h

theorem view_resolveList_of_isQuiet (h : ∀ t ∈ ts, t.isQuiet = true) (r : Reading) :
    (resolveList ts r).view = r.view := by
  induction ts generalizing r with
  | nil => rfl
  | cons t ts ih =>
    rw [List.forall_mem_cons] at h
    rw [resolveList, ih h.2, view_resolve_of_isQuiet h.1]

theorem sites_resolveList_of_isQuiet (h : ∀ t ∈ ts, t.isQuiet = true)
    (hview : r'.view.lookup = r.view.lookup) (hsites : r'.sites = r.sites) :
    (resolveList ts r').sites = (resolveList ts r).sites := by
  induction ts generalizing r r' with
  | nil => exact hsites
  | cons t ts ih =>
    rw [List.forall_mem_cons] at h
    refine ih h.2 ?_ (sites_resolve_of_isQuiet h.1 hview hsites)
    rw [view_resolve_of_isQuiet h.1, view_resolve_of_isQuiet h.1, hview]

theorem same_scope_of_isQuiet (h : ∀ t ∈ ts, t.isQuiet = true) : Same [.scope ts] ts := by
  funext r
  have hsites : (resolveList ts { r with view := r.view.inner }).sites = (resolveList ts r).sites :=
    sites_resolveList_of_isQuiet h r.view.lookup_inner rfl
  rw [resolveList_singleton, resolve, hsites, ← view_resolveList_of_isQuiet h r]

theorem isQuiet_usesIn (es : List Event) : ∀ t ∈ usesIn es, t.isQuiet = true := by
  intro t ht
  obtain ⟨e, -, he⟩ := List.mem_filterMap.1 ht
  split at he
  · cases he
    rfl
  · cases he

theorem sites_resolveList_usesIn {es : List Event}
    (h : ∀ name, .name .use name ∈ es → r'.view.lookup name = r.view.lookup name)
    (hsites : r'.sites = r.sites) :
    (resolveList (usesIn es) r').sites = (resolveList (usesIn es) r).sites := by
  induction es generalizing r r' with
  | nil => exact hsites
  | cons e es ih =>
    have hrest : ∀ name, .name .use name ∈ es → r'.view.lookup name = r.view.lookup name :=
      fun name hname => h name (List.mem_cons_of_mem _ hname)
    rw [usesIn, List.filterMap_cons]
    split
    · exact ih hrest hsites
    · rename_i t ht
      split at ht
      · rename_i name
        cases ht
        refine ih hrest ?_
        simp only [resolve, Reading.note, hsites, h name List.mem_cons_self]
      · cases ht

end Scoping

open Scoping

namespace Statement

mutual

theorem isQuiet_scoping : (s : Statement) → s.declaresInBraces = true →
    s.declaresVariable = false → ∀ t ∈ s.scoping .braces, t.isQuiet = true
  | block _, _, _ | forLoop _ _ _ _, _, _ => by simp [scoping, isQuiet]
  | simple (.declaration decl), _, h => by
    have hnone : decl.declarators = [] := by simpa [declaresVariable] using h
    rw [scoping, SimpleStatement.scoping, Declaration.scoping, hnone, List.flatMap_nil,
      List.append_nil]
    exact isQuiet_usesIn _
  | simple (.expression value), _, _ | returnValue value, _, _ => isQuiet_usesIn _
  | ifThen condition body, h, _ | whileLoop condition body, h, _ =>
    List.forall_mem_append.2 ⟨isQuiet_usesIn _, isQuiet_branch body h⟩
  | ifElse condition whenTrue whenFalse, h, _ => by
    rw [declaresInBraces, Bool.and_eq_true] at h
    exact List.forall_mem_append.2 ⟨List.forall_mem_append.2 ⟨isQuiet_usesIn _,
      isQuiet_branch whenTrue h.1⟩, isQuiet_branch whenFalse h.2⟩
  | doWhile body condition, h, _ =>
    List.forall_mem_append.2 ⟨isQuiet_branch body h, isQuiet_usesIn _⟩
  | continueLoop, _, _ | breakLoop, _, _ | discard, _, _ => by simp [scoping]

theorem isQuiet_branch (s : Statement)
    (h : (!s.declaresVariable && s.declaresInBraces) = true) :
    ∀ t ∈ s.scoping .braces, t.isQuiet = true := by
  rw [Bool.and_eq_true, Bool.not_eq_true'] at h
  exact isQuiet_scoping s h.2 h.1

end

theorem same_branch {s : Statement} (h : (!s.declaresVariable && s.declaresInBraces) = true)
    (hsame : Same (s.scoping .language) (s.scoping .braces)) :
    Same (ScopeRules.language.branch (s.scoping .language))
      (ScopeRules.braces.branch (s.scoping .braces)) :=
  .trans (.scope hsame) (same_scope_of_isQuiet (isQuiet_branch s h))

mutual

theorem same_scoping : (s : Statement) → s.declaresInBraces = true →
    Same (s.scoping .language) (s.scoping .braces)
  | block body, h => .scope (same_listScoping body h)
  | ifThen condition body, h | whileLoop condition body, h =>
    .append (.refl _) (same_branch h (same_scoping body (Bool.and_eq_true_iff.1 h).2))
  | ifElse condition whenTrue whenFalse, h => by
    rw [declaresInBraces, Bool.and_eq_true] at h
    exact .append
      (.append (.refl _) (same_branch h.1 (same_scoping whenTrue (Bool.and_eq_true_iff.1 h.1).2)))
      (same_branch h.2 (same_scoping whenFalse (Bool.and_eq_true_iff.1 h.2).2))
  | doWhile body condition, h =>
    .append (same_branch h (same_scoping body (Bool.and_eq_true_iff.1 h).2)) (.refl _)
  | forLoop init condition step body, h => .scope (.append (.refl _) (same_scoping body h))
  | simple _, _ | returnValue _, _ | continueLoop, _ | breakLoop, _ | discard, _ => .refl _

theorem same_listScoping : (body : List Statement) → listDeclaresInBraces body = true →
    Same (listScoping .language body) (listScoping .braces body)
  | [], _ => .refl _
  | s :: body, h => by
    rw [listDeclaresInBraces, Bool.and_eq_true] at h
    exact .append (same_scoping s h.1) (same_listScoping body h.2)

end

end Statement

/-- Parameters hide nothing that the sizes behind them use, so `hide` and `blank` come to the same
sites. -/
theorem Parameter.sites_resolveList {params : List Parameter} {r r' : Reading}
    (hapart : params.Pairwise fun x y => ∀ name, x.name = some name →
      .name .use name ∉ Expr.optionalEvents y.size)
    (hview : ∀ x ∈ params, ∀ name, .name .use name ∈ Expr.optionalEvents x.size →
      r'.view.lookup name = r.view.lookup name) (hsites : r'.sites = r.sites) :
    (resolveList (params.flatMap (scoping .hide)) r').sites =
      (resolveList (params.flatMap (scoping fun _ => .blank)) r).sites := by
  induction params generalizing r r' with
  | nil => exact hsites
  | cons x params ih =>
    rw [List.pairwise_cons] at hapart
    rw [List.forall_mem_cons] at hview
    have hsize := sites_resolveList_usesIn hview.1 hsites
    have hkept : ∀ r : Reading,
        (resolveList (usesIn (Expr.optionalEvents x.size)) r).view = r.view :=
      view_resolveList_of_isQuiet (isQuiet_usesIn _)
    rw [List.flatMap_cons, List.flatMap_cons, resolveList_append, resolveList_append, scoping,
      scoping, resolveList_append, resolveList_append]
    cases hname : x.name with
    | none =>
      refine ih hapart.2 (fun y hy name hused => ?_) hsize
      simp only [Option.map_none, Option.toList_none, resolveList, hkept]
      exact hview.2 y hy name hused
    | some hidden =>
      refine ih hapart.2 (fun y hy name hused => ?_) ?_
      · have hne : name ≠ hidden := by
          rintro rfl
          exact hapart.1 y hy name hname hused
        simp only [Option.map_some, Option.toList_some, resolveList, resolve, Reading.note, hkept,
          View.lookup_bind, if_neg hne]
        exact hview.2 y hy name hused
      · simp only [Option.map_some, Option.toList_some, resolveList, resolve, Reading.note, hsize]

theorem Prototype.same_scoping {p : Prototype} (h : p.SizesApart) :
    Same [.scope (p.params.flatMap (Parameter.scoping .hide))]
      [.scope (p.params.flatMap (Parameter.scoping fun _ => .blank))] := by
  funext r
  have hsites : (resolveList (p.params.flatMap (Parameter.scoping .hide))
        { r with view := r.view.inner }).sites =
      (resolveList (p.params.flatMap (Parameter.scoping fun _ => .blank))
        { r with view := r.view.inner }).sites :=
    Parameter.sites_resolveList h (fun _ _ _ _ => rfl) rfl
  rw [resolveList_singleton, resolveList_singleton, resolve, resolve, hsites]

namespace Item

mutual

theorem same_scoping : (i : Item) → (∀ item ∈ i.leaves, item.Braced) →
    Same (i.scoping .language) (i.scoping .braces)
  | conditional _ _ body rest, h => by
    rw [leaves, List.forall_mem_append] at h
    exact .append (same_listScoping body h.1) (same_branchScoping rest h.2)
  | prototype signature, h =>
    .append (.refl _) (Prototype.same_scoping (h (.prototype signature) (by simp [leaves])))
  | function signature body, h =>
    .append (.refl _) (.scope (.append (.refl _)
      (Statement.same_listScoping body (h (.function signature body) (by simp [leaves])))))
  | directive _, _ | precision _ _, _ | invariant _, _ | declaration _, _ => .refl _

theorem same_listScoping : (items : List Item) → (∀ item ∈ listLeaves items, item.Braced) →
    Same (listScoping .language items) (listScoping .braces items)
  | [], _ => .refl _
  | i :: items, h => by
    rw [listLeaves, List.forall_mem_append] at h
    exact .append (same_scoping i h.1) (same_listScoping items h.2)

theorem same_branchScoping : (b : Branches) → (∀ item ∈ branchLeaves b, item.Braced) →
    Same (branchScoping .language b) (branchScoping .braces b)
  | .done, _ => .refl _
  | .otherwise body, h => same_listScoping body h
  | .elif _ body rest, h => by
    rw [branchLeaves, List.forall_mem_append] at h
    exact .append (same_listScoping body h.1) (same_branchScoping rest h.2)

end

end Item

theorem Shader.Braced.resolve_eq {shader : Shader} (h : shader.Braced) :
    shader.resolve .language = shader.resolve .braces := by
  rw [resolve, resolve, Item.same_listScoping shader.items h]

end ShaderMinifier
