import ShaderMinifier.Proofs.Function.Live
import ShaderMinifier.Proofs.Variable.Lexical
import ShaderMinifier.Proofs.Variable.Resolution

/-
  The table of a program and the rules of scope. The resolver keeps a stack of scopes and numbers
  its bindings; the rules know a variable by the site that declares it first. Both go through a
  shader side by side: what a name stands for here is declared first where it is declared first
  there. The resolver opens a scope at braces and `for` loops only, so a branch that is a bare
  declaration is visible behind the branch.
-/

namespace ShaderMinifier

/-- For each site, the first site with the same binding: what `Shader.resolve` tells, read off what
`Resolver` notes. -/
def declaringSites (ids : List (Option Nat)) : List (Option Nat) :=
  ids.map fun id => id.map fun i => ids.idxOf (some i)

/-! ## First sites -/

section FirstSites

variable {ids : List (Option Nat)}

theorem declaringSites_concat (ids : List (Option Nat)) (id : Option Nat) :
    declaringSites (ids ++ [id]) =
      declaringSites ids ++ [id.map fun i => (ids ++ [id]).idxOf (some i)] := by
  rw [declaringSites, List.map_append, List.map_singleton]
  congr 1
  refine List.map_congr_left fun other hother => ?_
  cases other with
  | none => rfl
  | some i => rw [Option.map_some, Option.map_some, List.idxOf_append_of_mem hother]

theorem declaringSites_concat_of_mem {id : Option Nat} (h : ∀ i, id = some i → some i ∈ ids) :
    declaringSites (ids ++ [id]) = declaringSites ids ++ [id.map fun i => ids.idxOf (some i)] := by
  rw [declaringSites_concat]
  cases id with
  | none => rfl
  | some i => rw [Option.map_some, Option.map_some, List.idxOf_append_of_mem (h i rfl)]

theorem declaringSites_concat_of_not_mem {i : Nat} (h : some i ∉ ids) :
    declaringSites (ids ++ [some i]) = declaringSites ids ++ [some ids.length] := by
  rw [declaringSites_concat, Option.map_some, List.idxOf_append_of_notMem h, List.idxOf_cons_self,
    Nat.add_zero]

theorem length_declaringSites (ids : List (Option Nat)) :
    (declaringSites ids).length = ids.length :=
  List.length_map _

end FirstSites

/-! ## One step -/

namespace Resolver

variable {stage : Stage} {kind : Option ScopeKind} {r r' : Resolver} {d : Reading} {view : View}
  {name : String}

/-- The rules see what the resolver sees: the same names, and behind each the same variable, in the
innermost scope and in all of them. -/
structure Sees (r : Resolver) (view : View) : Prop where
  own : ∀ name, view.own name = (r.declaredHere name).map fun i => some (r.sites.idxOf (some i))
  lookup : ∀ name, view.lookup name = (r.resolve name).map fun i => some (r.sites.idxOf (some i))
  /-- Every binding that can be seen has a site, so `declaringSites` knows its first one. -/
  noted : ∀ scope ∈ r.scopes, ∀ entry ∈ scope.names, some entry.2 ∈ r.sites

namespace Sees

theorem mem_sites_of_declaredHere (h : Sees r view) {i : Nat} (hi : r.declaredHere name = some i) :
    some i ∈ r.sites := by
  obtain ⟨scope, hscope, hentry⟩ := mem_of_declaredHere hi
  exact h.noted scope hscope _ hentry

theorem mem_sites_of_resolve (h : Sees r view) {i : Nat} (hi : r.resolve name = some i) :
    some i ∈ r.sites := by
  obtain ⟨scope, hscope, hentry⟩ := mem_of_resolve hi
  exact h.noted scope hscope _ hentry

theorem mono (h : Sees r view) (hscopes : r'.scopes = r.scopes) (hsites : r.sites <+: r'.sites) :
    Sees r' view := by
  obtain ⟨more, hmore⟩ := hsites
  -- A site that is first stays first when others follow.
  have hfirst : ∀ id : Option Nat, (∀ i, id = some i → some i ∈ r.sites) →
      (id.map fun i => some (r.sites.idxOf (some i))) =
        id.map fun i => some (r'.sites.idxOf (some i)) := by
    intro id hid
    refine Option.map_congr fun i hi => ?_
    rw [← hmore, List.idxOf_append_of_mem (hid i hi)]
  have hhere : r'.declaredHere = r.declaredHere := by
    funext name
    rw [declaredHere, declaredHere, hscopes]
  have hresolve : r'.resolve = r.resolve := by
    funext name
    rw [resolve, resolve, hscopes]
  refine ⟨fun name => ?_, fun name => ?_, fun scope hscope entry hentry => ?_⟩
  · rw [h.own, hhere]
    exact hfirst _ fun i hi => h.mem_sites_of_declaredHere hi
  · rw [h.lookup, hresolve]
    exact hfirst _ fun i hi => h.mem_sites_of_resolve hi
  · rw [hscopes] at hscope
    rw [← hmore]
    exact List.mem_append_left _ (h.noted scope hscope entry hentry)

end Sees

/-- The resolver and the rules have come to the same place, in a scope of this kind: the same sites,
and `Sees` for what comes. -/
structure Agrees (kind : Option ScopeKind) (r : Resolver) (d : Reading) : Prop where
  sites : d.sites = declaringSites r.sites
  sees : Sees r d.view
  bound : ∀ i, some i ∈ r.sites → i < r.bindings.length
  innermost : ∃ names outer, r.scopes = ⟨kind, names⟩ :: outer

theorem length_addSite (id : Option Nat) :
    (r.addSite id).bindings.length = r.bindings.length := by
  cases id with
  | none => rfl
  | some id => exact List.length_modify ..

theorem Agrees.congr (h : Agrees kind r d) (hsites : r'.sites = r.sites)
    (hscopes : r'.scopes = r.scopes) (hbindings : r'.bindings = r.bindings) : Agrees kind r' d where
  sites := by rw [h.sites, hsites]
  sees := h.sees.mono hscopes (by rw [hsites])
  bound := by
    rw [hsites, hbindings]
    exact h.bound
  innermost := by
    rw [hscopes]
    exact h.innermost

/-- A site of a binding that has one, or of no binding, is noted alike on both sides (`Agrees`). -/
theorem Agrees.addSite (h : Agrees kind r d) {id : Option Nat}
    (hid : ∀ i, id = some i → some i ∈ r.sites) :
    Agrees kind (r.addSite id) (d.note (id.map fun i => r.sites.idxOf (some i))) where
  sites := by
    rw [sites_addSite, declaringSites_concat_of_mem hid, Reading.note, h.sites]
  sees := h.sees.mono rfl (List.prefix_append _ _)
  bound := by
    intro i hi
    rw [length_addSite]
    rw [sites_addSite, List.mem_append, List.mem_singleton] at hi
    exact h.bound i (hi.elim (fun hmem => hmem) fun heq => hid i heq.symm)
  innermost := h.innermost

theorem Agrees.use (h : Agrees kind r d) (stage : Stage) (name : String) :
    Agrees kind (r.meet stage ⟨.use, name⟩) (Scoping.resolve (.use name) d) ∧
      (r.meet stage ⟨.use, name⟩).scopes.tail = r.scopes.tail := by
  rw [Scoping.resolve, h.sees.lookup name]
  cases hid : r.resolve name with
  | none =>
    have hfree : Agrees kind (r.addFreeName name) d := h.congr rfl rfl rfl
    rw [meet_use_of_free hid]
    exact ⟨hfree.addSite (by simp), rfl⟩
  | some id =>
    rw [meet_use hid]
    refine ⟨h.addSite fun i hi => ?_, rfl⟩
    obtain rfl := Option.some.inj hi
    exact h.sees.mem_sites_of_resolve hid

section BindNew

variable {scope : Scope} {outer : List Scope}

@[simp] theorem sites_bindNew (linked : Bool) (signature : Option String) :
    (r.bindNew stage name linked signature).sites = r.sites := rfl

theorem length_bindNew (linked : Bool) (signature : Option String) :
    (r.bindNew stage name linked signature).bindings.length = r.bindings.length + 1 :=
  List.length_append

theorem declaredHere_bindNew (h : r.scopes = scope :: outer) (linked : Bool)
    (signature : Option String) (other : String) :
    (r.bindNew stage name linked signature).declaredHere other =
      if other = name then some r.bindings.length else r.declaredHere other := by
  rw [declaredHere, declaredHere, Sound.scopes_bindNew h, h]
  by_cases hname : other = name
  · simp [hname]
  · have hother : (other == name) = false := beq_false_of_ne hname
    simp [List.lookup_cons, hname, hother]

theorem resolve_bindNew (h : r.scopes = scope :: outer) (linked : Bool)
    (signature : Option String) (other : String) :
    (r.bindNew stage name linked signature).resolve other =
      if other = name then some r.bindings.length else r.resolve other := by
  rw [resolve, resolve, Sound.scopes_bindNew h, h]
  by_cases hname : other = name
  · simp [hname]
  · have hother : (other == name) = false := beq_false_of_ne hname
    simp [List.lookup_cons, hname, hother, List.findSome?_cons]

/-- A new binding is first seen at the site that is noted now: `Sees` after `bindNew` and
`View.bind`. -/
theorem Sees.bindNew (h : Sees r view) (hscopes : r.scopes = scope :: outer)
    (hnew : some r.bindings.length ∉ r.sites) (linked : Bool) (signature : Option String) :
    Sees ((r.bindNew stage name linked signature).addSite (some r.bindings.length))
      (view.bind name (some r.sites.length)) := by
  have hlater : Sees (r.addSite (some r.bindings.length)) view :=
    h.mono rfl (List.prefix_append _ _)
  have hfirst : (r.sites ++ [some r.bindings.length]).idxOf (some r.bindings.length) =
      r.sites.length := by
    rw [List.idxOf_append_of_notMem hnew, List.idxOf_cons_self, Nat.add_zero]
  refine ⟨fun other => ?_, fun other => ?_, fun scope' hscope' entry hentry => ?_⟩
  · show _ = ((r.bindNew stage name linked signature).declaredHere other).map _
    rw [declaredHere_bindNew hscopes, sites_addSite, sites_bindNew, View.own_bind]
    by_cases hother : other = name
    · rw [if_pos hother, if_pos hother, Option.map_some, hfirst]
    · rw [if_neg hother, if_neg hother]
      exact hlater.own other
  · show _ = ((r.bindNew stage name linked signature).resolve other).map _
    rw [resolve_bindNew hscopes, sites_addSite, sites_bindNew, View.lookup_bind]
    by_cases hother : other = name
    · rw [if_pos hother, if_pos hother, Option.map_some, hfirst]
    · rw [if_neg hother, if_neg hother]
      exact hlater.lookup other
  · rw [scopes_addSite, Sound.scopes_bindNew hscopes, List.mem_cons] at hscope'
    rw [sites_addSite, sites_bindNew]
    obtain rfl | hscope' := hscope'
    · obtain rfl | hentry := List.mem_cons.1 hentry
      · exact List.mem_append_right _ (List.mem_singleton_self _)
      · exact List.mem_append_left _ (h.noted scope (by simp [hscopes]) entry hentry)
    · exact List.mem_append_left _ (h.noted scope' (by simp [hscopes, hscope']) entry hentry)

end BindNew

/-- A declaration keeps `Agrees`: the first one of a name in its scope makes a variable, a later one
is a site of the same. -/
theorem Agrees.declare (h : Agrees kind r d) (stage : Stage) (name : String) (linked : Bool)
    (signature : Option String) :
    Agrees kind (r.declare stage name linked signature) (Scoping.resolve (.declare name) d) ∧
      (r.declare stage name linked signature).scopes.tail = r.scopes.tail := by
  have hown := h.sees.own name
  cases hname : r.declaredHere name with
  | some id =>
    rw [hname, Option.map_some] at hown
    rw [declare_of_declared hname, Scoping.resolve_declare_of_own hown]
    have hagain : Agrees kind (r.redeclareAt id linked signature) d :=
      ⟨h.sites, h.sees.mono rfl (List.prefix_refl _), fun i hi => by
        rw [redeclareAt, List.length_modify]
        exact h.bound i hi, h.innermost⟩
    refine ⟨hagain.addSite fun i hi => ?_, rfl⟩
    obtain rfl := Option.some.inj hi
    exact h.sees.mem_sites_of_declaredHere hname
  | none =>
    obtain ⟨names, outer, hscopes⟩ := h.innermost
    have hnew : some r.bindings.length ∉ r.sites := fun hmem => Nat.lt_irrefl _ (h.bound _ hmem)
    have hlength : d.sites.length = r.sites.length := by rw [h.sites, length_declaringSites]
    have hscopes' : (r.bindNew stage name linked signature).scopes =
        ⟨kind, (name, r.bindings.length) :: names⟩ :: outer :=
      Sound.scopes_bindNew hscopes linked signature
    rw [hname, Option.map_none] at hown
    rw [declare_of_new hname, Scoping.resolve_declare_of_new hown, hlength]
    refine ⟨⟨?_, h.sees.bindNew hscopes hnew linked signature, fun i hi => ?_, _, outer, hscopes'⟩,
      ?_⟩
    · rw [sites_addSite, sites_bindNew, declaringSites_concat_of_not_mem hnew, h.sites]
    · rw [length_addSite, length_bindNew]
      rw [sites_addSite, sites_bindNew, List.mem_append, List.mem_singleton] at hi
      obtain hmem | heq := hi
      · exact Nat.lt_succ_of_lt (h.bound i hmem)
      · exact Nat.lt_succ_of_le (Option.some.inj heq).le
    · rw [scopes_addSite, hscopes', hscopes]
      rfl

section Enter

variable (inner : ScopeKind)

theorem scopes_enter : (r.enter inner).scopes = ⟨some inner, []⟩ :: r.scopes := by
  rw [enter]
  split <;> rfl

theorem sites_enter : (r.enter inner).sites = r.sites := by
  rw [enter]
  split <;> rfl

theorem bindings_enter : (r.enter inner).bindings = r.bindings := by
  rw [enter]
  split <;> rfl

theorem Agrees.enter (h : Agrees kind r d) :
    Agrees (some inner) (r.enter inner) { d with view := d.view.inner } := by
  have hscopes := scopes_enter (r := r) inner
  have hsites := sites_enter (r := r) inner
  refine ⟨h.sites.trans (by rw [hsites]), ⟨fun name => ?_, fun name => ?_, ?_⟩, ?_, [], _, hscopes⟩
  · rw [declaredHere, hscopes]
    rfl
  · have hresolve : (r.enter inner).resolve name = r.resolve name := by
      rw [resolve, resolve, hscopes, List.findSome?_cons, List.lookup_nil]
    rw [View.lookup_inner, hresolve, hsites]
    exact h.sees.lookup name
  · rw [hscopes, hsites, List.forall_mem_cons]
    exact ⟨by simp, h.sees.noted⟩
  · rw [hsites, bindings_enter]
    exact h.bound

end Enter

theorem Agrees.leave {d' : Reading} {inner : Option ScopeKind} (h : Agrees kind r d)
    (hinner : Agrees inner r' d') (hscopes : r'.scopes.tail = r.scopes)
    (hsites : r.sites <+: r'.sites) : Agrees kind r'.leave { d' with view := d.view } where
  sites := hinner.sites
  sees := h.sees.mono hscopes hsites
  bound := hinner.bound
  innermost := by
    obtain ⟨names, outer, houter⟩ := h.innermost
    exact ⟨names, outer, hscopes.trans houter⟩

/-! ## Events -/

/-- The resolver goes through the events as the rules go through the scopes (`Agrees`), in a scope
of this kind, and leaves the scopes around it as they are. -/
def Follows (kind : Option ScopeKind) (es : List Event) (ts : List Scoping) : Prop :=
  ∀ stage r d, Agrees kind r d →
    Agrees kind (es.foldl (step stage) r) (Scoping.resolveList ts d) ∧
      (es.foldl (step stage) r).scopes.tail = r.scopes.tail

namespace Follows

variable {es fs : List Event} {ts us : List Scoping}

theorem nil : Follows kind [] [] := fun _ _ _ h => ⟨h, rfl⟩

theorem append (h : Follows kind es ts) (h' : Follows kind fs us) :
    Follows kind (es ++ fs) (ts ++ us) := by
  intro stage r d hagrees
  obtain ⟨hmid, htail⟩ := h stage r d hagrees
  obtain ⟨hlast, htail'⟩ := h' stage _ _ hmid
  rw [List.foldl_append, Scoping.resolveList_append]
  exact ⟨hlast, htail'.trans htail⟩

theorem flatMap {α : Type} {f : α → List Event} {g : α → List Scoping} {xs : List α}
    (h : ∀ x ∈ xs, Follows kind (f x) (g x)) : Follows kind (xs.flatMap f) (xs.flatMap g) := by
  induction xs with
  | nil => exact nil
  | cons x xs ih =>
    rw [List.forall_mem_cons] at h
    exact append h.1 (ih h.2)

theorem other {e : Event} (h : ∀ stage r, (step stage r e).sites = r.sites ∧
    (step stage r e).scopes = r.scopes ∧ (step stage r e).bindings = r.bindings) :
    Follows kind [e] [] := by
  intro stage r d hagrees
  obtain ⟨hsites, hscopes, hbindings⟩ := h stage r
  exact ⟨hagrees.congr hsites hscopes hbindings, congrArg List.tail hscopes⟩

theorem use (name : String) : Follows kind [.name .use name] [.use name] :=
  fun stage _ _ hagrees => hagrees.use stage name

theorem declared (placement : Placement) (type : QualifiedType) (x : Declarator) (name : String) :
    Follows kind [.name (.declared placement type x) name] [.declare name] :=
  fun stage _ _ hagrees => hagrees.declare stage name _ _

theorem parameter (name : String) :
    Follows (some .function) [.name .parameter name] [.declare name] := by
  intro stage r d hagrees
  obtain ⟨names, outer, hscopes⟩ := hagrees.innermost
  have hat : r.atParameters = true := by simp [atParameters, hscopes]
  have hmeet : [Event.name .parameter name].foldl (step stage) r =
      r.declare stage name false none := meet_parameter hat stage name
  rw [hmeet]
  exact hagrees.declare stage name _ _

theorem prototypeParameter (name : String) :
    Follows (some .prototype) [.name .parameter name] [.blank] := by
  intro stage r d hagrees
  obtain ⟨names, outer, hscopes⟩ := hagrees.innermost
  have hat : r.atParameters = false := by simp [atParameters, hscopes]
  have hmeet : [Event.name .parameter name].foldl (step stage) r = r.addSite none :=
    meet_parameter_of_not hat stage name
  rw [hmeet]
  exact ⟨hagrees.addSite (by simp), rfl⟩

theorem ofPlain (h : ∀ e ∈ es, e.isPlain = true) : Follows kind es (usesIn es) := by
  induction es with
  | nil => exact nil
  | cons e es ih =>
    rw [List.forall_mem_cons] at h
    cases e with
    | site s =>
      obtain ⟨role, name⟩ := s
      cases role with
      | use => exact append (use name) (ih h.2)
      | type | field | function _ | callee _ =>
        exact append (other fun _ _ => ⟨rfl, rfl, rfl⟩) (ih h.2)
      | declared _ _ _ | parameter => cases h.1
    | directive _ | conditional _ _ | elif _ | enter _ | leave => cases h.1

theorem inScope {inner : ScopeKind} (h : Follows (some inner) es ts) :
    Follows kind (Event.inScope inner es) [.scope ts] := by
  intro stage r d hagrees
  obtain ⟨hinner, htail⟩ := h stage _ _ (hagrees.enter inner)
  have hscopes : (es.foldl (step stage) (r.enter inner)).scopes.tail = r.scopes := by
    rw [htail, scopes_enter, List.tail_cons]
  have hsites : r.sites <+: (es.foldl (step stage) (r.enter inner)).sites :=
    (grows_step stage r (.enter inner)).sites.trans (grows_foldl stage _ es).sites
  have hfold : (Event.inScope inner es).foldl (step stage) r =
      (es.foldl (step stage) (r.enter inner)).leave := by
    rw [Event.inScope, List.cons_append, List.foldl_cons, List.foldl_append]
    rfl
  rw [hfold]
  exact ⟨hagrees.leave hinner hscopes hsites, congrArg List.tail hscopes⟩

end Follows

end Resolver

/-! ## The syntax -/

open Resolver (Follows)

variable {kind : Option ScopeKind}

theorem Declarator.follows_events (placement : Placement) (type : QualifiedType)
    (d : Declarator) : Follows kind (d.events placement type) d.scoping :=
  .append (.append (.ofPlain (ArraySize.isPlain_events d.array))
    (.ofPlain (Expr.isPlain_optionalEvents d.initializer))) (.declared placement type d d.name)

theorem Declaration.follows_events (placement : Placement) (d : Declaration) :
    Follows kind (d.events placement) d.scoping :=
  .append (.ofPlain d.type.specifier.isPlain_events)
    (.flatMap fun x _ => x.follows_events placement d.type)

theorem Parameter.follows_events {declare : String → Scoping}
    (h : ∀ name, Follows kind [.name .parameter name] [declare name]) (p : Parameter) :
    Follows kind p.events (p.scoping declare) := by
  have htype : Follows kind [.name .type p.type] [] := .other fun _ _ => ⟨rfl, rfl, rfl⟩
  have hsize : Follows kind (Expr.optionalEvents p.size) (usesIn (Expr.optionalEvents p.size)) :=
    .ofPlain (Expr.isPlain_optionalEvents p.size)
  have hname : Follows kind (p.name.map fun name => Event.name .parameter name).toList
      (p.name.map declare).toList := by
    cases p.name with
    | none => exact .nil
    | some name => exact h name
  exact .append (.append htype hsize) hname

theorem Prototype.follows_headEvents (p : Prototype) :
    Follows kind p.headEvents (usesIn p.returnType.specifier.events) := by
  have hname : Follows kind [.name (.function p.arity) p.name] [] :=
    .other fun _ _ => ⟨rfl, rfl, rfl⟩
  have h := Follows.append (.ofPlain p.returnType.specifier.isPlain_events) hname
  rwa [List.append_nil] at h

theorem SimpleStatement.follows_events (s : SimpleStatement) :
    Follows kind s.events s.scoping := by
  cases s with
  | declaration decl => exact decl.follows_events .inBody
  | expression value => exact .ofPlain (Expr.isPlain_optionalEvents value)

namespace Statement

mutual

theorem follows_events : (s : Statement) → (kind : Option ScopeKind) →
    Follows kind s.events (s.scoping .braces)
  | block body, _ => .inScope (follows_listEvents body _)
  | simple stmt, _ => stmt.follows_events
  | ifThen condition body, kind | whileLoop condition body, kind =>
    .append (.ofPlain condition.isPlain_events) (follows_events body kind)
  | ifElse condition whenTrue whenFalse, kind =>
    .append (.append (.ofPlain condition.isPlain_events) (follows_events whenTrue kind))
      (follows_events whenFalse kind)
  | doWhile body condition, kind =>
    .append (follows_events body kind) (.ofPlain condition.isPlain_events)
  | forLoop init condition step body, _ =>
    .inScope (.append (.append (.append init.follows_events
      (.ofPlain (Expr.isPlain_optionalEvents condition)))
      (.ofPlain (Expr.isPlain_optionalEvents step))) (follows_events body _))
  | returnValue value, _ => .ofPlain (Expr.isPlain_optionalEvents value)
  | continueLoop, _ | breakLoop, _ | discard, _ => .nil

theorem follows_listEvents : (body : List Statement) → (kind : Option ScopeKind) →
    Follows kind (listEvents body) (listScoping .braces body)
  | [], _ => .nil
  | s :: body, kind => .append (follows_events s kind) (follows_listEvents body kind)

end

end Statement

namespace Item

theorem follows_names (names : List String) :
    Follows kind (names.map (Event.name .use)) (names.map .use) := by
  induction names with
  | nil => exact .nil
  | cons name names ih => exact .append (.use name) ih

mutual

theorem follows_events : (i : Item) → Follows kind i.events (i.scoping .braces)
  | directive _ => .other fun _ _ => ⟨rfl, rfl, rfl⟩
  | conditional _ _ body rest => by
    have hline : ∀ kind' condition, Follows kind [.conditional kind' condition] [] :=
      fun _ _ => .other fun _ _ => ⟨rfl, rfl, rfl⟩
    exact .append (.append (hline _ _) (follows_listEvents body)) (follows_branchEvents rest)
  | precision _ _ => .other fun _ _ => ⟨rfl, rfl, rfl⟩
  | invariant names => follows_names names
  | declaration decl => decl.follows_events .topLevel
  | prototype signature =>
    .append signature.follows_headEvents
      (.inScope (.flatMap fun p _ => p.follows_events .prototypeParameter))
  | function signature body =>
    .append signature.follows_headEvents (.inScope (.append
      (.flatMap fun p _ => p.follows_events .parameter) (Statement.follows_listEvents body _)))

theorem follows_listEvents : (items : List Item) →
    Follows kind (listEvents items) (listScoping .braces items)
  | [] => .nil
  | i :: items => .append (follows_events i) (follows_listEvents items)

theorem follows_branchEvents : (b : Branches) →
    Follows kind (branchEvents b) (branchScoping .braces b)
  | .done => .nil
  | .otherwise body => follows_listEvents body
  | .elif condition body rest => by
    have hline : Follows kind [.elif condition] [] := .other fun _ _ => ⟨rfl, rfl, rfl⟩
    exact .append (.append hline (follows_listEvents body)) (follows_branchEvents rest)

end

end Item

/-! ## The table -/

theorem Resolver.agrees_start (bindings : List Binding) : Agrees none (start bindings) .start :=
  ⟨rfl, ⟨fun _ => rfl, fun _ => rfl, by simp [start]⟩, by simp [start], [], [], rfl⟩

theorem declaringSites_run (stage : Stage) (bindings : List Binding) (shader : Shader) :
    declaringSites (Resolver.run stage bindings shader).sites = shader.resolve .braces :=
  (Item.follows_listEvents shader.items stage _ _ (Resolver.agrees_start bindings)).1.sites.symm

namespace BindingTable

/-- The table that `build` makes of a program knows each variable site by the declaration that
braces tell, and that is the one by the rules of the language, unless a branch or a body is a bare
declaration or a prototype's parameter is used in the size of another (`Braced`). -/
theorem build_resolves (vertex fragment : Shader) :
    ∃ table, (build ⟨some vertex, some fragment⟩).result = .ok table ∧
      ∀ stage shader, (Program.mk (some vertex) (some fragment)).shader? stage = some shader →
        ∃ bindings, table.stage stage = .ok bindings ∧
          declaringSites bindings.sites = shader.resolve .braces ∧
          (shader.Braced → declaringSites bindings.sites = shader.resolve .language) := by
  refine ⟨_, Program.result_build vertex fragment, fun stage shader hshader => ?_⟩
  cases stage with
  | vertex | fragment =>
    cases hshader
    refine ⟨_, rfl, declaringSites_run _ _ _, fun hbraced => ?_⟩
    rw [hbraced.resolve_eq]
    exact declaringSites_run _ _ _

/-- A branch in braces and a `for` loop each hide the global `x`, which is seen again behind them: a
shader that is `Braced`. -/
theorem build_resolves_braced :
    ∃ shader table bindings, Shader.parse ("float x;float f(int n,float a[2]);" ++
        "void main()\x7bif(true)\x7bfloat x=1.;x=2.;\x7dfor(int x=0;x<2;)x;x=3.;\x7d") .vertex =
        .ok shader ∧
      shader.Braced ∧ (build ⟨some shader, some .idle⟩).result = .ok table ∧
      table.stage .vertex = .ok bindings ∧
      declaringSites bindings.sites =
        [some 0, none, none, some 3, some 3, some 5, some 5, some 5, some 0] := by
  let shader : Shader := ⟨[
    .declaration ⟨⟨none, none, .named "float"⟩, [⟨"x", none, none⟩]⟩,
    .prototype ⟨⟨none, none, .named "float"⟩, "f",
      [⟨false, none, none, "int", some "n", none⟩,
        ⟨false, none, none, "float", some "a", some (.int 2)⟩]⟩,
    .function ⟨⟨none, none, .named "void"⟩, "main", []⟩ [
      .ifThen (.bool true) (.block [
        .simple (.declaration ⟨⟨none, none, .named "float"⟩,
          [⟨"x", none, some (.float ⟨"1."⟩)⟩]⟩),
        .simple (.expression (some (.assign .set (.identifier "x") (.float ⟨"2."⟩))))]),
      .forLoop (.declaration ⟨⟨none, none, .named "int"⟩, [⟨"x", none, some (.int 0)⟩]⟩)
        (some (.binary .lt (.identifier "x") (.int 2))) none
        (.simple (.expression (some (.identifier "x")))),
      .simple (.expression (some (.assign .set (.identifier "x") (.float ⟨"3."⟩))))]]⟩
  have hparse : Shader.parse ("float x;float f(int n,float a[2]);" ++
        "void main()\x7bif(true)\x7bfloat x=1.;x=2.;\x7dfor(int x=0;x<2;)x;x=3.;\x7d") .vertex =
        .ok shader := by decide +kernel
  have hbraced : shader.Braced := by decide
  obtain ⟨table, htable, hstages⟩ := build_resolves shader .idle
  obtain ⟨bindings, hbindings, -, hsites⟩ := hstages .vertex shader rfl
  exact ⟨shader, table, bindings, hparse, hbraced, htable, hbindings, hsites hbraced⟩

/-- A branch that is a bare declaration is visible behind the branch: `build` and
`ScopeRules.language` differ. -/
theorem build_leaks_bare_declaration :
    ∃ shader table bindings, Shader.parse
        "float x;void main()\x7bif(true)float x=1.;x=2.;\x7d" .vertex = .ok shader ∧
      (build ⟨some shader, some .idle⟩).result = .ok table ∧
      table.stage .vertex = .ok bindings ∧
      declaringSites bindings.sites = [some 0, some 1, some 1] ∧
      shader.resolve .language = [some 0, some 1, some 0] := by
  let shader : Shader := ⟨[
    .declaration ⟨⟨none, none, .named "float"⟩, [⟨"x", none, none⟩]⟩,
    .function ⟨⟨none, none, .named "void"⟩, "main", []⟩ [
      .ifThen (.bool true) (.simple (.declaration ⟨⟨none, none, .named "float"⟩,
        [⟨"x", none, some (.float ⟨"1."⟩)⟩]⟩)),
      .simple (.expression (some (.assign .set (.identifier "x") (.float ⟨"2."⟩))))]]⟩
  refine ⟨shader, _, _, by decide +kernel, Program.result_build shader .idle, rfl, ?_, rfl⟩
  exact declaringSites_run .vertex [] shader

end BindingTable

end ShaderMinifier
