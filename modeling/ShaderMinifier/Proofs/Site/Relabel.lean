import Mathlib
import ShaderMinifier.Site.DirectiveWord
import ShaderMinifier.Site.Relabel

/-
  What relabelling does to the events of a tree: each site takes the next name of the supply, in
  order, and nothing else changes but the names inside the declarations that sites tell of.
-/

namespace ShaderMinifier

namespace Event

/-- The names at the sites among events, in order. -/
def siteNames (es : List Event) : List String := (es.filterMap site?).map Site.name

@[simp] theorem siteNames_nil : siteNames [] = [] := rfl

@[simp] theorem siteNames_append (es fs : List Event) :
    siteNames (es ++ fs) = siteNames es ++ siteNames fs := by
  simp [siteNames]

@[simp] theorem siteNames_name (role : Role) (name : String) (es : List Event) :
    siteNames (.name role name :: es) = name :: siteNames es := rfl

theorem siteNames_other {e : Event} (he : e.site? = none) (es : List Event) :
    siteNames (e :: es) = siteNames es := by
  simp [siteNames, he]

@[simp] theorem siteNames_inScope (kind : ScopeKind) (es : List Event) :
    siteNames (inScope kind es) = siteNames es := by
  rw [inScope, siteNames_append, siteNames_other rfl, siteNames_other rfl, siteNames_nil,
    List.append_nil]

end Event

/-- The roles differ at most in the names inside a declaration, which `relabel` changes along with
the site's own. -/
inductive Role.Like : Role → Role → Prop
  | declared {placement : Placement} {type type' : QualifiedType} {d d' : Declarator}
      (h : type'.qualifier = type.qualifier) :
    Like (.declared placement type d) (.declared placement type' d')
  | refl (role : Role) : Like role role

theorem Role.Like.isVariable_eq {role role' : Role} (h : Role.Like role role') :
    role'.isVariable = role.isVariable := by
  cases h <;> rfl

theorem Role.Like.isFunction_eq {role role' : Role} (h : Role.Like role role') :
    role'.isFunction = role.isFunction := by
  cases h <;> rfl

/-- The second events are the first ones with names from a supply, taken by `Relabel.next`; the
other list is what is left of it. -/
inductive Renames : List String → List Event → List Event → List String → Prop
  | nil {supply : List String} : Renames supply [] [] supply
  | other {supply rest : List String} {e : Event} {es es' : List Event} (he : e.site? = none)
      (h : Renames supply es es' rest) : Renames supply (e :: es) (e :: es') rest
  | site {supply rest : List String} {role role' : Role} {name : String} {es es' : List Event}
      (hrole : Role.Like role role')
      (h : Renames (Relabel.next name supply).2 es es' rest) :
    Renames supply (.site ⟨role, name⟩ :: es)
      (.site ⟨role', (Relabel.next name supply).1⟩ :: es') rest

namespace Renames

open Event

variable {supply mid rest : List String} {es es' fs fs' : List Event}

theorem append (h : Renames supply es es' mid) (h' : Renames mid fs fs' rest) :
    Renames supply (es ++ fs) (es' ++ fs') rest := by
  induction h with
  | nil => exact h'
  | other he _ ih => exact .other he (ih h')
  | site hrole _ ih => exact .site hrole (ih h')

theorem name {role role' : Role} (hrole : Role.Like role role') (name : String)
    (supply : List String) :
    Renames supply [.name role name] [.name role' (Relabel.next name supply).1]
      (Relabel.next name supply).2 :=
  .site hrole .nil

theorem inScope (kind : ScopeKind) (h : Renames supply es es' rest) :
    Renames supply (Event.inScope kind es) (Event.inScope kind es') rest :=
  .other rfl (h.append (.other rfl .nil))

theorem sites {names extra : List String} (h : Renames supply es es' rest)
    (hsupply : supply = names ++ extra) (hlength : names.length = (siteNames es).length) :
    List.Forall₂ (fun s s' => Role.Like s.role s'.role) (es.filterMap site?)
        (es'.filterMap site?) ∧
      siteNames es' = names := by
  induction h generalizing names with
  | nil =>
    rw [siteNames_nil, List.length_nil, List.length_eq_zero_iff] at hlength
    exact ⟨.nil, hlength.symm⟩
  | other he _ ih =>
    rw [siteNames_other he] at hlength ⊢
    rw [List.filterMap_cons_none he, List.filterMap_cons_none he]
    exact ih hsupply hlength
  | site hrole _ ih =>
    cases names with
    | nil => cases hlength
    | cons name names =>
      subst hsupply
      obtain ⟨hroles, hnames⟩ := ih rfl (Nat.succ.inj hlength)
      exact ⟨.cons hrole hroles, congrArg (name :: ·) hnames⟩

theorem directiveTexts (h : Renames supply es es' rest) :
    es'.filterMap directiveText = es.filterMap directiveText := by
  induction h with
  | nil => rfl
  | other _ _ ih => rw [List.filterMap_cons, List.filterMap_cons, ih]
  | site _ _ ih => rw [List.filterMap_cons_none rfl, List.filterMap_cons_none rfl, ih]

end Renames

open Relabel

/-! ## Lists -/

namespace Relabel

variable {α : Type}

theorem mapM_cons (f : α → Relabel α) (x : α) (xs : List α) (supply : List String) :
    (x :: xs).mapM f supply =
      ((f x supply).1 :: (xs.mapM f (f x supply).2).1, (xs.mapM f (f x supply).2).2) := by
  rw [List.mapM_cons]
  rfl

theorem length_mapM (f : α → Relabel α) (xs : List α) (supply : List String) :
    (xs.mapM f supply).1.length = xs.length := by
  induction xs generalizing supply with
  | nil => rfl
  | cons x xs ih => rw [mapM_cons, List.length_cons, ih, List.length_cons]

theorem renames_mapM {f : α → Relabel α} {events events' : α → List Event} {xs : List α}
    (h : ∀ x ∈ xs, ∀ supply, Renames supply (events x) (events' (f x supply).1) (f x supply).2)
    (supply : List String) :
    Renames supply (xs.flatMap events) ((xs.mapM f supply).1.flatMap events')
      (xs.mapM f supply).2 := by
  induction xs generalizing supply with
  | nil => exact .nil
  | cons x xs ih =>
    rw [mapM_cons, List.flatMap_cons, List.flatMap_cons]
    exact (h x (by simp) supply).append (ih (fun y hy => h y (by simp [hy])) _)

theorem renames_nextOption {role role' : Role} (hrole : Role.Like role role')
    (name : Option String) (supply : List String) :
    Renames supply (name.map fun name => Event.name role name).toList
      ((nextOption name supply).1.map fun name => Event.name role' name).toList
      (nextOption name supply).2 := by
  cases name with
  | none => exact .nil
  | some name => exact Renames.name hrole name supply

end Relabel

/-! ## Expressions -/

namespace Expr

theorem length_relabelList (items : List Expr) (supply : List String) :
    (relabelList items supply).1.length = items.length := by
  induction items generalizing supply with
  | nil => rfl
  | cons item items ih =>
    show (relabelList items (relabel item supply).2).1.length + 1 = items.length + 1
    rw [ih]

mutual

theorem renames_relabel : (e : Expr) → (supply : List String) →
    Renames supply e.events (e.relabel supply).1.events (e.relabel supply).2
  | identifier name, supply => Renames.name (.refl _) name supply
  | int _, _ | float _, _ | bool _, _ => .nil
  | unary _ operand, supply | step _ operand, supply => renames_relabel operand supply
  | binary _ left right, supply | assign _ left right, supply =>
    (renames_relabel left supply).append (renames_relabel right _)
  | ternary condition whenTrue whenFalse, supply =>
    ((renames_relabel condition supply).append (renames_relabel whenTrue _)).append
      (renames_relabel whenFalse _)
  | index base position, supply =>
    (renames_relabel base supply).append (renames_relabel position _)
  | field base name, supply =>
    (renames_relabel base supply).append (Renames.name (.refl _) name _)
  | call callee args, supply => by
    have hname : Renames supply [.name (.callee args.length) callee]
        [.name (.callee (relabelList args (next callee supply).2).1.length)
          (next callee supply).1] (next callee supply).2 := by
      rw [length_relabelList]
      exact Renames.name (.refl _) callee supply
    exact hname.append (renames_relabelList args _)
  | sequence items, supply => renames_relabelList items supply

theorem renames_relabelList : (items : List Expr) → (supply : List String) →
    Renames supply (listEvents items) (listEvents (relabelList items supply).1)
      (relabelList items supply).2
  | [], _ => .nil
  | item :: items, supply =>
    (renames_relabel item supply).append (renames_relabelList items _)

end

theorem renames_relabelOption (value : Option Expr) (supply : List String) :
    Renames supply (optionalEvents value) (optionalEvents (relabelOption value supply).1)
      (relabelOption value supply).2 := by
  cases value with
  | none => exact .nil
  | some e => exact renames_relabel e supply

end Expr

/-! ## Declarations -/

theorem MemberDeclarator.renames_relabel (d : MemberDeclarator) (supply : List String) :
    Renames supply d.events (d.relabel supply).1.events (d.relabel supply).2 :=
  (Expr.renames_relabelOption d.size supply).append (Renames.name (.refl _) d.name _)

theorem Member.renames_relabel (m : Member) (supply : List String) :
    Renames supply m.events (m.relabel supply).1.events (m.relabel supply).2 :=
  (Renames.name (.refl _) m.type supply).append
    (renames_mapM (fun d _ => d.renames_relabel) _)

theorem TypeSpecifier.renames_relabel (t : TypeSpecifier) (supply : List String) :
    Renames supply t.events (t.relabel supply).1.events (t.relabel supply).2 := by
  cases t with
  | named name => exact Renames.name (.refl _) name supply
  | struct spec =>
    exact (renames_nextOption (.refl _) spec.name supply).append
      (renames_mapM (fun m _ => m.renames_relabel) _)

theorem ArraySize.renames_relabelOption (array : Option ArraySize) (supply : List String) :
    Renames supply ((array.map ArraySize.events).getD [])
      (((relabelOption array supply).1.map ArraySize.events).getD [])
      (relabelOption array supply).2 := by
  cases array with
  | none => exact .nil
  | some size =>
    cases size with
    | unsized => exact .nil
    | sized size => exact size.renames_relabel supply

theorem Declarator.renames_relabel (placement : Placement) {type type' : QualifiedType}
    (htype : type'.qualifier = type.qualifier) (d : Declarator) (supply : List String) :
    Renames supply (d.events placement type) ((d.relabel supply).1.events placement type')
      (d.relabel supply).2 :=
  ((ArraySize.renames_relabelOption d.array supply).append
    (Expr.renames_relabelOption d.initializer _)).append
      (Renames.name (.declared htype) d.name _)

theorem Declaration.renames_relabel (placement : Placement) (d : Declaration)
    (supply : List String) :
    Renames supply (d.events placement) ((d.relabel supply).1.events placement)
      (d.relabel supply).2 := by
  have htype : (d.relabel supply).1.type.qualifier = d.type.qualifier := rfl
  exact (d.type.specifier.renames_relabel supply).append
    (renames_mapM (fun x _ => x.renames_relabel placement htype) _)

theorem Parameter.renames_relabel (p : Parameter) (supply : List String) :
    Renames supply p.events (p.relabel supply).1.events (p.relabel supply).2 :=
  ((Renames.name (.refl _) p.type supply).append
    (Expr.renames_relabelOption p.size _)).append (renames_nextOption (.refl _) p.name _)

theorem Prototype.renames_relabel (p : Prototype) (supply : List String) :
    ∃ mid, Renames supply p.headEvents (p.relabel supply).1.headEvents mid ∧
      Renames mid p.paramEvents (p.relabel supply).1.paramEvents (p.relabel supply).2 := by
  refine ⟨(next p.name (p.returnType.specifier.relabel supply).2).2, ?_,
    renames_mapM (fun x _ => x.renames_relabel) _⟩
  have harity : (p.relabel supply).1.arity = p.arity := length_mapM _ _ _
  rw [headEvents, headEvents, harity]
  exact (p.returnType.specifier.renames_relabel supply).append (Renames.name (.refl _) p.name _)

/-! ## Statements -/

theorem SimpleStatement.renames_relabel (s : SimpleStatement) (supply : List String) :
    Renames supply s.events (s.relabel supply).1.events (s.relabel supply).2 := by
  cases s with
  | declaration decl => exact decl.renames_relabel .inBody supply
  | expression value => exact Expr.renames_relabelOption value supply

namespace Statement

mutual

theorem renames_relabel : (s : Statement) → (supply : List String) →
    Renames supply s.events (s.relabel supply).1.events (s.relabel supply).2
  | block body, supply => (renames_relabelList body supply).inScope .block
  | simple stmt, supply => stmt.renames_relabel supply
  | ifThen condition body, supply =>
    (condition.renames_relabel supply).append (renames_relabel body _)
  | ifElse condition whenTrue whenFalse, supply =>
    ((condition.renames_relabel supply).append (renames_relabel whenTrue _)).append
      (renames_relabel whenFalse _)
  | whileLoop condition body, supply =>
    (condition.renames_relabel supply).append (renames_relabel body _)
  | doWhile body condition, supply =>
    (renames_relabel body supply).append (condition.renames_relabel _)
  | forLoop init condition step body, supply =>
    ((((init.renames_relabel supply).append (Expr.renames_relabelOption condition _)).append
      (Expr.renames_relabelOption step _)).append (renames_relabel body _)).inScope .block
  | returnValue value, supply => Expr.renames_relabelOption value supply
  | continueLoop, _ | breakLoop, _ | discard, _ => .nil

theorem renames_relabelList : (body : List Statement) → (supply : List String) →
    Renames supply (listEvents body) (listEvents (relabelList body supply).1)
      (relabelList body supply).2
  | [], _ => .nil
  | stmt :: body, supply =>
    (renames_relabel stmt supply).append (renames_relabelList body _)

end

end Statement

/-! ## Items -/

namespace Item

theorem renames_names (names : List String) (supply : List String) :
    Renames supply (names.map (Event.name .use))
      ((names.mapM next supply).1.map (Event.name .use)) (names.mapM next supply).2 := by
  induction names generalizing supply with
  | nil => exact .nil
  | cons name names ih =>
    rw [mapM_cons]
    exact (Renames.name (.refl _) name supply).append (ih _)

mutual

theorem renames_relabel : (i : Item) → (supply : List String) →
    Renames supply i.events (i.relabel supply).1.events (i.relabel supply).2
  | directive _, _ => .other rfl .nil
  | conditional _ _ body rest, supply =>
    .other rfl ((renames_relabelList body supply).append (renames_relabelBranches rest _))
  | precision _ type, supply => Renames.name (.refl _) type supply
  | invariant names, supply => renames_names names supply
  | declaration decl, supply => decl.renames_relabel .topLevel supply
  | prototype signature, supply => by
    obtain ⟨mid, hhead, hparams⟩ := signature.renames_relabel supply
    exact hhead.append (hparams.inScope .prototype)
  | function signature body, supply => by
    obtain ⟨mid, hhead, hparams⟩ := signature.renames_relabel supply
    exact hhead.append ((hparams.append (Statement.renames_relabelList body _)).inScope .function)

theorem renames_relabelList : (items : List Item) → (supply : List String) →
    Renames supply (listEvents items) (listEvents (relabelList items supply).1)
      (relabelList items supply).2
  | [], _ => .nil
  | item :: items, supply =>
    (renames_relabel item supply).append (renames_relabelList items _)

theorem renames_relabelBranches : (b : Branches) → (supply : List String) →
    Renames supply (branchEvents b) (branchEvents (relabelBranches b supply).1)
      (relabelBranches b supply).2
  | .done, _ => .nil
  | .otherwise body, supply => renames_relabelList body supply
  | .elif _ body rest, supply =>
    .other rfl ((renames_relabelList body supply).append (renames_relabelBranches rest _))

end

end Item

/-! ## Shaders -/

namespace Shader

variable {shader : Shader} {names : List String}

theorem renames_withNames (shader : Shader) (names : List String) :
    ∃ rest, Renames names shader.events (shader.withNames names).events rest :=
  ⟨_, Item.renames_relabelList shader.items names⟩

theorem siteNames_events (shader : Shader) :
    Event.siteNames shader.events = shader.sites.map Site.name := rfl

/-- The sites of the second shader are those of the first one, under whatever names, with roles that
are `Like`. -/
def Aligned (before after : Shader) : Prop :=
  List.Forall₂ (fun s s' => Role.Like s.role s'.role) before.sites after.sites

theorem aligned_withNames (h : names.length = shader.sites.length) :
    shader.Aligned (shader.withNames names) := by
  obtain ⟨rest, hrenames⟩ := shader.renames_withNames names
  exact (hrenames.sites (List.append_nil names).symm
    (by rw [siteNames_events, List.length_map, h])).1

theorem names_withNames (h : names.length = shader.sites.length) :
    (shader.withNames names).sites.map Site.name = names := by
  obtain ⟨rest, hrenames⟩ := shader.renames_withNames names
  exact (hrenames.sites (List.append_nil names).symm
    (by rw [siteNames_events, List.length_map, h])).2

theorem name_mapNames {rename : Site → String} {p : Site × Site}
    (hp : p ∈ shader.sites.zip (shader.mapNames rename).sites) : p.2.name = rename p.1 := by
  obtain ⟨i, hi⟩ := List.mem_iff_getElem?.1 hp
  obtain ⟨hbefore, hafter⟩ := List.getElem?_zip_eq_some.1 hi
  have hnames : ((shader.mapNames rename).sites.map Site.name)[i]? =
      (shader.sites.map rename)[i]? := by
    rw [mapNames, names_withNames (List.length_map _)]
  simpa [hbefore, hafter] using hnames

theorem directiveWords_withNames :
    (shader.withNames names).directiveWords = shader.directiveWords := by
  obtain ⟨rest, hrenames⟩ := shader.renames_withNames names
  rw [directiveWords, hrenames.directiveTexts, directiveWords]

end Shader

end ShaderMinifier
