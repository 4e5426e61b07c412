import ShaderMinifier.Proofs.Lists
import ShaderMinifier.Proofs.Replace
import ShaderMinifier.Proofs.Site.Relabel

/-
  Relabelling keeps what can be read: a tree that is given names which may be declared, or keeps
  its own, can be read wherever it could be read before.
-/

namespace ShaderMinifier

open Event

/-- With names in place of these first in the supply, each as `Word.ReplacedBy` allows, the
computation uses them up and gives something with `P`. -/
def Relabel.Ensures {α : Type} (m : Relabel α) (names : List String) (P : α → Prop) : Prop :=
  ∀ given rest, List.Forall₂ Word.ReplacedBy names given →
    ∃ x, m (given ++ rest) = (x, rest) ∧ P x

namespace Relabel.Ensures

variable {α β : Type} {m : Relabel α} {names names' : List String} {P : α → Prop}
  {Q : β → Prop}

theorem next (name : String) : Ensures (Relabel.next name) [name] (Word.ReplacedBy name) := by
  intro given rest hgiven
  obtain ⟨new, _, hnew, hnil, rfl⟩ := List.forall₂_cons_left_iff.1 hgiven
  obtain rfl := List.forall₂_nil_left_iff.1 hnil
  exact ⟨new, rfl, hnew⟩

theorem pure {x : α} (h : P x) : Ensures (Pure.pure x) [] P := by
  intro given rest hgiven
  obtain rfl := List.forall₂_nil_left_iff.1 hgiven
  exact ⟨x, rfl, h⟩

theorem bind {next : α → Relabel β} (h : Ensures m names P)
    (hnext : ∀ x, P x → Ensures (next x) names' Q) :
    Ensures (m >>= next) (names ++ names') Q := by
  intro given rest hgiven
  obtain ⟨given₁, given₂, rfl, h₁, h₂⟩ := exists_append_of_forall₂ hgiven
  obtain ⟨x, hx, hP⟩ := h given₁ (given₂ ++ rest) h₁
  obtain ⟨y, hy, hQ⟩ := hnext x hP given₂ rest h₂
  refine ⟨y, ?_, hQ⟩
  rw [List.append_assoc]
  show next (m (given₁ ++ (given₂ ++ rest))).1 (m (given₁ ++ (given₂ ++ rest))).2 = (y, rest)
  rw [hx, hy]

theorem map {g : α → β} (h : Ensures m names P) (hg : ∀ x, P x → Q (g x)) :
    Ensures (m >>= fun x => Pure.pure (g x)) names Q := by
  have hbind : Ensures (m >>= fun x => Pure.pure (g x)) (names ++ []) Q :=
    h.bind fun x hx => pure (hg x hx)
  rwa [List.append_nil] at hbind

theorem mapM {f : α → Relabel α} {events : α → List Event} {R : α → α → Prop} {xs : List α}
    (h : ∀ x ∈ xs, Ensures (f x) (siteNames (events x)) (R x)) :
    Ensures (xs.mapM f) (siteNames (xs.flatMap events)) (List.Forall₂ R xs) := by
  induction xs with
  | nil => exact pure .nil
  | cons x xs ih =>
    rw [List.mapM_cons, List.flatMap_cons, siteNames_append]
    refine (h x (by simp)).bind fun x' hx => ?_
    exact (ih fun y hy => h y (by simp [hy])).map fun xs' hxs => .cons hx hxs

end Relabel.Ensures

open Relabel

/-! ## Expressions -/

namespace Expr

mutual

theorem ensures_relabel : (e : Expr) → Ensures (relabel e) (siteNames e.events) e.ReplacedBy
  | identifier name => (Ensures.next name).map fun _ h => .identifier h
  | int _ | float _ | bool _ => .pure (.refl _)
  | unary op x => (ensures_relabel x).map fun _ hx => .unary op hx
  | step op x => (ensures_relabel x).map fun _ hx => .step op hx
  | binary op x y => by
    rw [events, siteNames_append]
    exact (ensures_relabel x).bind fun _ hx => (ensures_relabel y).map fun _ hy =>
      .binary op hx hy
  | assign op x y => by
    rw [events, siteNames_append]
    exact (ensures_relabel x).bind fun _ hx => (ensures_relabel y).map fun _ hy =>
      .assign op hx hy
  | ternary x y z => by
    rw [events, siteNames_append, siteNames_append, List.append_assoc]
    exact (ensures_relabel x).bind fun _ hx => (ensures_relabel y).bind fun _ hy =>
      (ensures_relabel z).map fun _ hz => .ternary hx hy hz
  | index x y => by
    rw [events, siteNames_append]
    exact (ensures_relabel x).bind fun _ hx => (ensures_relabel y).map fun _ hy => .index hx hy
  | field x name => by
    rw [events, siteNames_append]
    exact (ensures_relabel x).bind fun _ hx => (Ensures.next name).map fun _ h => .field hx h
  | call callee args =>
    (Ensures.next callee).bind fun _ h => (ensures_relabelList args).map fun _ hargs =>
      .call h hargs
  | sequence items => (ensures_relabelList items).map fun _ h => .sequence h

theorem ensures_relabelList : (items : List Expr) →
    Ensures (relabelList items) (siteNames (listEvents items)) (List.Forall₂ ReplacedBy items)
  | [] => .pure .nil
  | item :: items => by
    rw [listEvents, siteNames_append]
    exact (ensures_relabel item).bind fun _ hitem =>
      (ensures_relabelList items).map fun _ hitems => .cons hitem hitems

end

theorem ensures_relabelOption (value : Option Expr) :
    Ensures (relabelOption value) (siteNames (optionalEvents value))
      (Option.Rel ReplacedBy value) := by
  cases value with
  | none => exact .pure .none
  | some e => exact (ensures_relabel e).map fun _ h => .some h

end Expr

/-! ## Declarations -/

theorem Relabel.Ensures.nextOption (role : Role) (name : Option String) :
    Ensures (Relabel.nextOption name)
      (siteNames (name.map fun name => Event.name role name).toList)
      (Option.Rel Word.ReplacedBy name) := by
  cases name with
  | none => exact .pure .none
  | some name => exact (Ensures.next name).map fun _ h => .some h

theorem MemberDeclarator.ensures_relabel (d : MemberDeclarator) :
    Ensures d.relabel (siteNames d.events) d.ReplacedBy := by
  rw [events, siteNames_append]
  exact (Expr.ensures_relabelOption d.size).bind fun _ hsize =>
    (Ensures.next d.name).map fun _ hname => .of_parts hname hsize

theorem Member.ensures_relabel (m : Member) :
    Ensures m.relabel (siteNames m.events) m.ReplacedBy :=
  (Ensures.next m.type).bind fun _ htype =>
    (Ensures.mapM fun d _ => MemberDeclarator.ensures_relabel d).map fun _ hdeclarators =>
      .of_parts htype hdeclarators

theorem TypeSpecifier.ensures_relabel (t : TypeSpecifier) :
    Ensures t.relabel (siteNames t.events) t.ReplacedBy := by
  cases t with
  | named name => exact (Ensures.next name).map fun _ h => .named h
  | struct spec =>
    rw [events, StructType.events, siteNames_append]
    exact (Ensures.nextOption .type spec.name).bind fun _ hname =>
      (Ensures.mapM fun m _ => Member.ensures_relabel m).map fun _ hmembers =>
        .struct hname hmembers

theorem QualifiedType.ensures_relabel (t : QualifiedType) :
    Ensures t.relabel (siteNames t.specifier.events) t.ReplacedBy :=
  t.specifier.ensures_relabel.map fun _ h => ⟨rfl, h⟩

theorem ArraySize.ensures_relabelOption (array : Option ArraySize) :
    Ensures (relabelOption array) (siteNames ((array.map ArraySize.events).getD []))
      (Declarator.ArrayReplacedBy array) := by
  cases array with
  | none => exact .pure .none
  | some size =>
    cases size with
    | unsized => exact .pure .unsized
    | sized size => exact size.ensures_relabel.map fun _ h => .sized h

theorem Declarator.ensures_relabel (placement : Placement) (type : QualifiedType)
    (d : Declarator) : Ensures d.relabel (siteNames (d.events placement type)) d.ReplacedBy := by
  rw [events, siteNames_append, siteNames_append, List.append_assoc]
  exact (ArraySize.ensures_relabelOption d.array).bind fun _ harray =>
    (Expr.ensures_relabelOption d.initializer).bind fun _ hvalue =>
      (Ensures.next d.name).map fun _ hname => .of_parts hname harray hvalue

theorem Declaration.ensures_relabel (placement : Placement) (d : Declaration) :
    Ensures d.relabel (siteNames (d.events placement)) d.ReplacedBy := by
  rw [events, siteNames_append]
  exact d.type.ensures_relabel.bind fun _ htype =>
    (Ensures.mapM fun x _ => Declarator.ensures_relabel placement d.type x).map
      fun _ hdeclarators => .of_parts htype hdeclarators

theorem Parameter.ensures_relabel (p : Parameter) :
    Ensures p.relabel (siteNames p.events) p.ReplacedBy := by
  rw [events, siteNames_append, siteNames_name]
  exact (Ensures.next p.type).bind fun _ htype =>
    (Expr.ensures_relabelOption p.size).bind fun _ hsize =>
      (Ensures.nextOption .parameter p.name).map fun _ hname => .of_parts htype hname hsize

theorem Prototype.ensures_relabel (p : Prototype) :
    Ensures p.relabel (siteNames (p.headEvents ++ p.paramEvents)) p.ReplacedBy := by
  rw [headEvents, paramEvents, siteNames_append, siteNames_append, List.append_assoc]
  exact p.returnType.ensures_relabel.bind fun _ htype =>
    (Ensures.next p.name).bind fun _ hname =>
      (Ensures.mapM fun x _ => Parameter.ensures_relabel x).map fun _ hparams =>
        .of_parts htype hname hparams

/-! ## Statements -/

theorem SimpleStatement.ensures_relabel (s : SimpleStatement) :
    Ensures s.relabel (siteNames s.events) s.ReplacedBy := by
  cases s with
  | declaration decl => exact (decl.ensures_relabel .inBody).map fun _ h => .declaration h
  | expression value => exact (Expr.ensures_relabelOption value).map fun _ h => .expression h

namespace Statement

mutual

theorem ensures_relabel : (s : Statement) →
    Ensures (relabel s) (siteNames s.events) s.ReplacedBy
  | block body => by
    rw [events, siteNames_inScope]
    exact (ensures_relabelList body).map fun _ h => .block (.of_forall₂ h)
  | simple stmt => stmt.ensures_relabel.map fun _ h => .simple h
  | ifThen condition body => by
    rw [events, siteNames_append]
    exact condition.ensures_relabel.bind fun _ hc => (ensures_relabel body).map fun _ h =>
      .ifThen hc h
  | ifElse condition whenTrue whenFalse => by
    rw [events, siteNames_append, siteNames_append, List.append_assoc]
    exact condition.ensures_relabel.bind fun _ hc => (ensures_relabel whenTrue).bind fun _ ht =>
      (ensures_relabel whenFalse).map fun _ hf => .ifElse hc ht hf
  | whileLoop condition body => by
    rw [events, siteNames_append]
    exact condition.ensures_relabel.bind fun _ hc => (ensures_relabel body).map fun _ h =>
      .whileLoop hc h
  | doWhile body condition => by
    rw [events, siteNames_append]
    exact (ensures_relabel body).bind fun _ h => condition.ensures_relabel.map fun _ hc =>
      .doWhile h hc
  | forLoop init condition step body => by
    rw [events, siteNames_inScope, siteNames_append, siteNames_append, siteNames_append,
      List.append_assoc, List.append_assoc]
    exact init.ensures_relabel.bind fun _ hinit =>
      (Expr.ensures_relabelOption condition).bind fun _ hc =>
        (Expr.ensures_relabelOption step).bind fun _ hstep =>
          (ensures_relabel body).map fun _ h => .forLoop hinit hc hstep h
  | returnValue value => (Expr.ensures_relabelOption value).map fun _ h => .returnValue h
  | continueLoop | breakLoop | discard => .pure (.refl _)

theorem ensures_relabelList : (body : List Statement) →
    Ensures (relabelList body) (siteNames (listEvents body)) (List.Forall₂ ReplacedBy body)
  | [] => .pure .nil
  | stmt :: body => by
    rw [listEvents, siteNames_append]
    exact (ensures_relabel stmt).bind fun _ hs => (ensures_relabelList body).map fun _ h =>
      .cons hs h

end

end Statement

/-! ## Items -/

namespace Item

theorem ensures_names (names : List String) :
    Ensures (names.mapM next) (siteNames (names.map (Event.name .use)))
      (List.Forall₂ Word.ReplacedBy names) := by
  rw [List.map_eq_flatMap]
  exact .mapM fun name _ => .next name

mutual

theorem ensures_relabel : (i : Item) → Ensures (relabel i) (siteNames i.events) i.ReplacedBy
  | directive _ => .pure (.refl _)
  | conditional kind condition body rest => by
    rw [events, List.cons_append, siteNames_other rfl, siteNames_append]
    exact (ensures_relabelList body).bind fun _ hbody =>
      (ensures_relabelBranches rest).map fun _ hrest => .conditional kind condition hbody hrest
  | precision _ type => (Ensures.next type).map fun _ h _ _ hold => h.namesType hold
  | invariant names => (ensures_names names).map fun _ h => .invariant h
  | declaration decl => (decl.ensures_relabel .topLevel).map fun _ h => .declaration h
  | prototype signature => by
    rw [events, siteNames_append, siteNames_inScope, ← siteNames_append]
    exact signature.ensures_relabel.map fun _ h => .prototype h
  | function signature body => by
    rw [events, siteNames_append, siteNames_inScope, siteNames_append, ← List.append_assoc,
      ← siteNames_append]
    exact signature.ensures_relabel.bind fun _ hp =>
      (Statement.ensures_relabelList body).map fun _ h => .function hp (.of_forall₂ h)

theorem ensures_relabelList : (items : List Item) →
    Ensures (relabelList items) (siteNames (listEvents items)) (ListReplacedBy items)
  | [] => .pure .nil
  | item :: items => by
    rw [listEvents, siteNames_append]
    exact (ensures_relabel item).bind fun _ hi => (ensures_relabelList items).map fun _ h =>
      .cons hi h

theorem ensures_relabelBranches : (b : Branches) →
    Ensures (relabelBranches b) (siteNames (branchEvents b)) (BranchesReplacedBy b)
  | .done => .pure .done
  | .otherwise body => (ensures_relabelList body).map fun _ h => .otherwise h
  | .elif condition body rest => by
    rw [branchEvents, List.cons_append, siteNames_other rfl, siteNames_append]
    exact (ensures_relabelList body).bind fun _ hbody =>
      (ensures_relabelBranches rest).map fun _ hrest => .elif condition hbody hrest

end

end Item

theorem Shader.allFit_withNames {shader : Shader} {names : List String} {stage : Stage}
    {room : Nat} (h : Item.AllFit stage shader.items room)
    (hnames : List.Forall₂ Word.ReplacedBy (shader.sites.map Site.name) names) :
    Item.AllFit stage (shader.withNames names).items room := by
  obtain ⟨items, hitems, hreplaced⟩ := Item.ensures_relabelList shader.items names [] hnames
  rw [List.append_nil] at hitems
  rw [withNames, hitems]
  exact hreplaced stage room h

end ShaderMinifier
