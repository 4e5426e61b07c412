import ShaderMinifier.Proofs.Site.Relabel

/-
  Relabelling loses nothing. A tree that is given its own names stays what it is, and of the names
  that a tree is given one after the other only the last ones matter; so a tree that was given
  other names is itself again once it gets back its own.
-/

namespace ShaderMinifier

open Event

/-- With these names first in the supply, the computation gives `x` and uses them up. -/
def Relabel.Gives {α : Type} (m : Relabel α) (x : α) (names : List String) : Prop :=
  ∀ rest, m (names ++ rest) = (x, rest)

/-- Both computations use up `count` names and give the same (`Gives`). -/
def Relabel.Alike {α : Type} (count : Nat) (m m' : Relabel α) : Prop :=
  ∀ names, names.length = count → ∃ x, Gives m x names ∧ Gives m' x names

/-- These are the names of `x` under `f`: it stays what it is if it is given them, and it takes
others as if it had been given none before (`Alike`). -/
structure Relabel.Restores {α : Type} (f : α → Relabel α) (x : α) (names : List String) :
    Prop where
  own : Gives (f x) x names
  again (supply : List String) : Alike names.length (f (f x supply).1) (f x)

namespace Relabel

variable {α β γ δ ε : Type} {names names₁ names₂ names₃ names₄ : List String}

namespace Gives

variable {m : Relabel α} {x x' : α} {y : β}

theorem bind {next : α → Relabel β} (h : Gives m x names) (hnext : Gives (next x) y names₁) :
    Gives (m >>= next) y (names ++ names₁) := by
  intro rest
  rw [List.append_assoc]
  show next (m (names ++ (names₁ ++ rest))).1 (m (names ++ (names₁ ++ rest))).2 = (y, rest)
  rw [h, hnext]

theorem map {g : α → β} (h : Gives m x names) :
    Gives (m >>= fun a => pure (g a)) (g x) names := by
  intro rest
  show (g (m (names ++ rest)).1, (m (names ++ rest)).2) = (g x, rest)
  rw [h]

theorem fst_eq (h : Gives m x names) : (m names).1 = x := by
  have hnil := h []
  rw [List.append_nil] at hnil
  rw [hnil]

theorem unique (h : Gives m x names) (h' : Gives m x' names) : x = x' :=
  h.fst_eq.symm.trans h'.fst_eq

end Gives

namespace Alike

variable {m m' : Relabel α} {count count' : Nat}

theorem bind {next next' : α → Relabel β} (h : Alike count m m')
    (hnext : ∀ x, Alike count' (next x) (next' x)) :
    Alike (count + count') (m >>= next) (m' >>= next') := by
  intro names hlength
  obtain ⟨x, hx, hx'⟩ := h (names.take count) (by simp [hlength])
  obtain ⟨y, hy, hy'⟩ := hnext x (names.drop count) (by simp [hlength])
  rw [← List.take_append_drop count names]
  exact ⟨y, hx.bind hy, hx'.bind hy'⟩

theorem map {g : α → β} (h : Alike count m m') :
    Alike count (m >>= fun a => pure (g a)) (m' >>= fun a => pure (g a)) := by
  intro names hlength
  obtain ⟨x, hx, hx'⟩ := h names hlength
  exact ⟨g x, hx.map, hx'.map⟩

theorem pure (x : α) : Alike 0 (Pure.pure x) (Pure.pure x) := by
  intro names hlength
  obtain rfl := List.length_eq_zero_iff.1 hlength
  exact ⟨x, fun _ => rfl, fun _ => rfl⟩

end Alike

namespace Restores

variable {f₁ : α → Relabel α} {f₂ : β → Relabel β} {f₃ : γ → Relabel γ} {f₄ : δ → Relabel δ}
  {f : ε → Relabel ε} {a : α} {b : β} {c : γ} {d : δ}

/-- A tree that `Restores` takes as many names as it has, whatever they are. -/
theorem exists_gives {x : ε} (h : Restores f x names) {names' : List String}
    (hlength : names'.length = names.length) : ∃ y, Gives (f x) y names' := by
  obtain ⟨y, -, hy⟩ := h.again [] names' hlength
  exact ⟨y, hy⟩

/-- A tree that `Restores` comes back from whatever names it was given before. -/
theorem back {x : ε} (h : Restores f x names) (supply : List String) :
    Gives (f (f x supply).1) x names := by
  obtain ⟨y, hagain, hown⟩ := h.again supply names rfl
  rwa [hown.unique h.own] at hagain

/-! ## Trees by their parts -/

theorem next (name : String) : Restores Relabel.next name [name] where
  own := fun _ => rfl
  again supply := by
    intro names hlength
    obtain ⟨name', rfl⟩ := List.length_eq_one_iff.1 hlength
    exact ⟨name', fun _ => rfl, fun _ => rfl⟩

/-- A tree without names `Restores` with none. -/
theorem const {x : ε} (h : f x = pure x) : Restores f x [] where
  own := by
    rw [h]
    exact fun _ => rfl
  again supply := by
    have hsame : (f x supply).1 = x := by rw [h]; rfl
    rw [hsame, h]
    exact .pure x

theorem map {g : α → ε} (hf : ∀ a, f (g a) = f₁ a >>= fun a => pure (g a))
    (ha : Restores f₁ a names₁) : Restores f (g a) names₁ where
  own := by
    rw [hf]
    exact ha.own.map
  again supply := by
    rw [hf]
    show Alike names₁.length (f (g (f₁ a supply).1)) _
    rw [hf]
    exact (ha.again _).map

theorem map₂ {g : α → β → ε}
    (hf : ∀ a b, f (g a b) = f₁ a >>= fun a => f₂ b >>= fun b => pure (g a b))
    (ha : Restores f₁ a names₁) (hb : Restores f₂ b names₂) :
    Restores f (g a b) (names₁ ++ names₂) where
  own := by
    rw [hf]
    exact ha.own.bind hb.own.map
  again supply := by
    rw [hf, List.length_append]
    show Alike _ (f (g (f₁ a supply).1 (f₂ b (f₁ a supply).2).1)) _
    rw [hf]
    exact (ha.again _).bind fun _ => (hb.again _).map

theorem map₃ {g : α → β → γ → ε}
    (hf : ∀ a b c, f (g a b c) =
      f₁ a >>= fun a => f₂ b >>= fun b => f₃ c >>= fun c => pure (g a b c))
    (ha : Restores f₁ a names₁) (hb : Restores f₂ b names₂) (hc : Restores f₃ c names₃) :
    Restores f (g a b c) (names₁ ++ names₂ ++ names₃) where
  own := by
    rw [hf, List.append_assoc]
    exact ha.own.bind (hb.own.bind hc.own.map)
  again supply := by
    rw [hf, List.append_assoc, List.length_append, List.length_append]
    show Alike _ (f (g (f₁ a supply).1 (f₂ b (f₁ a supply).2).1
      (f₃ c (f₂ b (f₁ a supply).2).2).1)) _
    rw [hf]
    exact (ha.again _).bind fun _ => (hb.again _).bind fun _ => (hc.again _).map

theorem map₄ {g : α → β → γ → δ → ε}
    (hf : ∀ a b c d, f (g a b c d) = f₁ a >>= fun a => f₂ b >>= fun b => f₃ c >>= fun c =>
      f₄ d >>= fun d => pure (g a b c d))
    (ha : Restores f₁ a names₁) (hb : Restores f₂ b names₂) (hc : Restores f₃ c names₃)
    (hd : Restores f₄ d names₄) :
    Restores f (g a b c d) (names₁ ++ names₂ ++ names₃ ++ names₄) where
  own := by
    rw [hf, List.append_assoc, List.append_assoc]
    exact ha.own.bind (hb.own.bind (hc.own.bind hd.own.map))
  again supply := by
    rw [hf, List.append_assoc, List.append_assoc, List.length_append, List.length_append,
      List.length_append]
    show Alike _ (f (g (f₁ a supply).1 (f₂ b (f₁ a supply).2).1
      (f₃ c (f₂ b (f₁ a supply).2).2).1
      (f₄ d (f₃ c (f₂ b (f₁ a supply).2).2).2).1)) _
    rw [hf]
    exact (ha.again _).bind fun _ => (hb.again _).bind fun _ => (hc.again _).bind fun _ =>
      (hd.again _).map

theorem mapM {events : α → List Event} {xs : List α}
    (h : ∀ x ∈ xs, Restores f₁ x (siteNames (events x))) :
    Restores (List.mapM f₁) xs (siteNames (xs.flatMap events)) := by
  induction xs with
  | nil => exact const rfl
  | cons x xs ih =>
    rw [List.flatMap_cons, siteNames_append]
    exact map₂ (fun _ _ => List.mapM_cons) (h x (by simp)) (ih fun y hy => h y (by simp [hy]))

theorem nextOption (role : Role) (name : Option String) :
    Restores Relabel.nextOption name
      (siteNames (name.map fun name => Event.name role name).toList) := by
  cases name with
  | none => exact const rfl
  | some name => exact map (fun _ => rfl) (next name)

end Restores

end Relabel

open Relabel

/-! ## Expressions -/

namespace Expr

mutual

theorem restores_relabel : (e : Expr) → Restores relabel e (siteNames e.events)
  | identifier name => .map (fun _ => rfl) (.next name)
  | int _ | float _ | bool _ => .const rfl
  | unary _ operand | step _ operand => .map (fun _ => rfl) (restores_relabel operand)
  | binary _ left right | assign _ left right => by
    rw [events, siteNames_append]
    exact .map₂ (fun _ _ => rfl) (restores_relabel left) (restores_relabel right)
  | ternary condition whenTrue whenFalse => by
    rw [events, siteNames_append, siteNames_append]
    exact .map₃ (fun _ _ _ => rfl) (restores_relabel condition) (restores_relabel whenTrue)
      (restores_relabel whenFalse)
  | index base position => by
    rw [events, siteNames_append]
    exact .map₂ (fun _ _ => rfl) (restores_relabel base) (restores_relabel position)
  | field base name => by
    rw [events, siteNames_append]
    exact .map₂ (fun _ _ => rfl) (restores_relabel base) (.next name)
  | call callee args => .map₂ (fun _ _ => rfl) (.next callee) (restores_relabelList args)
  | sequence items => .map (fun _ => rfl) (restores_relabelList items)

theorem restores_relabelList : (items : List Expr) →
    Restores relabelList items (siteNames (listEvents items))
  | [] => .const rfl
  | item :: items => by
    rw [listEvents, siteNames_append]
    exact .map₂ (fun _ _ => rfl) (restores_relabel item) (restores_relabelList items)

end

theorem restores_relabelOption (value : Option Expr) :
    Restores relabelOption value (siteNames (optionalEvents value)) := by
  cases value with
  | none => exact .const rfl
  | some e => exact .map (fun _ => rfl) (restores_relabel e)

end Expr

/-! ## Declarations -/

theorem MemberDeclarator.restores_relabel (d : MemberDeclarator) :
    Restores relabel d (siteNames d.events) := by
  rw [events, siteNames_append]
  exact .map₂ (f := relabel) (g := fun size name => MemberDeclarator.mk name size)
    (fun _ _ => rfl)
    (Expr.restores_relabelOption d.size) (.next d.name)

theorem Member.restores_relabel (m : Member) : Restores relabel m (siteNames m.events) :=
  .map₂ (f := relabel) (g := Member.mk m.precision) (fun _ _ => rfl)
    (.next m.type) (.mapM fun d _ => MemberDeclarator.restores_relabel d)

theorem TypeSpecifier.restores_relabel (t : TypeSpecifier) :
    Restores relabel t (siteNames t.events) := by
  cases t with
  | named name => exact .map (fun _ => rfl) (.next name)
  | struct spec =>
    rw [events, StructType.events, siteNames_append]
    exact .map₂ (f := relabel) (g := fun name members => struct ⟨name, members⟩) (fun _ _ => rfl)
      (.nextOption .type spec.name) (.mapM fun m _ => Member.restores_relabel m)

theorem QualifiedType.restores_relabel (t : QualifiedType) :
    Restores relabel t (siteNames t.specifier.events) :=
  .map (f := relabel) (g := QualifiedType.mk t.qualifier t.precision) (fun _ => rfl)
    t.specifier.restores_relabel

theorem ArraySize.restores_relabelOption (array : Option ArraySize) :
    Restores relabelOption array (siteNames ((array.map ArraySize.events).getD [])) := by
  cases array with
  | none => exact .const rfl
  | some size =>
    cases size with
    | unsized => exact .const rfl
    | sized size =>
      exact .map (f := relabelOption) (g := fun size => some (sized size)) (fun _ => rfl)
        size.restores_relabel

theorem Declarator.restores_relabel (placement : Placement) (type : QualifiedType)
    (d : Declarator) : Restores relabel d (siteNames (d.events placement type)) := by
  rw [events, siteNames_append, siteNames_append]
  exact .map₃ (f := relabel) (g := fun array value name => Declarator.mk name array value)
    (fun _ _ _ => rfl)
    (ArraySize.restores_relabelOption d.array) (Expr.restores_relabelOption d.initializer)
    (.next d.name)

theorem Declaration.restores_relabel (placement : Placement) (d : Declaration) :
    Restores relabel d (siteNames (d.events placement)) := by
  rw [events, siteNames_append]
  exact .map₂ (f := relabel) (g := Declaration.mk) (fun _ _ => rfl) d.type.restores_relabel
    (.mapM fun x _ => Declarator.restores_relabel placement d.type x)

theorem Parameter.restores_relabel (p : Parameter) :
    Restores relabel p (siteNames p.events) := by
  rw [events, siteNames_append]
  exact .map₃ (f := relabel) (g := fun type size name => { p with type, size, name })
    (fun _ _ _ => rfl) (.next p.type) (Expr.restores_relabelOption p.size)
    (.nextOption .parameter p.name)

theorem Prototype.restores_relabel (p : Prototype) :
    Restores relabel p (siteNames (p.headEvents ++ p.paramEvents)) := by
  rw [headEvents, paramEvents, siteNames_append, siteNames_append]
  exact .map₃ (f := relabel) (g := Prototype.mk) (fun _ _ _ => rfl) p.returnType.restores_relabel
    (.next p.name) (.mapM fun x _ => Parameter.restores_relabel x)

/-! ## Statements -/

theorem SimpleStatement.restores_relabel (s : SimpleStatement) :
    Restores relabel s (siteNames s.events) := by
  cases s with
  | declaration decl => exact .map (fun _ => rfl) (decl.restores_relabel .inBody)
  | expression value => exact .map (fun _ => rfl) (Expr.restores_relabelOption value)

namespace Statement

mutual

theorem restores_relabel : (s : Statement) → Restores relabel s (siteNames s.events)
  | block body => by
    rw [events, siteNames_inScope]
    exact .map (fun _ => rfl) (restores_relabelList body)
  | simple stmt => .map (fun _ => rfl) stmt.restores_relabel
  | ifThen condition body => by
    rw [events, siteNames_append]
    exact .map₂ (fun _ _ => rfl) condition.restores_relabel (restores_relabel body)
  | ifElse condition whenTrue whenFalse => by
    rw [events, siteNames_append, siteNames_append]
    exact .map₃ (fun _ _ _ => rfl) condition.restores_relabel (restores_relabel whenTrue)
      (restores_relabel whenFalse)
  | whileLoop condition body => by
    rw [events, siteNames_append]
    exact .map₂ (fun _ _ => rfl) condition.restores_relabel (restores_relabel body)
  | doWhile body condition => by
    rw [events, siteNames_append]
    exact .map₂ (fun _ _ => rfl) (restores_relabel body) condition.restores_relabel
  | forLoop init condition step body => by
    rw [events, siteNames_inScope, siteNames_append, siteNames_append, siteNames_append]
    exact .map₄ (fun _ _ _ _ => rfl) init.restores_relabel
      (Expr.restores_relabelOption condition) (Expr.restores_relabelOption step)
      (restores_relabel body)
  | returnValue value => .map (fun _ => rfl) (Expr.restores_relabelOption value)
  | continueLoop | breakLoop | discard => .const rfl

theorem restores_relabelList : (body : List Statement) →
    Restores relabelList body (siteNames (listEvents body))
  | [] => .const rfl
  | stmt :: body => by
    rw [listEvents, siteNames_append]
    exact .map₂ (fun _ _ => rfl) (restores_relabel stmt) (restores_relabelList body)

end

end Statement

/-! ## Items -/

namespace Item

theorem restores_names (names : List String) :
    Restores (List.mapM next) names (siteNames (names.map (Event.name .use))) := by
  rw [List.map_eq_flatMap]
  exact .mapM fun name _ => .next name

mutual

theorem restores_relabel : (i : Item) → Restores relabel i (siteNames i.events)
  | directive _ => .const rfl
  | conditional _ _ body rest => by
    rw [events, List.cons_append, siteNames_other rfl, siteNames_append]
    exact .map₂ (fun _ _ => rfl) (restores_relabelList body) (restores_relabelBranches rest)
  | precision _ type => .map (fun _ => rfl) (.next type)
  | invariant names => .map (fun _ => rfl) (restores_names names)
  | declaration decl => .map (fun _ => rfl) (decl.restores_relabel .topLevel)
  | prototype signature => by
    rw [events, siteNames_append, siteNames_inScope, ← siteNames_append]
    exact .map (fun _ => rfl) signature.restores_relabel
  | function signature body => by
    rw [events, siteNames_append, siteNames_inScope, siteNames_append, ← List.append_assoc,
      ← siteNames_append]
    exact .map₂ (fun _ _ => rfl) signature.restores_relabel
      (Statement.restores_relabelList body)

theorem restores_relabelList : (items : List Item) →
    Restores relabelList items (siteNames (listEvents items))
  | [] => .const rfl
  | item :: items => by
    rw [listEvents, siteNames_append]
    exact .map₂ (fun _ _ => rfl) (restores_relabel item) (restores_relabelList items)

theorem restores_relabelBranches : (b : Branches) →
    Restores relabelBranches b (siteNames (branchEvents b))
  | .done => .const rfl
  | .otherwise body => .map (fun _ => rfl) (restores_relabelList body)
  | .elif _ body rest => by
    rw [branchEvents, List.cons_append, siteNames_other rfl, siteNames_append]
    exact .map₂ (fun _ _ => rfl) (restores_relabelList body) (restores_relabelBranches rest)

end

end Item

namespace Shader

variable (shader : Shader)

theorem restores_names : Restores Item.relabelList shader.items (shader.sites.map Site.name) :=
  Item.restores_relabelList shader.items

theorem withNames_self : shader.withNames (shader.sites.map Site.name) = shader :=
  congrArg Shader.mk shader.restores_names.own.fst_eq

theorem withNames_of_withNames {names names' : List String}
    (h : names'.length = shader.sites.length) :
    (shader.withNames names).withNames names' = shader.withNames names' := by
  obtain ⟨items, hagain, hitems⟩ := shader.restores_names.again names names' (by simp [h])
  exact congrArg Shader.mk (hagain.fst_eq.trans hitems.fst_eq.symm)

theorem withNames_withNames (names : List String) :
    (shader.withNames names).withNames (shader.sites.map Site.name) = shader := by
  rw [withNames_of_withNames shader (List.length_map _), withNames_self]

end Shader

end ShaderMinifier
