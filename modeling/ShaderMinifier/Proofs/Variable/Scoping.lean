import Mathlib
import ShaderMinifier.Proofs.Lists
import ShaderMinifier.Proofs.Site.Nesting
import ShaderMinifier.Variable.Rename

/-
  What the resolver keeps on its way through a stage. A name that can be seen stands for a binding
  of that name in this stage, a global or a variable of the function that is open; every global
  of the stage is declared in the outermost scope, so no two of them have one name. What is known
  of a binding from its declaration on, the sites and the free names only grow, and what is once
  linked stays so.
-/

namespace ShaderMinifier

/-- What is known of a binding from its declaration on; `Resolver.step` never changes it. -/
structure Origin where
  name : String
  stage : Stage
  extent : Extent

def Binding.origin (b : Binding) : Origin := ⟨b.name, b.stage, b.extent⟩

/-! ## Declaring -/

namespace Resolver

variable {stage : Stage} {r r' : Resolver} {name : String} {id : Nat}

/-- The origins of the bindings so far, a list that only grows. -/
def origins (r : Resolver) : List Origin := r.bindings.map Binding.origin

@[simp] theorem scopes_addSite (id : Option Nat) : (r.addSite id).scopes = r.scopes := rfl

@[simp] theorem function_addSite (id : Option Nat) : (r.addSite id).function = r.function := rfl

@[simp] theorem sites_addSite (id : Option Nat) : (r.addSite id).sites = r.sites ++ [id] := rfl

@[simp] theorem freeNames_addSite (id : Option Nat) : (r.addSite id).freeNames = r.freeNames :=
  rfl

@[simp] theorem origins_addSite (id : Option Nat) : (r.addSite id).origins = r.origins := by
  cases id with
  | none => rfl
  | some id =>
    exact map_modify Binding.origin (f := fun b => { b with sites := b.sites + 1 }) (fun _ => rfl)
      r.bindings id

/-- The state after a binding is declared once more (`redeclare`), before the site is noted. -/
def redeclareAt (id : Nat) (linked : Bool) (signature : Option String) (r : Resolver) :
    Resolver :=
  { r with bindings := r.bindings.modify id (redeclare linked signature) }

/-- The state with a new binding, before the site is noted; the other case of `declare`. -/
def bindNew (stage : Stage) (name : String) (linked : Bool) (signature : Option String)
    (r : Resolver) : Resolver :=
  { r with
    bindings := r.bindings ++ [Binding.mk name stage r.extent linked signature 0]
    }.bindHere name r.bindings.length

theorem declare_of_declared (h : r.declaredHere name = some id) (linked : Bool)
    (signature : Option String) :
    r.declare stage name linked signature =
      (r.redeclareAt id linked signature).addSite (some id) := by
  simp only [declare, h, redeclareAt]

theorem declare_of_new (h : r.declaredHere name = none) (linked : Bool)
    (signature : Option String) :
    r.declare stage name linked signature =
      (r.bindNew stage name linked signature).addSite (some r.bindings.length) := by
  simp only [declare, h, bindNew]

theorem origins_redeclareAt (id : Nat) (linked : Bool) (signature : Option String) :
    (r.redeclareAt id linked signature).origins = r.origins :=
  map_modify Binding.origin (f := redeclare linked signature) (fun _ => rfl) r.bindings id

theorem origins_bindNew (stage : Stage) (name : String) (linked : Bool)
    (signature : Option String) :
    (r.bindNew stage name linked signature).origins = r.origins ++ [⟨name, stage, r.extent⟩] :=
  List.map_append

theorem length_origins (r : Resolver) : r.origins.length = r.bindings.length :=
  List.length_map Binding.origin

/-- The innermost scope is that of a function, where `meet` declares parameters. -/
def atParameters (r : Resolver) : Bool :=
  r.scopes.head?.any fun scope => scope.kind = some .function

theorem meet_parameter (h : r.atParameters = true) (stage : Stage) (name : String) :
    r.meet stage ⟨.parameter, name⟩ = r.declare stage name false none :=
  if_pos h

theorem meet_parameter_of_not (h : r.atParameters = false) (stage : Stage) (name : String) :
    r.meet stage ⟨.parameter, name⟩ = r.addSite none :=
  if_neg (by rw [← atParameters, h]; exact Bool.false_ne_true)

theorem meet_use (h : r.resolve name = some id) (stage : Stage) :
    r.meet stage ⟨.use, name⟩ = r.addSite (some id) := by
  simp only [meet, h]

theorem meet_use_of_free (h : r.resolve name = none) (stage : Stage) :
    r.meet stage ⟨.use, name⟩ = (r.addFreeName name).addSite none := by
  simp only [meet, h]

/-! ## What only grows -/

/-- What is `linked` stays linked, and at its index. -/
def KeepsLinks (bs bs' : List Binding) : Prop :=
  ∀ (i : Nat) (b : Binding), bs[i]? = some b → b.linked = true →
    ∃ b', bs'[i]? = some b' ∧ b'.linked = true

namespace KeepsLinks

variable {bs bs' : List Binding}

theorem refl (bs : List Binding) : KeepsLinks bs bs := fun _ b hb hlinked => ⟨b, hb, hlinked⟩

theorem modify (bs : List Binding) {f : Binding → Binding}
    (hf : ∀ b, b.linked = true → (f b).linked = true) (id : Nat) :
    KeepsLinks bs (bs.modify id f) := by
  intro i b hb hlinked
  rw [List.getElem?_modify, hb]
  by_cases hi : id = i
  · exact ⟨f b, by simp [hi], hf b hlinked⟩
  · exact ⟨b, by simp [hi], hlinked⟩

theorem append (bs more : List Binding) : KeepsLinks bs (bs ++ more) :=
  fun _ b hb hlinked => ⟨b, getElem?_of_isPrefix (List.prefix_append _ _) hb, hlinked⟩

end KeepsLinks

/-- The second state is later than the first: what `Resolver.step` only adds to is longer, and links
stay. -/
structure Grows (r r' : Resolver) : Prop where
  origins : r.origins <+: r'.origins
  sites : r.sites <+: r'.sites
  freeNames : r.freeNames <+: r'.freeNames
  links : KeepsLinks r.bindings r'.bindings

namespace Grows

theorem refl (r : Resolver) : Grows r r :=
  ⟨List.prefix_refl _, List.prefix_refl _, List.prefix_refl _, .refl _⟩

theorem trans {r'' : Resolver} (h : Grows r r') (h' : Grows r' r'') : Grows r r'' where
  origins := h.origins.trans h'.origins
  sites := h.sites.trans h'.sites
  freeNames := h.freeNames.trans h'.freeNames
  links := by
    intro i b hb hlinked
    obtain ⟨b', hb', hlinked'⟩ := h.links i b hb hlinked
    exact h'.links i b' hb' hlinked'

theorem addSite (r : Resolver) (id : Option Nat) : Grows r (r.addSite id) := by
  refine ⟨by simp, ⟨[id], rfl⟩, List.prefix_refl _, ?_⟩
  cases id with
  | none => exact .refl _
  | some id =>
    exact .modify _ (f := fun b => { b with sites := b.sites + 1 }) (fun _ hlinked => hlinked) id

theorem addFreeName (r : Resolver) (name : String) : Grows r (r.addFreeName name) :=
  ⟨List.prefix_refl _, List.prefix_refl _, ⟨[name], rfl⟩, .refl _⟩

theorem redeclareAt (r : Resolver) (id : Nat) (linked : Bool) (signature : Option String) :
    Grows r (r.redeclareAt id linked signature) := by
  refine ⟨by rw [origins_redeclareAt], List.prefix_refl _, List.prefix_refl _, ?_⟩
  refine .modify _ (fun b hlinked => ?_) id
  simp [redeclare, hlinked]

theorem bindNew (r : Resolver) (stage : Stage) (name : String) (linked : Bool)
    (signature : Option String) : Grows r (r.bindNew stage name linked signature) := by
  refine ⟨?_, List.prefix_refl _, List.prefix_refl _, .append _ _⟩
  rw [origins_bindNew]
  exact List.prefix_append _ _

theorem declare (r : Resolver) (stage : Stage) (name : String) (linked : Bool)
    (signature : Option String) : Grows r (r.declare stage name linked signature) := by
  cases h : r.declaredHere name with
  | some id =>
    rw [declare_of_declared h]
    exact (redeclareAt r id linked signature).trans (addSite _ _)
  | none =>
    rw [declare_of_new h]
    exact (bindNew r stage name linked signature).trans (addSite _ _)

end Grows

theorem grows_meet (stage : Stage) (r : Resolver) (s : Site) : Grows r (r.meet stage s) := by
  obtain ⟨role, name⟩ := s
  cases role with
  | declared placement type d => exact .declare r stage name _ _
  | parameter =>
    cases h : r.atParameters with
    | true =>
      rw [meet_parameter h]
      exact .declare r stage name _ _
    | false =>
      rw [meet_parameter_of_not h]
      exact .addSite r none
  | use =>
    cases h : r.resolve name with
    | some id =>
      rw [meet_use h]
      exact .addSite r _
    | none =>
      rw [meet_use_of_free h]
      exact (Grows.addFreeName r name).trans (.addSite _ none)
  | type | function _ | callee _ => exact .addFreeName r name
  | field => exact .refl r

theorem grows_step (stage : Stage) (r : Resolver) (e : Event) : Grows r (r.step stage e) := by
  cases e with
  | site s => exact grows_meet stage r s
  | enter kind =>
    rw [step, enter]
    split <;> exact ⟨List.prefix_refl _, List.prefix_refl _, List.prefix_refl _, .refl _⟩
  | leave => exact ⟨List.prefix_refl _, List.prefix_refl _, List.prefix_refl _, .refl _⟩
  | directive _ | conditional _ _ | elif _ => exact .refl r

theorem grows_foldl (stage : Stage) (r : Resolver) (es : List Event) :
    Grows r (es.foldl (step stage) r) := by
  induction es generalizing r with
  | nil => exact .refl r
  | cons e es ih => exact (grows_step stage r e).trans (ih _)

/-! ## The sites -/

/-- The binding that a name declared now stands for: the one of `declaredHere`, or the next new
one. -/
def declaredId (r : Resolver) (name : String) : Nat :=
  (r.declaredHere name).getD r.bindings.length

/-- The binding that a variable site stands for, which `meet` notes for it. -/
def siteId (r : Resolver) (s : Site) : Option Nat :=
  match s.role with
  | .declared _ _ _ => some (r.declaredId s.name)
  | .parameter => if r.atParameters then some (r.declaredId s.name) else none
  | .use => r.resolve s.name
  | .type | .field | .function _ | .callee _ => none

theorem sites_declare (stage : Stage) (name : String) (linked : Bool)
    (signature : Option String) :
    (r.declare stage name linked signature).sites = r.sites ++ [some (r.declaredId name)] := by
  cases h : r.declaredHere name with
  | some id =>
    rw [declare_of_declared h, declaredId, h]
    rfl
  | none =>
    rw [declare_of_new h, declaredId, h]
    rfl

theorem sites_meet (stage : Stage) (s : Site) :
    (r.meet stage s).sites =
      r.sites ++ if s.role.isVariable = true then [r.siteId s] else [] := by
  obtain ⟨role, name⟩ := s
  cases role with
  | declared placement type d => exact sites_declare stage name _ _
  | parameter =>
    cases h : r.atParameters with
    | true =>
      rw [meet_parameter h, sites_declare]
      simp [Role.isVariable, siteId, h]
    | false =>
      rw [meet_parameter_of_not h]
      simp [Role.isVariable, siteId, h]
  | use =>
    cases h : r.resolve name with
    | some id =>
      rw [meet_use h]
      simp [Role.isVariable, siteId, h]
    | none =>
      rw [meet_use_of_free h]
      simp [Role.isVariable, siteId, h, addFreeName]
  | type | field | function _ | callee _ => exact (List.append_nil _).symm

theorem sites_step_of_other (stage : Stage) (r : Resolver) {e : Event} (he : e.site? = none) :
    (r.step stage e).sites = r.sites := by
  cases e with
  | site s => cases he
  | enter kind =>
    rw [step, enter]
    split <;> rfl
  | leave | directive _ | conditional _ _ | elif _ => rfl

theorem siteId_of_not_isVariable {s : Site} (h : s.role.isVariable = false) :
    r.siteId s = none := by
  obtain ⟨role, name⟩ := s
  cases role with
  | declared _ _ _ | parameter | use => cases h
  | type | field | function _ | callee _ => rfl

/-- Every variable site is noted in `sites`, so there are as many entries as sites. -/
theorem length_sites_foldl (stage : Stage) (r : Resolver) (es : List Event) :
    (es.foldl (step stage) r).sites.length = r.sites.length +
      ((es.filterMap Event.site?).filter fun s => s.role.isVariable).length := by
  induction es generalizing r with
  | nil => rfl
  | cons e es ih =>
    rw [List.foldl_cons, ih]
    cases e with
    | site s =>
      rw [step, sites_meet]
      by_cases h : s.role.isVariable = true
      · simp [Event.site?, h]
        omega
      · simp [Event.site?, h]
    | enter kind =>
      rw [step, enter]
      split <;> rfl
    | leave | directive _ | conditional _ _ | elif _ => rfl

theorem length_sites_run (stage : Stage) (bindings : List Binding) (shader : Shader) :
    (run stage bindings shader).sites.length = shader.variableSites.length := by
  rw [run, length_sites_foldl]
  exact Nat.zero_add _

end Resolver

/-! ## What can be seen -/

namespace Place

/-- What opened the scopes that are open at a `Place`, the innermost first. -/
def kinds : Place → List (Option ScopeKind)
  | top => [none]
  | prototype => [some .prototype, none]
  | body blocks => List.replicate blocks (some .block) ++ [some .function, none]

/-- A function is open at this `Place`. -/
def inFunction : Place → Bool
  | top | prototype => false
  | body _ => true

end Place

namespace Resolver

variable {stage : Stage} {before : List Origin} {place next : Place} {r r' : Resolver}
  {name : String}

/-- The state fits its `Place`: every name that can be seen stands for a binding of this stage that
has the name, and the outermost scope holds all globals of the stage. The invariant of
`Resolver.step`. -/
structure Sound (stage : Stage) (before : List Origin) (place : Place) (r : Resolver) : Prop where
  kinds : r.scopes.map Scope.kind = place.kinds
  function : r.function.isSome = place.inFunction
  own : ∃ mine, r.origins = before ++ mine ∧ ∀ o ∈ mine, o.stage = stage
  visible : ∀ scope ∈ r.scopes, ∀ entry ∈ scope.names, ∃ extent,
    r.origins[entry.2]? = some ⟨entry.1, stage, extent⟩ ∧
      (extent = .global ∨ scope.kind ≠ none ∧ extent = r.extent)
  globals : ∀ id name, r.origins[id]? = some ⟨name, stage, .global⟩ →
    ∀ root ∈ r.scopes.getLast?, root.names.lookup name = some id

theorem extent_of_none (h : r.function = none) : r.extent = .global := by
  simp only [extent, h]

namespace Sound

theorem start {bindings : List Binding} (h : ∀ b ∈ bindings, b.stage ≠ stage) :
    Sound stage (bindings.map Binding.origin) .top (start bindings) where
  kinds := rfl
  function := rfl
  own := ⟨[], (List.append_nil _).symm, by simp⟩
  visible := by simp [Resolver.start]
  globals := by
    intro id name hid
    obtain ⟨b, hb, horigin⟩ := List.mem_map.1 (List.mem_of_getElem? hid)
    exact absurd (congrArg Origin.stage horigin) (h b hb)

theorem congr (h : Sound stage before place r) (hscopes : r'.scopes = r.scopes)
    (hfunction : r'.function = r.function) (horigins : r'.origins = r.origins) :
    Sound stage before place r' where
  kinds := by rw [hscopes, h.kinds]
  function := by rw [hfunction, h.function]
  own := by rw [horigins]; exact h.own
  visible := by
    rw [hscopes, horigins, extent, hfunction, ← extent]
    exact h.visible
  globals := by
    rw [hscopes, horigins]
    exact h.globals

theorem addSite (h : Sound stage before place r) (id : Option Nat) :
    Sound stage before place (r.addSite id) :=
  h.congr rfl rfl (origins_addSite id)

theorem addFreeName (h : Sound stage before place r) (name : String) :
    Sound stage before place (r.addFreeName name) :=
  h.congr rfl rfl rfl

theorem exists_scope (h : Sound stage before place r) :
    ∃ scope outer, r.scopes = scope :: outer ∧
      scope.kind :: outer.map Scope.kind = place.kinds := by
  have hkinds := h.kinds
  cases hscopes : r.scopes with
  | nil => cases place <;> simp [hscopes, Place.kinds] at hkinds
  | cons scope outer => exact ⟨scope, outer, rfl, by rw [← hkinds, hscopes, List.map_cons]⟩

theorem extent_of_top (h : Sound stage before .top r) : r.extent = .global :=
  extent_of_none (by simpa [Place.inFunction] using h.function)

theorem extent_of_body {blocks : Nat} (h : Sound stage before (.body blocks) r) :
    r.extent ≠ .global := by
  obtain ⟨index, hindex⟩ := Option.isSome_iff_exists.1 h.function
  simp [extent, hindex]

theorem declares_at (h : Sound stage before place r) (hplace : place ≠ .prototype) :
    ∃ scope outer, r.scopes = scope :: outer ∧
      (r.extent = .global ∧ outer = [] ∨
        r.extent ≠ .global ∧ scope.kind ≠ none ∧ outer ≠ []) := by
  obtain ⟨scope, outer, hscopes, hkinds⟩ := h.exists_scope
  refine ⟨scope, outer, hscopes, ?_⟩
  cases place with
  | top =>
    have houter : outer = [] := List.map_eq_nil_iff.1 (List.cons.inj hkinds).2
    exact .inl ⟨h.extent_of_top, houter⟩
  | prototype => exact absurd rfl hplace
  | body blocks =>
    refine .inr ⟨h.extent_of_body, ?_⟩
    cases blocks with
    | zero =>
      obtain ⟨hkind, houter⟩ := List.cons.inj hkinds
      exact ⟨by simp [hkind], fun hnil => by simp [hnil] at houter⟩
    | succ blocks =>
      obtain ⟨hkind, houter⟩ := List.cons.inj hkinds
      exact ⟨by simp [hkind], fun hnil => by simp [hnil] at houter⟩

theorem scopes_bindNew {scope : Scope} {outer : List Scope} (h : r.scopes = scope :: outer)
    (linked : Bool) (signature : Option String) :
    (r.bindNew stage name linked signature).scopes =
      { scope with names := (name, r.bindings.length) :: scope.names } :: outer := by
  simp only [Resolver.bindNew, bindHere, h]

theorem bindNew (h : Sound stage before place r) (hplace : place ≠ .prototype)
    (hname : r.declaredHere name = none) (linked : Bool) (signature : Option String) :
    Sound stage before place (r.bindNew stage name linked signature) := by
  obtain ⟨scope, outer, hscopes, hwhere⟩ := h.declares_at hplace
  refine ⟨?_, h.function, ?_, ?_, ?_⟩
  · rw [← h.kinds, scopes_bindNew hscopes, hscopes, List.map_cons, List.map_cons]
  · obtain ⟨mine, horigins, hmine⟩ := h.own
    refine ⟨mine ++ [⟨name, stage, r.extent⟩], ?_, ?_⟩
    · rw [origins_bindNew, horigins, List.append_assoc]
    · exact List.forall_mem_append.2 ⟨hmine, by simp⟩
  · intro scope' hscope' entry hentry
    rw [origins_bindNew]
    have hold : ∀ scope' ∈ r.scopes, entry ∈ scope'.names → ∃ extent,
        (r.origins ++ [⟨name, stage, r.extent⟩])[entry.2]? =
          some ⟨entry.1, stage, extent⟩ ∧
        (extent = .global ∨ scope'.kind ≠ none ∧ extent = r.extent) := by
      intro scope' hscope' hentry
      obtain ⟨extent, horigin, hextent⟩ := h.visible scope' hscope' entry hentry
      exact ⟨extent, getElem?_of_isPrefix (List.prefix_append _ _) horigin, hextent⟩
    rw [scopes_bindNew hscopes, List.mem_cons] at hscope'
    rcases hscope' with rfl | hscope'
    · rcases List.mem_cons.1 hentry with rfl | hentry
      · refine ⟨r.extent, ?_, hwhere.imp And.left fun hlocal => ⟨hlocal.2.1, rfl⟩⟩
        rw [← length_origins, List.getElem?_concat_length]
      · exact hold scope (by rw [hscopes]; simp) hentry
    · exact hold scope' (by rw [hscopes]; simp [hscope']) hentry
  · intro id found hid root hroot
    rw [scopes_bindNew hscopes] at hroot
    rw [origins_bindNew] at hid
    rcases hwhere with ⟨hextent, rfl⟩ | ⟨hextent, -, houter⟩
    · -- The outermost scope holds the globals of before and now the new one.
      rw [List.getLast?_singleton, Option.mem_some_iff] at hroot
      subst hroot
      rcases getElem?_concat_cases hid with hid | ⟨rfl, horigin⟩
      · have hfound : scope.names.lookup found = some id :=
          h.globals id found hid scope (by simp [hscopes])
        have hne : (found == name) = false := by
          rw [beq_eq_false_iff_ne]
          rintro rfl
          simp [declaredHere, hscopes, hfound] at hname
        rw [List.lookup_cons, hne]
        exact hfound
      · obtain rfl : found = name := congrArg Origin.name horigin
        rw [List.lookup_cons, beq_self_eq_true, length_origins]
    · rcases getElem?_concat_cases hid with hid | ⟨-, horigin⟩
      · refine h.globals id found hid root ?_
        rw [List.getLast?_cons_of_ne_nil houter] at hroot
        rwa [hscopes, List.getLast?_cons_of_ne_nil houter]
      · exact absurd (congrArg Origin.extent horigin).symm hextent

theorem declare (h : Sound stage before place r) (hplace : place ≠ .prototype) (name : String)
    (linked : Bool) (signature : Option String) :
    Sound stage before place (r.declare stage name linked signature) := by
  cases hname : r.declaredHere name with
  | some id =>
    rw [declare_of_declared hname]
    have hsound : Sound stage before place (r.redeclareAt id linked signature) :=
      h.congr rfl rfl (origins_redeclareAt id linked signature)
    exact hsound.addSite _
  | none =>
    rw [declare_of_new hname]
    exact (h.bindNew hplace hname linked signature).addSite _

theorem push {kind : ScopeKind} (h : Sound stage before place r)
    (hscopes : r'.scopes = ⟨some kind, []⟩ :: r.scopes) (horigins : r'.origins = r.origins)
    (hkinds : next.kinds = some kind :: place.kinds)
    (hfunction : r'.function.isSome = next.inFunction)
    (hextent : r'.extent = r.extent ∨ place = .top) : Sound stage before next r' where
  kinds := by rw [hscopes, List.map_cons, h.kinds, hkinds]
  function := hfunction
  own := by rw [horigins]; exact h.own
  visible := by
    intro scope hscope entry hentry
    rw [hscopes, List.mem_cons] at hscope
    rcases hscope with rfl | hscope
    · simp at hentry
    · obtain ⟨extent, horigin, hseen⟩ := h.visible scope hscope entry hentry
      refine ⟨extent, by rw [horigins, horigin], ?_⟩
      rcases hextent with hextent | rfl
      · rwa [hextent]
      · exact .inl (hseen.elim id fun hlocal => hlocal.2.trans h.extent_of_top)
  globals := by
    intro id name hid root hroot
    rw [horigins] at hid
    obtain ⟨scope, outer, hr, -⟩ := h.exists_scope
    rw [hscopes, hr, List.getLast?_cons_cons, ← hr] at hroot
    exact h.globals id name hid root hroot

theorem pop {kind : Option ScopeKind} (h : Sound stage before place r)
    (hscopes : r'.scopes = r.scopes.tail) (horigins : r'.origins = r.origins)
    (hkinds : place.kinds = kind :: next.kinds)
    (hfunction : r'.function.isSome = next.inFunction)
    (hextent : r'.extent = r.extent ∨ next = .top) : Sound stage before next r' := by
  obtain ⟨scope, outer, hr, hplace⟩ := h.exists_scope
  have houter : outer.map Scope.kind = next.kinds := (List.cons.inj (hplace.trans hkinds)).2
  have hne : outer ≠ [] := by
    rintro rfl
    cases next <;> simp [Place.kinds] at houter
  rw [hr, List.tail_cons] at hscopes
  refine ⟨by rw [hscopes, houter], hfunction, by rw [horigins]; exact h.own, ?_, ?_⟩
  · intro scope' hscope' entry hentry
    rw [hscopes] at hscope'
    obtain ⟨extent, horigin, hseen⟩ := h.visible scope' (by simp [hr, hscope']) entry hentry
    refine ⟨extent, by rw [horigins, horigin], ?_⟩
    rcases hextent with hextent | rfl
    · rwa [hextent]
    · -- Only the outermost scope is left.
      have hkind : scope'.kind = none := by
        have hmem : scope'.kind ∈ outer.map Scope.kind := List.mem_map_of_mem hscope'
        simpa [houter, Place.kinds] using hmem
      exact .inl (hseen.elim id fun hlocal => absurd hkind hlocal.1)
  · intro id name hid root hroot
    rw [horigins] at hid
    rw [hscopes] at hroot
    refine h.globals id name hid root ?_
    rwa [hr, List.getLast?_cons_of_ne_nil hne]

theorem meet_plain (h : Sound stage before place r) {s : Site} (hs : s.role.declares = false) :
    Sound stage before place (r.meet stage s) := by
  obtain ⟨role, name⟩ := s
  cases role with
  | declared placement type d => cases hs
  | parameter => cases hs
  | use =>
    cases hname : r.resolve name with
    | some id =>
      rw [meet_use hname]
      exact h.addSite _
    | none =>
      rw [meet_use_of_free hname]
      exact (h.addFreeName name).addSite _
  | type | function _ | callee _ => exact h.addFreeName name
  | field => exact h

/-- The parameters of a function are declared, those of a prototype are not: `atParameters` by the
place. -/
theorem atParameters (h : Sound stage before place r) :
    r.atParameters = decide (place.kinds.head? = some (some .function)) := by
  obtain ⟨scope, outer, hr, hplace⟩ := h.exists_scope
  simp [Resolver.atParameters, hr, ← hplace]

theorem leave (h : Sound stage before place r) {kind : Option ScopeKind}
    (hkinds : place.kinds = kind :: next.kinds)
    (hnext : next.inFunction = if kind = some .function then false else place.inFunction)
    (htop : kind = some .function → next = .top) : Sound stage before next r.leave := by
  have hfunction : r.leave.function = if kind = some .function then none else r.function := by
    have hat := h.atParameters
    rw [Resolver.atParameters, hkinds, List.head?_cons] at hat
    rw [Resolver.leave, hat]
    simp
  refine h.pop rfl rfl hkinds ?_ ?_
  · rw [hfunction, hnext, ← h.function]
    split <;> rfl
  · by_cases hkind : kind = some .function
    · exact .inr (htop hkind)
    · exact .inl (by rw [extent, hfunction, if_neg hkind, ← extent])

theorem step {e : Event} (h : Sound stage before place r) (he : e.Leads place next) :
    Sound stage before next (r.step stage e) := by
  cases he with
  | directive line => exact h
  | conditional kind condition => exact h
  | elif condition => exact h
  | plain hs => exact h.meet_plain hs
  | declaredGlobal type d name => exact h.declare Place.noConfusion name _ _
  | declaredLocal type d name blocks => exact h.declare Place.noConfusion name _ _
  | parameter name =>
    rw [Resolver.step, meet_parameter (by rw [h.atParameters]; rfl)]
    exact h.declare Place.noConfusion name _ _
  | prototypeParameter name =>
    rw [Resolver.step, meet_parameter_of_not (by rw [h.atParameters]; rfl)]
    exact h.addSite none
  | enterFunction => exact h.push rfl rfl rfl rfl (.inr rfl)
  | enterPrototype => exact h.push rfl rfl rfl h.function (.inl rfl)
  | enterBlock blocks => exact h.push rfl rfl rfl h.function (.inl rfl)
  | leaveFunction => exact h.leave rfl rfl fun _ => rfl
  | leavePrototype => exact h.leave rfl rfl (by simp)
  | leaveBlock blocks => exact h.leave rfl rfl (by simp)

/-- What any events do: `Sound` goes along `Nested` events. By induction on them with
`Sound.step`. -/
theorem foldl {es : List Event} (hnested : Nested place es next)
    (h : Sound stage before place r) :
    Sound stage before next (es.foldl (Resolver.step stage) r) := by
  induction hnested generalizing r with
  | nil => exact h
  | cons he _ ih => exact ih (h.step he)

theorem run {bindings : List Binding} (h : ∀ b ∈ bindings, b.stage ≠ stage) (shader : Shader) :
    Sound stage (bindings.map Binding.origin) .top (run stage bindings shader) :=
  foldl shader.nested_events (start h)

theorem global_unique (h : Sound stage before place r) {i j : Nat}
    (hi : r.origins[i]? = some ⟨name, stage, .global⟩)
    (hj : r.origins[j]? = some ⟨name, stage, .global⟩) : i = j := by
  obtain ⟨scope, outer, hr, -⟩ := h.exists_scope
  obtain ⟨root, hroot⟩ : ∃ root, r.scopes.getLast? = some root :=
    ⟨_, List.getLast?_eq_getLast_of_ne_nil (by simp [hr])⟩
  have hlookup := h.globals i name hi root hroot
  rw [h.globals j name hj root hroot] at hlookup
  exact (Option.some.inj hlookup).symm

end Sound

/-! ## Where signatures come from -/

/-- The `signature` of a binding of the stage is the text of a declaration of its name, which stands
at one of these sites. -/
def Signed (stage : Stage) (sites : List Site) (r : Resolver) : Prop :=
  ∀ b ∈ r.bindings, b.stage = stage → ∀ text, b.signature = some text →
    ∃ type d, ⟨.declared .topLevel type d, b.name⟩ ∈ sites ∧
      (Statement.declaration ⟨type, [d]⟩).emit = text

namespace Signed

-- The stage that is gone through may be another one: then no signature is added.
variable {own : Stage} {sites : List Site}

theorem modify (h : Signed own sites r) {f : Binding → Binding} {id : Nat}
    (hr : r'.bindings = r.bindings.modify id f) (horigin : ∀ b, (f b).origin = b.origin)
    (hsignature : ∀ b text, (f b).signature = some text → b.signature = some text) :
    Signed own sites r' := by
  intro b hb hstage text htext
  rw [hr] at hb
  obtain ⟨old, hold, rfl | rfl⟩ := mem_modify hb
  · exact h _ hold hstage text htext
  · have hname : (f old).name = old.name := congrArg Origin.name (horigin old)
    have hstage' : (f old).stage = old.stage := congrArg Origin.stage (horigin old)
    rw [hname]
    exact h old hold (hstage'.symm.trans hstage) text (hsignature old text htext)

theorem addSite (h : Signed own sites r) (id : Option Nat) :
    Signed own sites (r.addSite id) := by
  cases id with
  | none => exact h
  | some id => exact h.modify rfl (fun _ => rfl) fun _ _ htext => htext

theorem declare (h : Signed own sites r) (name : String) (linked : Bool)
    {signature : Option String}
    (hsignature : stage = own → ∀ text, signature = some text → ∃ type d,
      ⟨.declared .topLevel type d, name⟩ ∈ sites ∧
        (Statement.declaration ⟨type, [d]⟩).emit = text) :
    Signed own sites (r.declare stage name linked signature) := by
  cases hname : r.declaredHere name with
  | some id =>
    rw [declare_of_declared hname]
    refine addSite (h.modify (f := redeclare linked signature) rfl (fun _ => rfl) ?_) _
    intro b text htext
    simp only [redeclare] at htext
    split at htext
    · exact htext
    · cases htext
  | none =>
    rw [declare_of_new hname]
    refine addSite (fun b hb => ?_) _
    rcases List.mem_append.1 hb with hb | hb
    · exact h b hb
    · obtain rfl := List.mem_singleton.1 hb
      exact hsignature

theorem meet (h : Signed own sites r) {s : Site} (hs : stage = own → s ∈ sites) :
    Signed own sites (r.meet stage s) := by
  obtain ⟨role, name⟩ := s
  cases role with
  | declared placement type d =>
    refine h.declare name _ fun hstage text htext => ?_
    cases placement with
    | topLevel => exact ⟨type, d, hs hstage, Option.some.inj htext⟩
    | inBody => cases htext
  | parameter =>
    cases hat : r.atParameters with
    | true =>
      rw [meet_parameter hat]
      exact h.declare name _ fun _ text htext => by cases htext
    | false =>
      rw [meet_parameter_of_not hat]
      exact h.addSite none
  | use =>
    cases hname : r.resolve name with
    | some id =>
      rw [meet_use hname]
      exact h.addSite _
    | none =>
      rw [meet_use_of_free hname]
      exact addSite (r := r.addFreeName name) h _
  | type | function _ | callee _ | field => exact h

theorem foldl {es : List Event} (h : Signed own sites r)
    (hes : stage = own → ∀ s ∈ es.filterMap Event.site?, s ∈ sites) :
    Signed own sites (es.foldl (step stage) r) := by
  induction es generalizing r with
  | nil => exact h
  | cons e es ih =>
    have hstep : Signed own sites (r.step stage e) := by
      cases e with
      | site s => exact h.meet fun hstage => hes hstage s (by simp [Event.site?])
      | enter kind =>
        rw [step, enter]
        split <;> exact h
      | leave | directive _ | conditional _ _ | elif _ => exact h
    refine ih hstep fun hstage s hs => hes hstage s ?_
    rw [List.filterMap_cons]
    split <;> simp [hs]

theorem run {bindings : List Binding} (h : ∀ b ∈ bindings, b.stage ≠ stage) (shader : Shader) :
    Signed stage shader.sites (run stage bindings shader) :=
  foldl (fun b hb hstage => absurd hstage (h b hb)) fun _ _ hs => hs

theorem run_other (h : Signed own sites r) (hstage : stage ≠ own) (shader : Shader) :
    Signed own sites (Resolver.run stage r.bindings shader) :=
  foldl (r := start r.bindings) h fun heq => absurd heq hstage

end Signed

end Resolver

end ShaderMinifier
