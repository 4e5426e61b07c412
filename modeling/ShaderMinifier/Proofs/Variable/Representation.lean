import ShaderMinifier.Proofs.Function.Live
import ShaderMinifier.Proofs.Item.Leaves
import ShaderMinifier.Proofs.Lists
import ShaderMinifier.Proofs.Site.Outer
import ShaderMinifier.Proofs.Variable.Plan
import ShaderMinifier.Proofs.Variable.Weight

/-
  What the table of a program tells of a stage. A binding is new only where it is declared, so the
  state of the resolver before that site has all bindings of smaller index and no site of a larger
  one: bindings first stand at their declarations, in the order of their indexes. The functions
  that were opened so far are counted on the way, and the leaf that a declaration stands in tells
  how many there are; so a binding lives where its declaration lies.
-/

namespace ShaderMinifier

theorem Role.isVariable_of_declares {role : Role} (h : role.declares = true) :
    role.isVariable = true := by
  cases role with
  | declared _ _ _ | parameter => rfl
  | type | field | function _ | use | callee _ => cases h

/-! ## Variable sites -/

namespace Event

/-- The variable sites among events (`isVariable`), in order. -/
def variableSites (es : List Event) : List Site :=
  (es.filterMap site?).filter fun s => s.role.isVariable

theorem variableSites_append (es fs : List Event) :
    variableSites (es ++ fs) = variableSites es ++ variableSites fs := by
  rw [variableSites, List.filterMap_append, List.filter_append]
  rfl

theorem variableSites_site {s : Site} (hs : s.role.isVariable = true) (es : List Event) :
    variableSites (.site s :: es) = s :: variableSites es :=
  List.filter_cons_of_pos hs

end Event

theorem Shader.variableSites_append (xs ys : List Item) :
    (Shader.mk (xs ++ ys)).variableSites =
      (Shader.mk xs).variableSites ++ (Shader.mk ys).variableSites := by
  have hevents := congrArg Event.variableSites (Item.listEvents_append xs ys)
  rw [Event.variableSites_append] at hevents
  exact hevents

theorem Resolver.length_sites_of_start (stage : Stage) (bindings : List Binding)
    (es : List Event) :
    (es.foldl (step stage) (start bindings)).sites.length = (Event.variableSites es).length :=
  (length_sites_foldl stage (start bindings) es).trans (Nat.zero_add _)

/-! ## Functions on the way -/

/-- The event opens the scope of a function, by which `Resolver.enter` counts. -/
def Event.opensFunction : Event → Bool
  | enter .function => true
  | enter .prototype | enter .block | leave => false
  | site _ | directive _ | conditional _ _ | elif _ => false

namespace Nested

variable {place next last : Place} {es fs : List Event}

theorem split (h : Nested place (es ++ fs) last) :
    ∃ mid, Nested place es mid ∧ Nested mid fs last := by
  induction es generalizing place with
  | nil => exact ⟨place, .nil, h⟩
  | cons e es ih =>
    obtain ⟨next, he, h⟩ := h.uncons
    obtain ⟨mid, hes, hfs⟩ := ih h
    exact ⟨mid, .cons he hes, hfs⟩

/-- Without an event that `opensFunction`, only a way that starts in a function ends in one. -/
theorem inFunction_of_end (h : Nested place es next) (hes : ∀ e ∈ es, e.opensFunction = false)
    (hnext : next.inFunction = true) : place.inFunction = true := by
  induction h with
  | nil => exact hnext
  | cons he _ ih =>
    rw [List.forall_mem_cons] at hes
    have hplace := ih hes.2 hnext
    cases he with
    | enterFunction => cases hes.1
    | enterPrototype | leaveFunction | leavePrototype => cases hplace
    | enterBlock | leaveBlock => rfl
    | directive _ | conditional _ _ | elif _ | plain _ | declaredGlobal _ _ _ | parameter _
    | prototypeParameter _ | declaredLocal _ _ _ _ => exact hplace

end Nested

theorem Event.Inner.opensFunction {es : List Event} (h : Inner es) :
    ∀ e ∈ es, e.opensFunction = false := by
  intro e he
  have hinner := h e he
  cases e with
  | enter kind =>
    cases kind with
    | function | prototype => cases hinner
    | block => rfl
  | site _ | leave | directive _ | conditional _ _ | elif _ => rfl

theorem Event.Inner.countP_opensFunction {es : List Event} (h : Inner es) :
    es.countP Event.opensFunction = 0 :=
  List.countP_eq_zero.2 fun e he => by rw [h.opensFunction e he]; exact Bool.false_ne_true

namespace Resolver

variable {stage : Stage} {before : List Origin} {place next : Place} {r : Resolver} {id : Nat}

theorem functions_declare (stage : Stage) (name : String) (linked : Bool)
    (signature : Option String) :
    (r.declare stage name linked signature).functions = r.functions ∧
      (r.declare stage name linked signature).function = r.function := by
  rw [declare]
  split <;> exact ⟨rfl, rfl⟩

theorem functions_meet (stage : Stage) (s : Site) :
    (r.meet stage s).functions = r.functions ∧ (r.meet stage s).function = r.function := by
  obtain ⟨role, name⟩ := s
  cases role with
  | declared placement type d => exact functions_declare stage name _ _
  | parameter =>
    cases hat : r.atParameters with
    | true =>
      rw [meet_parameter hat]
      exact functions_declare stage name _ _
    | false =>
      rw [meet_parameter_of_not hat]
      exact ⟨rfl, rfl⟩
  | use =>
    simp only [meet]
    split <;> exact ⟨rfl, rfl⟩
  | type | function _ | callee _ | field => exact ⟨rfl, rfl⟩

/-- The function that is open is the last one that was `opened`, counted from zero. -/
structure Numbered (opened : Nat) (r : Resolver) : Prop where
  functions : r.functions = opened
  function : ∀ index, r.function = some index → index + 1 = opened

theorem Numbered.step {opened : Nat} (h : Numbered opened r) (stage : Stage) (e : Event) :
    Numbered (opened + if e.opensFunction = true then 1 else 0) (r.step stage e) := by
  cases e with
  | site s =>
    obtain ⟨hfunctions, hfunction⟩ := r.functions_meet stage s
    exact ⟨hfunctions.trans h.functions, fun index hindex => h.function index (hfunction ▸ hindex)⟩
  | enter kind =>
    cases kind with
    | function =>
      refine ⟨congrArg (· + 1) h.functions, fun index hindex => ?_⟩
      obtain rfl : r.functions = index := Option.some.inj hindex
      exact congrArg (· + 1) h.functions
    | prototype | block => exact ⟨h.functions, h.function⟩
  | leave =>
    refine ⟨h.functions, fun index hindex => h.function index ?_⟩
    rw [Resolver.step, Resolver.leave] at hindex
    split at hindex
    · cases hindex
    · exact hindex
  | directive _ | conditional _ _ | elif _ => exact h

theorem Numbered.foldl {opened : Nat} (h : Numbered opened r) (stage : Stage) (es : List Event) :
    Numbered (opened + es.countP Event.opensFunction) (es.foldl (Resolver.step stage) r) := by
  induction es generalizing opened r with
  | nil => exact h
  | cons e es ih =>
    rw [List.countP_cons, Nat.add_comm (es.countP _), ← Nat.add_assoc]
    exact ih (h.step stage e)

theorem extent_foldl {bindings : List Binding} (hstage : ∀ b ∈ bindings, b.stage ≠ stage)
    {es : List Event} (h : Nested .top es place) :
    (es.foldl (step stage) (start bindings)).extent =
      if place.inFunction = true then .inFunction (es.countP Event.opensFunction - 1)
      else .global := by
  have hsound := (Sound.start hstage).foldl h
  have hstart : Numbered 0 (start bindings) := ⟨rfl, by simp [start]⟩
  have hnumbered := hstart.foldl stage es
  rw [Nat.zero_add] at hnumbered
  split
  · rename_i hplace
    obtain ⟨index, hindex⟩ := Option.isSome_iff_exists.1 (hsound.function.trans hplace)
    rw [extent, hindex, ← hnumbered.function index hindex, Nat.add_sub_cancel]
  · rename_i hplace
    refine extent_of_none ?_
    rw [← Option.not_isSome_iff_eq_none, hsound.function]
    exact hplace

/-! ## Where a binding is declared -/

theorem declares_of_lt_step {e : Event}
    (h : r.bindings.length < (r.step stage e).bindings.length) :
    ∃ s, e = .site s ∧ s.role.declares = true ∧
      (r.step stage e).origins = r.origins ++ [⟨s.name, stage, r.extent⟩] ∧
      (r.step stage e).sites = r.sites ++ [some r.bindings.length] := by
  have hdeclare : ∀ name linked signature,
      r.bindings.length < (r.declare stage name linked signature).bindings.length →
      (r.declare stage name linked signature).origins = r.origins ++ [⟨name, stage, r.extent⟩] ∧
        (r.declare stage name linked signature).sites = r.sites ++ [some r.bindings.length] := by
    intro name linked signature hlt
    cases hname : r.declaredHere name with
    | some id => simp [declare_of_declared hname, addSite, redeclareAt] at hlt
    | none =>
      rw [declare_of_new hname, origins_addSite, origins_bindNew]
      exact ⟨rfl, rfl⟩
  cases e with
  | site s =>
    obtain ⟨role, name⟩ := s
    refine ⟨_, rfl, ?_⟩
    cases role with
    | declared placement type d => exact ⟨rfl, hdeclare _ _ _ h⟩
    | parameter =>
      cases hat : r.atParameters with
      | true =>
        rw [step, meet_parameter hat] at h ⊢
        exact ⟨rfl, hdeclare _ _ _ h⟩
      | false =>
        rw [step, meet_parameter_of_not hat] at h
        exact absurd h (Nat.lt_irrefl _)
    | use =>
      cases hname : r.resolve name with
      | some id => simp [step, meet_use hname, addSite] at h
      | none =>
        rw [step, meet_use_of_free hname] at h
        exact absurd h (Nat.lt_irrefl _)
    | type | function _ | callee _ | field => exact absurd h (Nat.lt_irrefl _)
  | enter kind =>
    cases kind <;> exact absurd h (Nat.lt_irrefl _)
  | leave | directive _ | conditional _ _ | elif _ => exact absurd h (Nat.lt_irrefl _)

theorem exists_declaration {es : List Event} (hlow : r.bindings.length ≤ id)
    (hhigh : id < (es.foldl (step stage) r).bindings.length) :
    ∃ (earlier : List Event) (s : Site) (later : List Event),
      es = earlier ++ .site s :: later ∧ s.role.declares = true ∧
      (earlier.foldl (step stage) r).bindings.length = id ∧
      ((earlier.foldl (step stage) r).step stage (.site s)).origins =
        (earlier.foldl (step stage) r).origins ++
          [⟨s.name, stage, (earlier.foldl (step stage) r).extent⟩] ∧
      ((earlier.foldl (step stage) r).step stage (.site s)).sites =
        (earlier.foldl (step stage) r).sites ++ [some id] := by
  induction es generalizing r with
  | nil => exact absurd hhigh (Nat.not_lt.2 hlow)
  | cons e es ih =>
    by_cases hlt : id < (r.step stage e).bindings.length
    · obtain ⟨s, rfl, hdeclares, horigins, hsites⟩ :=
        declares_of_lt_step (Nat.lt_of_le_of_lt hlow hlt)
      have hlength := congrArg List.length horigins
      rw [length_origins, List.length_append, length_origins, List.length_singleton] at hlength
      obtain rfl : r.bindings.length = id := by omega
      exact ⟨[], s, es, rfl, hdeclares, rfl, horigins, hsites⟩
    · obtain ⟨earlier, s, later, rfl, h⟩ := ih (Nat.not_lt.1 hlt) hhigh
      exact ⟨e :: earlier, s, later, rfl, h⟩

theorem Sound.origin_of_mem_sites {es : List Event} (hnested : Nested place es next)
    (h : Sound stage before place r) (hid : some id ∈ (es.foldl (Resolver.step stage) r).sites) :
    some id ∈ r.sites ∨ ∃ name extent,
      (es.foldl (Resolver.step stage) r).origins[id]? = some ⟨name, stage, extent⟩ := by
  induction hnested generalizing r with
  | nil => exact .inl hid
  | @cons _ _ _ e es he _ ih =>
    rcases ih (h.step he) hid with hmem | hfound
    · cases e with
      | site s =>
        rw [Resolver.step, sites_meet, List.mem_append] at hmem
        refine hmem.imp_right fun hnew => ?_
        have hsite : r.siteId s = some id := by
          split at hnew
          · exact (List.mem_singleton.1 hnew).symm
          · cases hnew
        obtain ⟨extent, horigin, -⟩ :=
          h.origin_siteId hsite (grows_foldl stage (r.meet stage s) es).origins
        exact ⟨s.name, extent, horigin⟩
      | enter _ | leave | directive _ | conditional _ _ | elif _ =>
        rw [sites_step_of_other stage r rfl] at hmem
        exact .inl hmem
    · exact .inr hfound

end Resolver

/-! ## Leaves -/

namespace Item

/-- The item defines a function; a prototype does not. -/
def isFunction : Item → Bool
  | function _ _ => true
  | directive _ | conditional _ _ _ _ | precision _ _ | invariant _ | declaration _
  | prototype _ => false

mutual

theorem isConditional_of_mem_leaves : (i : Item) → ∀ leaf ∈ i.leaves, leaf.isConditional = false
  | conditional _ _ body rest => by
    rw [leaves, List.forall_mem_append]
    exact ⟨isConditional_of_mem_listLeaves body, isConditional_of_mem_branchLeaves rest⟩
  | directive _ | precision _ _ | invariant _ | declaration _ | prototype _ | function _ _ => by
    simp [leaves, isConditional]

theorem isConditional_of_mem_listLeaves : (items : List Item) →
    ∀ leaf ∈ listLeaves items, leaf.isConditional = false
  | [] => by simp [listLeaves]
  | item :: items => by
    rw [listLeaves, List.forall_mem_append]
    exact ⟨isConditional_of_mem_leaves item, isConditional_of_mem_listLeaves items⟩

theorem isConditional_of_mem_branchLeaves : (b : Branches) →
    ∀ leaf ∈ branchLeaves b, leaf.isConditional = false
  | .done => by simp [branchLeaves]
  | .otherwise body => isConditional_of_mem_listLeaves body
  | .elif _ body rest => by
    rw [branchLeaves, List.forall_mem_append]
    exact ⟨isConditional_of_mem_listLeaves body, isConditional_of_mem_branchLeaves rest⟩

end

theorem listEvents_split {items : List Item} {before after : List Event} {e : Event}
    (h : listEvents items = before ++ e :: after) :
    ∃ earlier item later inner rest, items = earlier ++ item :: later ∧
      before = listEvents earlier ++ inner ∧ item.events = inner ++ e :: rest := by
  induction items generalizing before with
  | nil => simp [listEvents] at h
  | cons item items ih =>
    rcases append_eq_append_cons h with ⟨rest, hitem⟩ | ⟨mid, rfl, hitems⟩
    · exact ⟨[], item, items, before, rest, rfl, rfl, hitem⟩
    · obtain ⟨earlier, found, later, inner, rest, rfl, rfl, hfound⟩ := ih hitems
      exact ⟨item :: earlier, found, later, inner, rest, rfl, (List.append_assoc _ _ _).symm,
        hfound⟩

theorem opensFunction_of_not_isFunction {leaf : Item} (hleaf : leaf.isConditional = false)
    (h : leaf.isFunction = false) : ∀ e ∈ leaf.events, e.opensFunction = false := by
  cases leaf with
  | conditional _ _ _ _ => cases hleaf
  | function _ _ => cases h
  | directive _ | precision _ _ => simp [events, Event.name, Event.opensFunction]
  | invariant _ => simp [events, Event.name, Event.opensFunction]
  | declaration decl =>
    intro e he
    have hsite := decl.site?_of_mem_events e he
    cases e with
    | site _ => rfl
    | enter _ | leave | directive _ | conditional _ _ | elif _ => cases hsite
  | prototype signature =>
    have hparams := signature.inner_paramEvents.opensFunction
    rw [events, List.forall_mem_append]
    refine ⟨signature.inner_headEvents.opensFunction, ?_⟩
    rw [Event.inScope, List.cons_append, List.forall_mem_cons, List.forall_mem_append]
    exact ⟨rfl, hparams, by simp [Event.opensFunction]⟩

theorem inner_body (signature : Prototype) (body : List Statement) :
    Event.Inner (signature.paramEvents ++ Statement.listEvents body) :=
  signature.inner_paramEvents.append (Statement.inner_listEvents body)

theorem countP_opensFunction {leaf : Item} (hleaf : leaf.isConditional = false) :
    leaf.events.countP Event.opensFunction = if leaf.isFunction = true then 1 else 0 := by
  cases h : leaf.isFunction with
  | false =>
    rw [List.countP_eq_zero.2 (by simpa using opensFunction_of_not_isFunction hleaf h)]
    rfl
  | true =>
    cases leaf with
    | function signature body =>
      rw [events, Event.inScope, List.countP_append,
        signature.inner_headEvents.countP_opensFunction, List.cons_append, List.countP_cons,
        List.countP_append, (inner_body signature body).countP_opensFunction]
      rfl
    | directive _ | conditional _ _ _ _ | precision _ _ | invariant _ | declaration _
    | prototype _ => cases h

theorem countP_opensFunction_list {items : List Item}
    (h : ∀ item ∈ items, item.isConditional = false) :
    (listEvents items).countP Event.opensFunction = items.countP isFunction := by
  induction items with
  | nil => rfl
  | cons item items ih =>
    rw [List.forall_mem_cons] at h
    rw [listEvents, List.countP_append, ih h.2, countP_opensFunction h.1, List.countP_cons,
      Nat.add_comm]

/-- A declaration in the body of a function, or of a parameter, stands in the function: the `Place`
before it is inside. -/
theorem exists_place_of_body {signature : Prototype} {body : List Statement}
    {before rest : List Event} {s : Site}
    (h : .enter .function :: (signature.paramEvents ++ Statement.listEvents body) =
      before ++ .site s :: rest) :
    ∃ place, Nested .top before place ∧ place.inFunction = true ∧
      before.countP Event.opensFunction = 1 := by
  cases before with
  | nil => cases h
  | cons e before =>
    obtain ⟨rfl, hbody⟩ := List.cons.inj h
    have hinner := inner_body signature body
    have hnested :
        Nested (.body 0) (signature.paramEvents ++ Statement.listEvents body) (.body 0) :=
      (Nested.flatMap fun p _ => p.nested_events .parameter).append
        (Statement.nested_listEvents body 0)
    rw [hbody] at hinner hnested
    obtain ⟨place, hbefore, hafter⟩ := hnested.split
    refine ⟨place, .cons .enterFunction hbefore, ?_, ?_⟩
    · exact hafter.inFunction_of_end (List.forall_mem_append.1 hinner.opensFunction).2 rfl
    · rw [List.countP_cons, Event.Inner.countP_opensFunction (List.forall_mem_append.1 hinner).1]
      rfl

theorem exists_place_of_declares {leaf : Item} (hleaf : leaf.isConditional = false)
    {inner rest : List Event} {s : Site} (hevents : leaf.events = inner ++ .site s :: rest)
    (hs : s.role.declares = true) :
    ∃ place, Nested .top inner place ∧ place.inFunction = leaf.isFunction ∧
      (leaf.isFunction = true → inner.countP Event.opensFunction = 1) := by
  cases h : leaf.isFunction with
  | false =>
    have hnested := leaf.nested_events
    have hopens := opensFunction_of_not_isFunction hleaf h
    rw [hevents, List.forall_mem_append] at hopens
    rw [hevents] at hnested
    obtain ⟨place, hplace, -⟩ := hnested.split
    refine ⟨place, hplace, Bool.eq_false_iff.2 fun hin => ?_, by simp⟩
    exact Bool.false_ne_true (hplace.inFunction_of_end hopens.1 hin)
  | true =>
    cases leaf with
    | function signature body =>
      rcases append_eq_append_cons hevents with ⟨rest, hhead⟩ | ⟨mid, rfl, hscope⟩
      · -- A signature declares nothing before its parameters.
        have hplain := signature.isPlain_headEvents (.site s) (by rw [hhead]; simp)
        simp [Event.isPlain, hs] at hplain
      · rcases append_eq_append_cons hscope with ⟨rest, hbody⟩ | ⟨mid, -, hleave⟩
        · obtain ⟨place, hmid, hin, hcount⟩ := exists_place_of_body hbody
          refine ⟨place, signature.nested_headEvents.append hmid, hin, fun _ => ?_⟩
          rw [List.countP_append, signature.inner_headEvents.countP_opensFunction, hcount]
        · cases mid <;> simp at hleave
    | directive _ | conditional _ _ _ _ | precision _ _ | invariant _ | declaration _
    | prototype _ => cases h

end Item

namespace Shader

/-- The variable site of this position lies in the function definition of this number, where both
are counted from zero and over the `leaves`, in every branch. -/
def InFunction (shader : Shader) (number position : Nat) : Prop :=
  ∃ (earlier : List Item) (signature : Prototype) (body : List Statement) (later : List Item),
    shader.leaves = earlier ++ .function signature body :: later ∧
    earlier.countP Item.isFunction = number ∧
    (Shader.mk earlier).variableSites.length ≤ position ∧
    position < (Shader.mk (earlier ++ [.function signature body])).variableSites.length

theorem item_unique {items earlier earlier' later later' : List Item} {item item' : Item}
    {position : Nat} (h : items = earlier ++ item :: later)
    (h' : items = earlier' ++ item' :: later')
    (hlow : (Shader.mk earlier).variableSites.length ≤ position)
    (hlow' : (Shader.mk earlier').variableSites.length ≤ position)
    (hhigh : position < (Shader.mk (earlier ++ [item])).variableSites.length)
    (hhigh' : position < (Shader.mk (earlier' ++ [item'])).variableSites.length) :
    earlier = earlier' ∧ item = item' := by
  -- Of two different items, one comes with all its sites before the other.
  have hbefore : ∀ {earlier earlier' later later' : List Item} {item item' : Item},
      items = earlier ++ item :: later → items = earlier' ++ item' :: later' →
      earlier.length < earlier'.length →
      (Shader.mk (earlier ++ [item])).variableSites.length ≤
        (Shader.mk earlier').variableSites.length := by
    intro earlier earlier' later later' item item' h h' hlength
    have hitem : earlier ++ [item] <+: items := ⟨later, by rw [h]; simp⟩
    have hearlier' : earlier' <+: items := ⟨item' :: later', h'.symm⟩
    obtain ⟨rest, rfl⟩ := List.prefix_of_prefix_length_le hitem hearlier' (by simpa using hlength)
    rw [variableSites_append (earlier ++ [item]), List.length_append]
    exact Nat.le_add_right _ _
  rcases Nat.lt_trichotomy earlier.length earlier'.length with hlt | heq | hlt
  · exact absurd (hbefore h h' hlt) (by omega)
  · obtain ⟨hearlier, hrest⟩ := List.append_inj (h.symm.trans h') heq
    exact ⟨hearlier, (List.cons.inj hrest).1⟩
  · exact absurd (hbefore h' h hlt) (by omega)

end Shader

namespace Resolver

variable {stage : Stage} {bindings : List Binding} {id : Nat}

theorem length_sites_of_leaf (stage : Stage) (bindings : List Binding) (earlier : List Item)
    {leaf : Item} {inner rest : List Event} {s : Site}
    (hleaf : leaf.events = inner ++ .site s :: rest) (hs : s.role.declares = true) :
    (Shader.mk earlier).variableSites.length ≤
        ((Item.listEvents earlier ++ inner).foldl (step stage) (start bindings)).sites.length ∧
      ((Item.listEvents earlier ++ inner).foldl (step stage) (start bindings)).sites.length <
        (Shader.mk (earlier ++ [leaf])).variableSites.length := by
  have hhere : (Shader.mk [leaf]).variableSites =
      Event.variableSites inner ++ s :: Event.variableSites rest := by
    rw [← Event.variableSites_site (Role.isVariable_of_declares hs),
      ← Event.variableSites_append, ← hleaf]
    exact congrArg Event.variableSites (List.append_nil leaf.events)
  have hbefore : (Event.variableSites (Item.listEvents earlier ++ inner)).length =
      (Shader.mk earlier).variableSites.length + (Event.variableSites inner).length := by
    rw [Event.variableSites_append, List.length_append]
    rfl
  rw [length_sites_of_start, hbefore, Shader.variableSites_append, hhere, List.length_append,
    List.length_append, List.length_cons]
  omega

theorem extent_iff_inFunction (hstage : ∀ b ∈ bindings, b.stage ≠ stage) {shader : Shader}
    {before after : List Event} {s : Site} (hs : s.role.declares = true)
    (h : shader.opened.events = before ++ .site s :: after) (number : Nat) :
    (before.foldl (step stage) (start bindings)).extent = .inFunction number ↔
      shader.InFunction number (before.foldl (step stage) (start bindings)).sites.length := by
  obtain ⟨earlier, leaf, later, inner, rest, hleaves, rfl, hleaf⟩ := Item.listEvents_split h
  have hconditional := Item.isConditional_of_mem_listLeaves shader.items
  replace hleaves : shader.leaves = earlier ++ leaf :: later := hleaves
  rw [← Shader.leaves, hleaves, List.forall_mem_append, List.forall_mem_cons] at hconditional
  obtain ⟨place, hplace, hin, hcount⟩ :=
    Item.exists_place_of_declares hconditional.2.1 hleaf hs
  obtain ⟨hlow, hhigh⟩ := length_sites_of_leaf stage bindings earlier hleaf hs
  rw [extent_foldl hstage ((Item.nested_listEvents earlier).append hplace), List.countP_append,
    Item.countP_opensFunction_list hconditional.1, hin]
  constructor
  · intro hextent
    cases leaf with
    | function signature body =>
      rw [hcount rfl] at hextent
      exact ⟨earlier, signature, body, later, hleaves, Extent.inFunction.inj hextent, hlow, hhigh⟩
    | directive _ | conditional _ _ _ _ | precision _ _ | invariant _ | declaration _
    | prototype _ => cases hextent
  · rintro ⟨earlier', signature, body, later', hleaves', hnumber, hlow', hhigh'⟩
    obtain ⟨rfl, rfl⟩ := Shader.item_unique hleaves hleaves' hlow hlow' hhigh hhigh'
    rw [hcount rfl, hnumber]
    rfl

/-- Only bindings so far were noted in `sites`. -/
theorem lt_of_mem_sites (hstage : ∀ b ∈ bindings, b.stage ≠ stage) {es : List Event}
    {place : Place} (hes : Nested .top es place)
    (h : some id ∈ (es.foldl (step stage) (start bindings)).sites) :
    id < (es.foldl (step stage) (start bindings)).bindings.length := by
  rcases (Sound.start hstage).origin_of_mem_sites hes h with hstart | ⟨name, extent, horigin⟩
  · simp [start] at hstart
  · rw [← length_origins]
    exact (List.getElem?_eq_some_iff.1 horigin).1

theorem getElem?_variableSites (stage : Stage) (bindings : List Binding) {shader : Shader}
    {before after : List Event} {s : Site} (hs : s.role.isVariable = true)
    (h : shader.events = before ++ .site s :: after) :
    shader.variableSites[(before.foldl (step stage) (start bindings)).sites.length]? = some s := by
  have hsites : shader.variableSites =
      Event.variableSites before ++ s :: Event.variableSites after := by
    rw [← Event.variableSites_site hs, ← Event.variableSites_append, ← h]
    rfl
  rw [hsites, length_sites_of_start, List.getElem?_append_right (Nat.le_refl _), Nat.sub_self]
  rfl

/-- The first site of a binding of the stage: where it is declared, behind the first sites of all
bindings of the stage before it; its extent is that of `InFunction`. -/
theorem first_site (hstage : ∀ b ∈ bindings, b.stage ≠ stage) {shader : Shader}
    (hlow : bindings.length ≤ id) (hhigh : id < (run stage bindings shader).bindings.length) :
    ∃ s extent, s.role.declares = true ∧
      (run stage bindings shader).origins[id]? = some ⟨s.name, stage, extent⟩ ∧
      shader.variableSites[(run stage bindings shader).sites.idxOf (some id)]? = some s ∧
      (∀ number, extent = .inFunction number ↔
        shader.InFunction number ((run stage bindings shader).sites.idxOf (some id))) ∧
      ∀ id', bindings.length ≤ id' → id' < id →
        (run stage bindings shader).sites.idxOf (some id') <
          (run stage bindings shader).sites.idxOf (some id) := by
  rw [← shader.run_opened] at hhigh ⊢
  obtain ⟨earlier, s, later, hevents, hdeclares, hlength, horigins, hsites⟩ :=
    exists_declaration (r := start bindings) hlow hhigh
  obtain ⟨place, hplace, -⟩ := Nested.split (hevents ▸ shader.opened.nested_events)
  have hrun : run stage bindings shader.opened = later.foldl (step stage)
      ((earlier.foldl (step stage) (start bindings)).step stage (.site s)) := by
    rw [run, hevents, List.foldl_append, List.foldl_cons]
  have hextent := extent_iff_inFunction hstage hdeclares hevents
  have hmet := met_foldl stage bindings earlier
  have hnew : some id ∉ (earlier.foldl (step stage) (start bindings)).sites :=
    fun hmem => Nat.ne_of_lt (lt_of_mem_sites hstage hplace hmem) hlength.symm
  have hgrows := grows_foldl stage
    ((earlier.foldl (step stage) (start bindings)).step stage (.site s)) later
  have hsite := getElem?_variableSites stage bindings (Role.isVariable_of_declares hdeclares)
    hevents
  generalize earlier.foldl (step stage) (start bindings) = r at *
  obtain ⟨rest, hrest⟩ := hgrows.sites
  have hfirst : (run stage bindings shader.opened).sites.idxOf (some id) = r.sites.length := by
    rw [hrun, ← hrest, hsites, List.append_assoc, List.idxOf_append_of_notMem hnew]
    simp
  refine ⟨s, r.extent, hdeclares, ?_, ?_, ?_, ?_⟩
  · rw [hrun]
    refine getElem?_of_isPrefix hgrows.origins ?_
    rw [horigins, ← hlength, ← length_origins, List.getElem?_concat_length]
  · rw [hfirst, ← hsite, Shader.variableSites, ← shader.sites_opened]
    rfl
  · rw [hfirst]
    exact hextent
  · intro id' hlow' hlt
    have hmem := hmet id' hlow' (hlength ▸ hlt)
    rw [hfirst, hrun, ← hrest, hsites, List.append_assoc, List.idxOf_append_of_mem hmem]
    exact List.idxOf_lt_length_of_mem hmem

end Resolver

/-! ## The table -/

namespace BindingTable

open Resolver

variable {vertex fragment : Shader}

/-- What the table tells of the `variableSites` of a stage: `sites` holds, for each of them, the
binding that stands there. -/
structure Describes (table : BindingTable) (stage : Stage) (shader : Shader)
    (sites : List (Option Nat)) : Prop where
  length : sites.length = shader.variableSites.length
  /-- Only bindings of the `stage` stand at its sites. -/
  own : ∀ id, some id ∈ sites → ∃ b, table.bindings[id]? = some b ∧ b.stage = stage
  /-- A binding knows the number of its `sites`, and has one. -/
  count : ∀ id b, table.bindings[id]? = some b → b.stage = stage →
    b.sites = sites.count (some id) ∧ 1 ≤ b.sites
  /-- Bindings first stand at `sites` in the order of their indexes. -/
  ordered : ∀ id id', some id ∈ sites → some id' ∈ sites → id < id' →
    sites.idxOf (some id) < sites.idxOf (some id')
  /-- A binding first stands at the site that declares its name (`declares`). -/
  declared : ∀ id b, table.bindings[id]? = some b → b.stage = stage →
    ∃ s, shader.variableSites[sites.idxOf (some id)]? = some s ∧ s.role.declares = true ∧
      s.name = b.name
  /-- A binding lives in the function that its declaration lies in (`InFunction`). -/
  inFunction : ∀ id b, table.bindings[id]? = some b → b.stage = stage →
    ∀ number, b.extent = .inFunction number ↔ shader.InFunction number (sites.idxOf (some id))
  /-- A binding is `global` if its declaration lies in no function. -/
  global : ∀ id b, table.bindings[id]? = some b → b.stage = stage →
    (b.extent = .global ↔ ∀ number, ¬ shader.InFunction number (sites.idxOf (some id)))

theorem stage_of_mem_sites {table : BindingTable} {stage : Stage} {shader : Shader}
    {bindings : List Binding} (hstage : ∀ b ∈ bindings, b.stage ≠ stage)
    (horigins : (Resolver.run stage bindings shader).origins <+: table.origins) {id : Nat}
    (hid : some id ∈ (Resolver.run stage bindings shader).sites) :
    ∃ b, table.bindings[id]? = some b ∧ b.stage = stage := by
  rcases (Sound.start hstage).origin_of_mem_sites shader.nested_events hid with
    hstart | ⟨name, extent, horigin⟩
  · simp [start] at hstart
  · obtain ⟨b, hb, heq⟩ := getElem?_origins (getElem?_of_isPrefix horigins horigin)
    exact ⟨b, hb, congrArg Origin.stage heq⟩

theorem not_mem_sites {table : BindingTable} {stage : Stage} {shader : Shader}
    {bindings : List Binding} (hstage : ∀ b ∈ bindings, b.stage ≠ stage)
    (horigins : (Resolver.run stage bindings shader).origins <+: table.origins) {id : Nat}
    {b : Binding} (hb : table.bindings[id]? = some b) (hother : b.stage ≠ stage) :
    some id ∉ (Resolver.run stage bindings shader).sites := by
  intro hid
  obtain ⟨b', hb', hown⟩ := stage_of_mem_sites hstage horigins hid
  obtain rfl : b = b' := Option.some.inj (hb.symm.trans hb')
  exact hother hown

/-- A table that goes on from a stage `Describes` it, if the bindings of the stage have their
indexes and their numbers of sites from there. -/
theorem describes_of_run {table : BindingTable} {stage : Stage} {shader : Shader}
    {bindings : List Binding} (hstage : ∀ b ∈ bindings, b.stage ≠ stage)
    (horigins : (Resolver.run stage bindings shader).origins <+: table.origins)
    (hrange : ∀ id b, table.bindings[id]? = some b → b.stage = stage →
      bindings.length ≤ id ∧ id < (Resolver.run stage bindings shader).bindings.length)
    (hcount : ∀ id b, table.bindings[id]? = some b → b.stage = stage →
      b.sites = (Resolver.run stage bindings shader).sites.count (some id)) :
    table.Describes stage shader (Resolver.run stage bindings shader).sites := by
  have hown : ∀ id, some id ∈ (Resolver.run stage bindings shader).sites →
      ∃ b, table.bindings[id]? = some b ∧ b.stage = stage :=
    fun _ => stage_of_mem_sites hstage horigins
  -- The first site of a binding, with what the table tells of the binding.
  have hfirst : ∀ id b, table.bindings[id]? = some b → b.stage = stage →
      ∃ s, s.role.declares = true ∧ s.name = b.name ∧
        shader.variableSites[(Resolver.run stage bindings shader).sites.idxOf (some id)]? = some s ∧
        ∀ number, b.extent = .inFunction number ↔ shader.InFunction number
          ((Resolver.run stage bindings shader).sites.idxOf (some id)) := by
    intro id b hb hbstage
    obtain ⟨hlow, hhigh⟩ := hrange id b hb hbstage
    obtain ⟨s, extent, hdeclares, horigin, hsite, hextent, -⟩ := first_site hstage hlow hhigh
    obtain ⟨b', hb', heq⟩ := getElem?_origins (getElem?_of_isPrefix horigins horigin)
    obtain rfl : b = b' := Option.some.inj (hb.symm.trans hb')
    obtain rfl : b.extent = extent := congrArg Origin.extent heq
    exact ⟨s, hdeclares, (congrArg Origin.name heq).symm, hsite, hextent⟩
  refine ⟨length_sites_run stage bindings shader, hown, ?_, ?_, ?_, ?_, ?_⟩
  · intro id b hb hbstage
    obtain ⟨hlow, hhigh⟩ := hrange id b hb hbstage
    have hmet := met_run stage bindings shader id hlow hhigh
    rw [hcount id b hb hbstage]
    exact ⟨rfl, List.count_pos_iff.2 hmet⟩
  · intro id id' hid hid' hlt
    obtain ⟨b, hb, hbstage⟩ := hown id hid
    obtain ⟨b', hb', hbstage'⟩ := hown id' hid'
    obtain ⟨hlow', hhigh'⟩ := hrange id' b' hb' hbstage'
    obtain ⟨-, -, -, -, -, -, hbefore⟩ := first_site hstage hlow' hhigh'
    exact hbefore id (hrange id b hb hbstage).1 hlt
  · intro id b hb hbstage
    obtain ⟨s, hdeclares, hname, hsite, -⟩ := hfirst id b hb hbstage
    exact ⟨s, hsite, hdeclares, hname⟩
  · intro id b hb hbstage
    obtain ⟨-, -, -, -, hextent⟩ := hfirst id b hb hbstage
    exact hextent
  · intro id b hb hbstage
    obtain ⟨-, -, -, -, hextent⟩ := hfirst id b hb hbstage
    simp only [← hextent]
    cases b.extent with
    | global => simp
    | inFunction index => simp

theorem stage_ofShaders {id : Nat} {b : Binding}
    (hb : (ofShaders vertex fragment).bindings[id]? = some b) :
    id < (Resolver.run .vertex [] vertex).bindings.length ∧ b.stage = .vertex ∨
      (Resolver.run .vertex [] vertex).bindings.length ≤ id ∧ b.stage = .fragment := by
  have hfragment : ∀ b ∈ (Resolver.run .vertex [] vertex).bindings, b.stage ≠ .fragment :=
    fun _ => stage_ne_of_mem_vertex
  obtain ⟨mine, horigins, hmine⟩ := (Sound.run hfragment fragment).own
  have horigin : (Resolver.run .fragment (Resolver.run .vertex [] vertex).bindings
      fragment).origins[id]? = some b.origin := by
    rw [Resolver.origins, List.getElem?_map]
    exact congrArg (Option.map Binding.origin) hb
  rw [horigins, List.getElem?_append, List.length_map] at horigin
  split at horigin
  · rename_i hlt
    obtain ⟨b', hb', heq⟩ := List.mem_map.1 (List.mem_of_getElem? horigin)
    exact .inl ⟨hlt, (congrArg Origin.stage heq).symm.trans (stage_of_mem_run hb')⟩
  · rename_i hge
    exact .inr ⟨Nat.not_lt.1 hge, hmine _ (List.mem_of_getElem? horigin)⟩

theorem describes_ofShaders (vertex fragment : Shader) :
    (ofShaders vertex fragment).Describes .vertex vertex
        (Resolver.run .vertex [] vertex).sites ∧
      (ofShaders vertex fragment).Describes .fragment fragment
        (Resolver.run .fragment (Resolver.run .vertex [] vertex).bindings fragment).sites := by
  have hvertex : ∀ b ∈ ([] : List Binding), b.stage ≠ .vertex := by simp
  have hfragment : ∀ b ∈ (Resolver.run .vertex [] vertex).bindings, b.stage ≠ .fragment :=
    fun _ => stage_ne_of_mem_vertex
  have horigins := origins_vertex_isPrefix vertex fragment
  have hcounted := counted_ofShaders vertex fragment
  constructor
  · refine describes_of_run hvertex horigins ?_ ?_
    · intro id b hb hstage
      rcases stage_ofShaders hb with ⟨hlt, -⟩ | ⟨-, hother⟩
      · exact ⟨Nat.zero_le id, hlt⟩
      · exact absurd (hstage.symm.trans hother) Stage.noConfusion
    · intro id b hb hstage
      have hnone := not_mem_sites hfragment (List.prefix_refl _) hb
        (by rw [hstage]; exact Stage.noConfusion)
      rw [hcounted.sites id b hb, List.count_append, List.count_eq_zero.2 hnone, Nat.add_zero]
  · refine describes_of_run hfragment (List.prefix_refl _) ?_ ?_
    · intro id b hb hstage
      rcases stage_ofShaders hb with ⟨-, hother⟩ | ⟨hge, -⟩
      · exact absurd (hstage.symm.trans hother) Stage.noConfusion
      · exact ⟨hge, (List.getElem?_eq_some_iff.1 hb).1⟩
    · intro id b hb hstage
      have hnone := not_mem_sites hvertex horigins hb (by rw [hstage]; exact Stage.noConfusion)
      rw [hcounted.sites id b hb, List.count_append, List.count_eq_zero.2 hnone, Nat.zero_add]

end BindingTable

namespace Program

/-- The table that `build` makes of a program `Describes` both stages. -/
theorem build_describes (vertex fragment : Shader) :
    ∃ table, (BindingTable.build ⟨some vertex, some fragment⟩).result = .ok table ∧
      ∀ stage, ∃ shader bindings,
        (Program.mk (some vertex) (some fragment)).shader stage = .ok shader ∧
        table.stage stage = .ok bindings ∧ table.Describes stage shader bindings.sites := by
  obtain ⟨hvertex, hfragment⟩ := BindingTable.describes_ofShaders vertex fragment
  refine ⟨_, result_build vertex fragment, fun stage => ?_⟩
  cases stage with
  | vertex => exact ⟨vertex, _, rfl, rfl, hvertex⟩
  | fragment => exact ⟨fragment, _, rfl, rfl, hfragment⟩

end Program

end ShaderMinifier
