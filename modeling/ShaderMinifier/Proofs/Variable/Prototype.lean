import ShaderMinifier.Proofs.Item.Leaves
import ShaderMinifier.Proofs.Site.Outer
import ShaderMinifier.Proofs.Variable.Plan

/-
  The parameters of a prototype without a body. They stand for no binding and keep their names,
  while the globals in their sizes get new ones; no new name is kept away from the parameters. So
  a size can come to read a parameter, and it does exactly where a global that is declared before
  the prototype is given the name of one.
-/

namespace ShaderMinifier

open Event

/-! ## The names of a prototype -/

/-- The names in a `role` among events. -/
def Event.namesAs (role : Role) (es : List Event) : List String :=
  ((es.filterMap site?).filter fun s => s.role = role).map Site.name

namespace Prototype

/-- The names of the parameters of a `Prototype`, those that have one. -/
def paramNames (p : Prototype) : List String := p.params.filterMap Parameter.name

/-- The variables in the sizes of the parameters of a `Prototype`, in order. -/
def sizeNames (p : Prototype) : List String :=
  p.params.flatMap fun x => namesAs .use (Expr.optionalEvents x.size)

/-- A size reads what is spelled like a parameter: a name of `sizeNames` is one of `paramNames`. -/
def Captures (p : Prototype) : Prop := ∃ name ∈ p.sizeNames, name ∈ p.paramNames

instance (p : Prototype) : Decidable p.Captures :=
  inferInstanceAs (Decidable (∃ name ∈ p.sizeNames, name ∈ p.paramNames))

end Prototype

namespace Event

variable {es : List Event}

theorem namesAs_append (role : Role) (es fs : List Event) :
    namesAs role (es ++ fs) = namesAs role es ++ namesAs role fs := by
  simp [namesAs]

theorem namesAs_flatMap {α : Type} (role : Role) (f : α → List Event) (xs : List α) :
    namesAs role (xs.flatMap f) = xs.flatMap fun x => namesAs role (f x) := by
  induction xs with
  | nil => rfl
  | cons x xs ih => rw [List.flatMap_cons, List.flatMap_cons, namesAs_append, ih]

theorem namesAs_site (role : Role) (s : Site) (es : List Event) :
    namesAs role (.site s :: es) = (if s.role = role then [s.name] else []) ++ namesAs role es := by
  by_cases h : s.role = role <;> simp [namesAs, site?, h]

theorem namesAs_of_isPlain {role : Role} (hrole : role.declares = true)
    (h : ∀ e ∈ es, e.isPlain = true) : namesAs role es = [] := by
  rw [namesAs, List.map_eq_nil_iff, List.filter_eq_nil_iff]
  intro s hs hs'
  obtain ⟨e, he, hsite⟩ := List.mem_filterMap.1 hs
  have hplain := h e he
  cases e with
  | site s' =>
    obtain rfl := Option.some.inj hsite
    rw [isPlain, of_decide_eq_true hs', hrole] at hplain
    cases hplain
  | directive _ | conditional _ _ | elif _ | enter _ | leave => cases hplain

end Event

/-- The event is a name, and if it declares a variable, then as a `parameter`. -/
def Event.InSignature (e : Event) : Prop :=
  ∃ s, e = .site s ∧ (s.role.declares = true → s.role = .parameter)

theorem Event.InSignature.ofPlain {e : Event} (h : e.isPlain = true) : e.InSignature := by
  cases e with
  | site s =>
    have hdeclares : s.role.declares = false := by simpa [isPlain] using h
    exact ⟨s, rfl, fun hs => by rw [hdeclares] at hs; cases hs⟩
  | directive _ | conditional _ _ | elif _ | enter _ | leave => cases h

namespace Parameter

theorem namesAs_parameter (x : Parameter) : namesAs .parameter x.events = x.name.toList := by
  rw [events, namesAs_append, Event.name, namesAs_site,
    namesAs_of_isPlain rfl (Expr.isPlain_optionalEvents x.size)]
  cases x.name <;> rfl

theorem namesAs_use (x : Parameter) :
    namesAs .use x.events = namesAs .use (Expr.optionalEvents x.size) := by
  rw [events, namesAs_append, Event.name, namesAs_site]
  cases x.name <;> simp [namesAs, Event.name, site?]

theorem inSignature_of_mem {x : Parameter} {e : Event} (h : e ∈ x.events) : e.InSignature := by
  rw [events, List.mem_append, List.mem_cons] at h
  rcases h with (rfl | h) | h
  · exact .ofPlain rfl
  · exact .ofPlain (Expr.isPlain_optionalEvents x.size e h)
  · obtain ⟨name, -, rfl⟩ := Option.map_eq_some_iff.1 (Option.mem_toList.1 h)
    exact ⟨_, rfl, fun _ => rfl⟩

end Parameter

namespace Prototype

variable (p : Prototype)

theorem paramNames_eq : p.paramNames = namesAs .parameter p.paramEvents := by
  rw [paramEvents, namesAs_flatMap, paramNames, List.filterMap_eq_flatMap_toList]
  simp only [Parameter.namesAs_parameter]

theorem sizeNames_eq : p.sizeNames = namesAs .use p.paramEvents := by
  rw [paramEvents, namesAs_flatMap, sizeNames]
  simp only [Parameter.namesAs_use]

end Prototype

/-! ## Through a prototype -/

namespace Resolver

variable {rename : Nat → String} {stage : Stage} {before : List Origin} {place next : Place}
  {r : Resolver} {es es' fs fs' : List Event} {name : String}

theorem Respells.split (h : Respells rename stage r (es ++ fs) (es' ++ fs'))
    (hlength : es'.length = es.length) :
    Respells rename stage r es es' ∧ Respells rename stage (es.foldl (step stage) r) fs fs' := by
  induction es generalizing r es' with
  | nil =>
    obtain rfl := List.length_eq_zero_iff.1 hlength
    exact ⟨.nil, h⟩
  | cons e es ih =>
    obtain ⟨e', es', rfl⟩ := List.exists_cons_of_length_eq_add_one hlength
    cases h with
    | other he h =>
      obtain ⟨hes, hfs⟩ := ih h (Nat.succ.inj hlength)
      exact ⟨.other he hes, hfs⟩
    | site hrole h =>
      obtain ⟨hes, hfs⟩ := ih h (Nat.succ.inj hlength)
      exact ⟨.site hrole hes, hfs⟩

/-- Where no parameters are declared (`atParameters`), a name that declares no variable, and a
parameter too, leaves the `scopes` as they are. -/
theorem scopes_meet {s : Site} (hs : s.role.declares = true → s.role = .parameter)
    (hat : r.atParameters = false) : (r.meet stage s).scopes = r.scopes := by
  obtain ⟨role, name⟩ := s
  cases role with
  | declared placement type d => cases hs rfl
  | parameter => rw [meet_parameter_of_not hat, scopes_addSite]
  | use =>
    cases hname : r.resolve name with
    | some id => rw [meet_use hname, scopes_addSite]
    | none =>
      rw [meet_use_of_free hname, scopes_addSite]
      rfl
  | type | field | function _ | callee _ => rfl

theorem resolve_congr {r' : Resolver} (h : r'.scopes = r.scopes) (name : String) :
    r'.resolve name = r.resolve name := by
  rw [resolve, h, ← resolve]

theorem atParameters_meet {s : Site} (hs : s.role.declares = true → s.role = .parameter)
    (hat : r.atParameters = false) : (r.meet stage s).atParameters = false := by
  rw [atParameters, scopes_meet hs hat, ← atParameters, hat]

theorem scopes_foldl (hes : ∀ e ∈ es, e.InSignature) (hat : r.atParameters = false) :
    (es.foldl (step stage) r).scopes = r.scopes := by
  induction es generalizing r with
  | nil => rfl
  | cons e es ih =>
    rw [List.forall_mem_cons] at hes
    obtain ⟨⟨s, rfl, hs⟩, hes⟩ := hes
    rw [List.foldl_cons, step, ih hes (atParameters_meet hs hat), scopes_meet hs hat]

/-- A scope that is open for a prototype declares nothing, so `resolve` sees what it saw before. -/
theorem resolve_enter_prototype (r : Resolver) (name : String) :
    (r.enter .prototype).resolve name = r.resolve name := rfl

/-- What `Respells` makes of a prototype's parameters: they stay, and what their sizes use is given
the name of what it stands for. -/
theorem Respells.names_inSignature (h : Respells rename stage r es es')
    (hes : ∀ e ∈ es, e.InSignature) (hat : r.atParameters = false) :
    namesAs .parameter es' = namesAs .parameter es ∧
      namesAs .use es' =
        (namesAs .use es).map fun name => ((r.resolve name).map rename).getD name := by
  induction h with
  | nil => exact ⟨rfl, rfl⟩
  | other he _ ih =>
    obtain ⟨s, rfl, -⟩ := hes _ List.mem_cons_self
    cases he
  | @site r role role' name es es' hrole _ ih =>
    rw [List.forall_mem_cons] at hes
    obtain ⟨⟨s, hs, hrole'⟩, hes⟩ := hes
    obtain rfl := Event.site.inj hs
    -- The scopes are those at the start all the way.
    have hscopes : (r.meet stage ⟨role, name⟩).scopes = r.scopes := scopes_meet hrole' hat
    obtain ⟨hparameters, huses⟩ := ih hes (atParameters_meet hrole' hat)
    rw [namesAs_site, namesAs_site, namesAs_site, namesAs_site, hparameters, huses]
    simp only [resolve_congr hscopes]
    cases hrole with
    | declared => cases hrole' rfl
    | refl =>
      cases role with
      | declared placement type d => cases hrole' rfl
      | parameter => simp [nameAt, siteId, hat]
      | use => simp [nameAt, siteId]
      | type | field | function _ | callee _ => simp

end Resolver

/-! ## Which globals are known -/

/-- The name of a global where it is declared; `none` at any other site. -/
def Site.global? (s : Site) : Option String :=
  match s.role with
  | .declared .topLevel _ _ => some s.name
  | _ => none

/-- The globals declared among events (`Site.global?`). -/
def Event.globalNames (es : List Event) : List String :=
  (es.filterMap site?).filterMap Site.global?

/-- The globals that a shader declares, in all branches. -/
def Shader.globalNames (shader : Shader) : List String := Event.globalNames shader.events

theorem Event.globalNames_cons (e : Event) (es : List Event) :
    globalNames (e :: es) = globalNames [e] ++ globalNames es := by
  rw [globalNames, globalNames, globalNames, ← List.filterMap_append, ← List.filterMap_append,
    List.singleton_append]

namespace Resolver

variable {stage : Stage} {before : List Origin} {place next : Place} {r : Resolver}
  {es : List Event} {name : String}

/-- The globals of a stage that are known to the resolver are those of these names. -/
def Knows (stage : Stage) (names : List String) (r : Resolver) : Prop :=
  ∀ name, (⟨name, stage, .global⟩ : Origin) ∈ r.origins ↔ name ∈ names

namespace Knows

variable {names : List String} {r' : Resolver}

theorem congr (h : Knows stage names r) (horigins : r'.origins = r.origins) :
    Knows stage names r' := by
  rwa [Knows, horigins]

theorem addSite (h : Knows stage names r) (id : Option Nat) : Knows stage names (r.addSite id) :=
  h.congr (origins_addSite id)

theorem declare_top (h : Knows stage names r) (hsound : Sound stage before .top r)
    (name : String) (linked : Bool) (signature : Option String) :
    Knows stage (names ++ [name]) (r.declare stage name linked signature) := by
  intro other
  rw [List.mem_append, List.mem_singleton, ← h other]
  cases hname : r.declaredHere name with
  | some i =>
    rw [declare_of_declared hname, origins_addSite, origins_redeclareAt]
    refine ⟨.inl, fun hother => hother.elim id fun heq => ?_⟩
    -- What is declared already is a global of this name.
    obtain ⟨scope, hscope, hentry⟩ := mem_of_declaredHere hname
    obtain ⟨extent, horigin, hextent⟩ := hsound.visible scope hscope _ hentry
    have hglobal : extent = .global := hextent.elim id fun h => h.2.trans hsound.extent_of_top
    rw [heq, ← hglobal]
    exact List.mem_of_getElem? horigin
  | none =>
    rw [declare_of_new hname, origins_addSite, origins_bindNew, hsound.extent_of_top,
      List.mem_append, List.mem_singleton]
    simp

theorem declare_body (h : Knows stage names r) {blocks : Nat}
    (hsound : Sound stage before (.body blocks) r) (name : String) (linked : Bool)
    (signature : Option String) : Knows stage names (r.declare stage name linked signature) := by
  cases hname : r.declaredHere name with
  | some id =>
    rw [declare_of_declared hname]
    exact (h.congr (origins_redeclareAt id linked signature)).addSite _
  | none =>
    rw [declare_of_new hname]
    refine addSite (fun other => ?_) _
    have hlocal : (.global : Extent) ≠ r.extent := hsound.extent_of_body.symm
    rw [origins_bindNew, List.mem_append, List.mem_singleton, ← h other, Origin.mk.injEq]
    simp [hlocal]

theorem step (h : Knows stage names r) (hsound : Sound stage before place r) {e : Event}
    (he : e.Leads place next) :
    Knows stage (names ++ Event.globalNames [e]) (r.step stage e) := by
  have hnone : names ++ [] = names := List.append_nil names
  cases he with
  | declaredGlobal type d name => exact h.declare_top hsound name _ _
  | declaredLocal type d name blocks =>
    rw [← hnone] at h
    exact h.declare_body hsound name _ _
  | parameter name =>
    rw [Resolver.step, meet_parameter (by rw [hsound.atParameters]; rfl)]
    rw [← hnone] at h
    exact h.declare_body hsound name _ _
  | prototypeParameter name =>
    rw [Resolver.step, meet_parameter_of_not (by rw [hsound.atParameters]; rfl)]
    rw [← hnone] at h
    exact h.addSite none
  | @plain place s hs =>
    obtain ⟨role, name⟩ := s
    rw [← hnone] at h
    cases role with
    | declared placement type d => cases hs
    | parameter => cases hs
    | use =>
      cases hname : r.resolve name with
      | some id =>
        rw [Resolver.step, meet_use hname]
        exact h.addSite _
      | none =>
        have hfree : Knows stage (names ++ []) (r.addFreeName name) := h.congr rfl
        rw [Resolver.step, meet_use_of_free hname]
        exact hfree.addSite none
    | type | field | function _ | callee _ => exact h
  | directive _ | conditional _ _ | elif _ | enterFunction | enterPrototype | enterBlock _
  | leaveFunction | leavePrototype | leaveBlock _ =>
    rw [← hnone] at h
    exact h

/-- What any events make known: their `globalNames`. By induction on the events. -/
theorem foldl (hnested : Nested place es next) (h : Knows stage names r)
    (hsound : Sound stage before place r) :
    Knows stage (names ++ Event.globalNames es) (es.foldl (Resolver.step stage) r) := by
  induction hnested generalizing r names with
  | nil => rwa [Event.globalNames, List.filterMap_nil, List.filterMap_nil, List.append_nil]
  | cons he _ ih =>
    rw [Event.globalNames_cons, ← List.append_assoc]
    exact ih (h.step hsound he) (hsound.step he)

end Knows

theorem knows_start {bindings : List Binding} (h : ∀ b ∈ bindings, b.stage ≠ stage) :
    Knows stage [] (start bindings) := by
  intro name
  refine iff_of_false (fun hmem => ?_) List.not_mem_nil
  obtain ⟨b, hb, horigin⟩ := List.mem_map.1 hmem
  exact h b hb (congrArg Origin.stage horigin)

theorem Sound.resolve_top (h : Sound stage before .top r) {id : Nat} :
    r.resolve name = some id ↔ r.origins[id]? = some ⟨name, stage, .global⟩ := by
  obtain ⟨root, outer, hscopes, hkinds⟩ := h.exists_scope
  obtain ⟨hkind, houter⟩ := List.cons.inj hkinds
  obtain rfl := List.map_eq_nil_iff.1 houter
  constructor
  · intro hresolve
    obtain ⟨scope, hscope, hentry⟩ := mem_of_resolve hresolve
    obtain ⟨extent, horigin, hextent⟩ := h.visible scope hscope _ hentry
    rcases hextent with rfl | ⟨-, hextent⟩
    · exact horigin
    · rwa [hextent, h.extent_of_top] at horigin
  · intro horigin
    have hlookup := h.globals id name horigin root (by rw [hscopes]; rfl)
    rw [resolve, hscopes, List.findSome?_cons, hlookup]

end Resolver

/-! ## What becomes of a prototype -/

theorem Prototype.inSignature_headEvents (p : Prototype) : ∀ e ∈ p.headEvents, e.InSignature := by
  rw [headEvents, List.forall_mem_append]
  refine ⟨fun e he => .ofPlain (p.returnType.specifier.isPlain_events e he), fun e he => ?_⟩
  obtain rfl := List.mem_singleton.1 he
  exact .ofPlain rfl

theorem Prototype.inSignature_paramEvents (p : Prototype) :
    ∀ e ∈ p.paramEvents, e.InSignature :=
  List.forall_mem_flatMap.2 fun _ _ _ => Parameter.inSignature_of_mem

theorem Item.listEvents_prototype (before after : List Item) (p : Prototype) :
    listEvents (before ++ .prototype p :: after) =
      (listEvents before ++ (p.headEvents ++ [.enter .prototype])) ++
        (p.paramEvents ++ (.leave :: listEvents after)) := by
  rw [listEvents_append, listEvents, events, inScope]
  simp only [List.append_assoc, List.cons_append, List.nil_append]

theorem Item.exists_relabel_prototype (before after : List Item) (p : Prototype)
    (supply : List String) :
    ∃ before' p' after',
      (relabelList (before ++ .prototype p :: after) supply).1 =
        before' ++ .prototype p' :: after' ∧
      before'.length = before.length ∧
      (listEvents before').length = (listEvents before).length ∧
      p'.headEvents.length = p.headEvents.length ∧
      p'.paramEvents.length = p.paramEvents.length := by
  rw [relabelList_append]
  obtain ⟨mid, hhead, hparams⟩ := p.renames_relabel (relabelList before supply).2
  exact ⟨_, _, _, rfl, length_relabelList before supply,
    (renames_relabelList before supply).length_eq, hhead.length_eq, hparams.length_eq⟩

namespace Shader

open Resolver

variable {stage : Stage} {bindings : List Binding} {origins : List Origin} {names : NewNames}
  {shader : Shader} {before after : List Item} {p : Prototype}

theorem run_before_isPrefix (stage : Stage) (bindings : List Binding) {item : Item}
    (hleaves : shader.leaves = before ++ item :: after) :
    (run stage bindings ⟨before⟩).origins <+: (run stage bindings shader).origins := by
  rw [← shader.run_opened, run, run, events, events, opened, hleaves, Item.listEvents_append,
    List.foldl_append]
  exact (grows_foldl stage _ _).origins

/-- A prototype of a shader under `renameVariables`: the parameters keep their names, and the sizes
are renamed as names at the top are. -/
theorem prototype_renameVariables (hstage : ∀ b ∈ bindings, b.stage ≠ stage)
    (hgrows : (run stage bindings shader).origins <+: origins)
    (hleaves : shader.leaves = before ++ .prototype p :: after) :
    ∃ before' p' after',
      (shader.renameVariables (run stage bindings shader).sites names).leaves =
        before' ++ .prototype p' :: after' ∧
      before'.length = before.length ∧ p'.paramNames = p.paramNames ∧
      p'.sizeNames = p.sizeNames.map fun name =>
        (((run stage bindings ⟨before⟩).resolve name).map (names.nameOf origins)).getD name := by
  have hrespells : Respells (names.nameOf origins) stage (start bindings)
      (Item.listEvents shader.leaves) (Item.listEvents
        (shader.renameVariables (run stage bindings shader).sites names).leaves) := by
    rw [← run_opened] at hgrows ⊢
    have h : Respells (names.nameOf origins) stage (start bindings) shader.opened.events
        (shader.opened.renameVariables (run stage bindings shader.opened).sites names).events :=
      respells_run hstage shader.opened hgrows
    rwa [← opened_renameVariables] at h
  obtain ⟨before', p', after', hleaves', hlength, hbefore, hhead, hparams⟩ :=
    Item.exists_relabel_prototype before after p
      (renamedSites names shader.sites (run stage bindings shader).sites)
  rw [← hleaves] at hleaves'
  have hrenamed : (shader.renameVariables (run stage bindings shader).sites names).leaves =
      before' ++ .prototype p' :: after' := by
    rw [← hleaves']
    exact (congrArg Prod.fst (Item.relabelList_listLeaves shader.items _)).symm
  rw [hrenamed, hleaves, Item.listEvents_prototype, Item.listEvents_prototype] at hrespells
  obtain ⟨-, hrest⟩ := hrespells.split (by simp [hbefore, hhead])
  obtain ⟨hinside, -⟩ := hrest.split hparams
  -- The head of the prototype leaves the scopes as they are at the end of what is before it.
  have hsound : Sound stage (bindings.map Binding.origin) .top (run stage bindings ⟨before⟩) :=
    .run hstage _
  have hscopes : (p.headEvents.foldl (step stage) (run stage bindings ⟨before⟩)).scopes =
      (run stage bindings ⟨before⟩).scopes :=
    scopes_foldl p.inSignature_headEvents (by rw [hsound.atParameters]; rfl)
  rw [List.foldl_append, List.foldl_append, List.foldl_cons, List.foldl_nil] at hinside
  obtain ⟨hparamNames, hsizeNames⟩ :=
    hinside.names_inSignature p.inSignature_paramEvents rfl
  refine ⟨before', p', after', hrenamed, hlength, ?_, ?_⟩
  · rw [p'.paramNames_eq, p.paramNames_eq, hparamNames]
  · rw [p'.sizeNames_eq, p.sizeNames_eq, hsizeNames]
    refine List.map_congr_left fun name _ => ?_
    rw [step, resolve_enter_prototype, ← resolve_congr hscopes]
    rfl

end Shader

/-- What is written for a name behind globals of these names: what the `RenamePlan` says of a
declared global, and the name itself otherwise. -/
def RenamePlan.spelled (plan : RenamePlan) (stage : Stage) (declared : List String)
    (old : String) : String :=
  if old ∈ declared then (plan.global stage old).getD old else old

namespace BindingTable

open Resolver

variable {vertex fragment : Shader} {stage : Stage}

theorem nameOf_resolve {before : List Origin} {r : Resolver} {declared : List String}
    (hsound : Sound stage before .top r) (hknows : Knows stage declared r)
    (hgrows : r.origins <+: (ofShaders vertex fragment).origins) (name : String) :
    ((r.resolve name).map ((ofShaders vertex fragment).newNames.nameOf
        (ofShaders vertex fragment).origins)).getD name =
      (RenamePlan.ofTable (ofShaders vertex fragment)).spelled stage declared name := by
  cases hname : r.resolve name with
  | some id =>
    have hid := hsound.resolve_top.1 hname
    have hall := getElem?_of_isPrefix hgrows hid
    obtain ⟨b, hb, horigin⟩ := getElem?_origins hall
    have hbname : b.name = name := congrArg Origin.name horigin
    rw [RenamePlan.spelled, if_pos ((hknows name).1 (List.mem_of_getElem? hid)),
      RenamePlan.global_ofTable hall, Option.map_some, Option.getD_some, nameOf_newNames hb, hbname]
  | none =>
    have hunknown : name ∉ declared := by
      intro hmem
      obtain ⟨id, hid⟩ := List.mem_iff_getElem?.1 ((hknows name).2 hmem)
      rw [hsound.resolve_top.2 hid] at hname
      cases hname
    rw [RenamePlan.spelled, if_neg hunknown, Option.map_none, Option.getD_none]

theorem exists_run {shader : Shader} {result : Program}
    (hresult : (Program.renameVariables ⟨some vertex, some fragment⟩).result = .ok result)
    (hshader : (⟨some vertex, some fragment⟩ : Program).shader? stage = some shader) :
    ∃ bindings, (∀ b ∈ bindings, b.stage ≠ stage) ∧
      (Resolver.run stage bindings shader).origins <+: (ofShaders vertex fragment).origins ∧
      result.shader? stage = some (shader.renameVariables
        (Resolver.run stage bindings shader).sites (ofShaders vertex fragment).newNames) := by
  rw [Program.result_renameVariables] at hresult
  obtain rfl := Except.ok.inj hresult
  cases stage with
  | vertex =>
    obtain rfl := Option.some.inj hshader
    exact ⟨[], by simp, origins_vertex_isPrefix _ _, rfl⟩
  | fragment =>
    obtain rfl := Option.some.inj hshader
    exact ⟨_, fun _ => stage_ne_of_mem_vertex, List.prefix_refl _, rfl⟩

end BindingTable

/-- A prototype that `Captures` nothing does so after renaming exactly where a global before it is
given the name of a parameter. -/
theorem Prototype.captures_iff {p p' : Prototype} {plan : RenamePlan} {stage : Stage}
    {declared : List String} (hparams : p'.paramNames = p.paramNames)
    (hsizes : p'.sizeNames = p.sizeNames.map (plan.spelled stage declared))
    (h : ¬ p.Captures) :
    p'.Captures ↔ ∃ old ∈ p.sizeNames, old ∈ declared ∧
      ∃ new ∈ p.paramNames, plan.global stage old = some new := by
  rw [Captures, hparams, hsizes]
  simp only [List.mem_map, exists_exists_and_eq_and]
  refine exists_congr fun old => and_congr_right fun hold => ?_
  have hkept : old ∉ p.paramNames := fun hparam => h ⟨old, hold, hparam⟩
  rw [RenamePlan.spelled]
  by_cases hdeclared : old ∈ declared
  · rw [if_pos hdeclared]
    cases hnew : plan.global stage old with
    | none => simp [hkept]
    | some new => simp [hdeclared]
  · simp [hdeclared, hkept]

/-- A prototype whose second parameter has the variable `size` as its size and whose first is called
`a`. -/
def Prototype.sizedBy (size : String) : Prototype :=
  ⟨⟨none, none, .named "float"⟩, "f",
    [⟨false, none, none, "int", some "a", none⟩,
      ⟨false, none, none, "float", some "x", some (.identifier size)⟩]⟩

def Shader.emptyMain : Item := .function ⟨⟨none, none, .named "void"⟩, "main", []⟩ []

/-- A shader that declares a constant and then the prototype with that size
(`Prototype.sizedBy`). -/
def Shader.sizedBy (size : String) : Shader := ⟨[
  .declaration ⟨⟨some .const, none, .named "int"⟩, [⟨size, none, some (.int 2)⟩]⟩,
  .prototype (.sizedBy size), emptyMain]⟩

namespace Program

open BindingTable Resolver

/-- `renameVariables` keeps the parameters of a prototype without a body and gives the globals in
their sizes the names of the plan. A prototype that `Captures` nothing does so afterwards exactly
where the plan gives a global that is declared before it, and used in a size, the name of a
parameter: nothing keeps new names away from the parameters. -/
theorem renameVariables_captures_iff (vertex fragment : Shader) :
    ∃ plan result,
      (RenamePlan.ofProgram ⟨some vertex, some fragment⟩).result = .ok plan ∧
      (renameVariables ⟨some vertex, some fragment⟩).result = .ok result ∧
      ∀ stage shader before p after,
        (⟨some vertex, some fragment⟩ : Program).shader? stage = some shader →
        shader.leaves = before ++ .prototype p :: after →
        ∃ shader' before' p' after',
          result.shader? stage = some shader' ∧
          shader'.leaves = before' ++ .prototype p' :: after' ∧
          before'.length = before.length ∧
          p'.paramNames = p.paramNames ∧
          p'.sizeNames =
            p.sizeNames.map (plan.spelled stage (Shader.mk before).globalNames) ∧
          (¬ p.Captures →
            (p'.Captures ↔ ∃ old ∈ p.sizeNames, old ∈ (Shader.mk before).globalNames ∧
              ∃ new ∈ p.paramNames, plan.global stage old = some new)) := by
  have hresult := result_renameVariables vertex fragment
  refine ⟨RenamePlan.ofTable (ofShaders vertex fragment), _, rfl, hresult, ?_⟩
  intro stage shader before p after hshader hleaves
  obtain ⟨bindings, hstage, hgrows, hrenamed⟩ := exists_run hresult hshader
  obtain ⟨before', p', after', hleaves', hlength, hparams, hsizes⟩ :=
    Shader.prototype_renameVariables hstage hgrows hleaves
  have hsound : Sound stage (bindings.map Binding.origin) .top
      (Resolver.run stage bindings ⟨before⟩) := .run hstage _
  have hknows : Knows stage (Shader.mk before).globalNames (Resolver.run stage bindings ⟨before⟩) :=
    (knows_start hstage).foldl (Shader.nested_events ⟨before⟩) (.start hstage)
  have hearlier := (Shader.run_before_isPrefix stage bindings hleaves).trans hgrows
  have hspelled : p'.sizeNames = p.sizeNames.map
      ((RenamePlan.ofTable (ofShaders vertex fragment)).spelled stage
        (Shader.mk before).globalNames) := by
    rw [hsizes]
    exact List.map_congr_left fun name _ =>
      nameOf_resolve hsound hknows hearlier name
  exact ⟨_, before', p', after', hrenamed, hleaves', hlength, hparams, hspelled,
    Prototype.captures_iff hparams hspelled⟩

/-- The size of `x` in `Prototype.sizedBy` reads the global `n`. Under `renameVariables` the global
becomes `a`, which is the name of the first parameter, so the size comes to read that
(`Captures`). -/
theorem renameVariables_captures_size :
    Shader.parse "const int n=2;float f(int a,float x[n]);void main()\x7b\x7d" .vertex =
        .ok (.sizedBy "n") ∧
      Shader.parse "void main()\x7b\x7d" .fragment = .ok ⟨[Shader.emptyMain]⟩ ∧
      (renameVariables ⟨some (.sizedBy "n"), some ⟨[Shader.emptyMain]⟩⟩).result =
        .ok ⟨some (.sizedBy "a"), some ⟨[Shader.emptyMain]⟩⟩ ∧
      ¬ (Prototype.sizedBy "n").Captures ∧ (Prototype.sizedBy "a").Captures :=
  ⟨by decide +kernel, by decide +kernel, by decide +kernel, by decide, by decide⟩

end Program

end ShaderMinifier
