import ShaderMinifier.Proofs.Lists
import ShaderMinifier.Proofs.Site.Relabel
import ShaderMinifier.Proofs.Variable.Scoping

/-
  Renaming without capture. New names for the bindings of a stage that keep apart what can be seen
  at one place, and that stay away from the free names, leave every site with its binding: the
  resolver goes through the renamed stage as through the old one, with the new names in its
  scopes. Shadowing needs no care of its own, as a name that is shadowed is never asked for.
-/

namespace ShaderMinifier

/-- Variables of the two extents in one stage can be seen at one place: one is global, or both live
in one function. -/
def Extent.Meets (a b : Extent) : Prop := a = .global ∨ b = .global ∨ a = b

/-- The new names keep apart what can be seen at one place of the stage (`Meets`), and they are free
names only where they were before. -/
structure Separates (rename : Nat → String) (stage : Stage) (origins : List Origin)
    (free : List String) : Prop where
  apart : ∀ i j o p, origins[i]? = some o → origins[j]? = some p → o.stage = stage →
    p.stage = stage → o.extent.Meets p.extent → rename i = rename j → o.name = p.name
  notFree : ∀ i o, origins[i]? = some o → o.stage = stage → rename i ∈ free →
    o.name = rename i

/-- The name of a binding under new names: a binding without a new one keeps that of its
`Origin`. -/
def NewNames.nameOf (names : NewNames) (origins : List Origin) (id : Nat) : String :=
  (names.get id).getD ((origins[id]?.map Origin.name).getD "")

variable {rename : Nat → String}

/-! ## Looking up -/

/-- The scope under the new names: the same bindings, each under what `rename` makes of it. -/
def Scope.renamed (rename : Nat → String) (scope : Scope) : Scope :=
  ⟨scope.kind, scope.names.map fun entry => (rename entry.2, entry.2)⟩

/-- Looking up the new name of what the old name stands for, where no other entry has taken the new
name, finds the same binding. -/
theorem lookup_renamed {entries : List (String × Nat)} {old new : String}
    (hapart : ∀ entry ∈ entries, rename entry.2 = new → entry.1 = old)
    (hnew : ∀ id, entries.lookup old = some id → rename id = new) :
    (entries.map fun entry => (rename entry.2, entry.2)).lookup new = entries.lookup old := by
  induction entries with
  | nil => rfl
  | cons entry entries ih =>
    rw [List.map_cons, List.lookup_cons, List.lookup_cons] at *
    cases hold : old == entry.1 with
    | true =>
      have hrename : rename entry.2 = new := hnew entry.2 (by simp [hold])
      rw [hrename, beq_self_eq_true]
    | false =>
      have hne : (new == rename entry.2) = false := by
        rw [beq_eq_false_iff_ne] at hold ⊢
        exact fun heq => hold (hapart entry (by simp) heq.symm).symm
      rw [hne]
      exact ih (fun e he => hapart e (by simp [he])) fun id hid => hnew id (by simp [hold, hid])

theorem findSome?_renamed {scopes : List Scope} {old new : String}
    (hapart : ∀ scope ∈ scopes, ∀ entry ∈ scope.names, rename entry.2 = new → entry.1 = old)
    (hnew : ∀ id, (scopes.findSome? fun scope => scope.names.lookup old) = some id →
      rename id = new) :
    ((scopes.map (Scope.renamed rename)).findSome? fun scope => scope.names.lookup new) =
      scopes.findSome? fun scope => scope.names.lookup old := by
  induction scopes with
  | nil => rfl
  | cons scope scopes ih =>
    rw [List.findSome?_cons] at hnew
    rw [List.map_cons, List.findSome?_cons, List.findSome?_cons]
    have hhead : (scope.renamed rename).names.lookup new = scope.names.lookup old :=
      lookup_renamed (hapart scope (by simp)) fun id hid => hnew id (by simp [hid])
    rw [hhead]
    cases hlookup : scope.names.lookup old with
    | some id => rfl
    | none =>
      rw [hlookup] at hnew
      exact ih (fun s hs => hapart s (by simp [hs])) hnew

/-! ## States in step -/

/-- The second binding is the first one under a new `name`; its signature may be any. -/
structure Binding.Mirrors (name : String) (b b' : Binding) : Prop where
  name : b'.name = name
  stage : b'.stage = b.stage
  extent : b'.extent = b.extent
  linked : b'.linked = b.linked
  sites : b'.sites = b.sites

/-- The second bindings are the first ones under new names, index by index (`Binding.Mirrors`). -/
structure BindingsMirror (rename : Nat → String) (bs bs' : List Binding) : Prop where
  length : bs'.length = bs.length
  each : ∀ (i : Nat) (b b' : Binding), bs[i]? = some b → bs'[i]? = some b' → b.Mirrors (rename i) b'

namespace BindingsMirror

variable {bs bs' : List Binding}

theorem modify (h : BindingsMirror rename bs bs') {f f' : Binding → Binding}
    (hf : ∀ name b b', b.Mirrors name b' → (f b).Mirrors name (f' b')) (id : Nat) :
    BindingsMirror rename (bs.modify id f) (bs'.modify id f') where
  length := by rw [List.length_modify, List.length_modify, h.length]
  each := by
    intro i b b' hb hb'
    rw [List.getElem?_modify, Option.map_eq_map, Option.map_eq_some_iff] at hb hb'
    obtain ⟨old, hold, rfl⟩ := hb
    obtain ⟨old', hold', rfl⟩ := hb'
    have hmirrors := h.each i old old' hold hold'
    by_cases hi : id = i
    · rw [if_pos hi, if_pos hi]
      exact hf _ _ _ hmirrors
    · rw [if_neg hi, if_neg hi]
      exact hmirrors

theorem concat (h : BindingsMirror rename bs bs') {b b' : Binding}
    (hb : b.Mirrors (rename bs.length) b') : BindingsMirror rename (bs ++ [b]) (bs' ++ [b']) where
  length := by simp [h.length]
  each := by
    intro i c c' hc hc'
    rcases getElem?_concat_cases hc with hc | ⟨rfl, rfl⟩ <;>
      rcases getElem?_concat_cases hc' with hc' | ⟨hlast, rfl⟩
    · exact h.each i c c' hc hc'
    · rw [hlast, h.length, List.getElem?_length] at hc
      cases hc
    · rw [← h.length, List.getElem?_length] at hc'
      cases hc'
    · exact hb

end BindingsMirror

namespace Resolver

/-- The second state of the resolver is the first one under new names, scopes and bindings
included. -/
structure Mirrors (rename : Nat → String) (r r' : Resolver) : Prop where
  scopes : r'.scopes = r.scopes.map (Scope.renamed rename)
  functions : r'.functions = r.functions
  function : r'.function = r.function
  sites : r'.sites = r.sites
  freeNames : r'.freeNames = r.freeNames
  bindings : BindingsMirror rename r.bindings r'.bindings

namespace Mirrors

variable {stage : Stage} {before origins : List Origin} {free : List String} {place : Place}
  {r r' : Resolver} {old new : String}

theorem extent (h : Mirrors rename r r') : r'.extent = r.extent := by
  rw [Resolver.extent, h.function, ← Resolver.extent]

theorem atParameters (h : Mirrors rename r r') : r'.atParameters = r.atParameters := by
  rw [Resolver.atParameters, h.scopes, List.head?_map, Option.any_map]
  rfl

theorem addSite (h : Mirrors rename r r') (id : Option Nat) :
    Mirrors rename (r.addSite id) (r'.addSite id) := by
  refine ⟨h.scopes, h.functions, h.function, ?_, h.freeNames, ?_⟩
  · rw [sites_addSite, sites_addSite, h.sites]
  · cases id with
    | none => exact h.bindings
    | some id =>
      refine h.bindings.modify (fun name b b' hb => ?_) id
      exact ⟨hb.name, hb.stage, hb.extent, hb.linked, congrArg (· + 1) hb.sites⟩

theorem addFreeName (h : Mirrors rename r r') (name : String) :
    Mirrors rename (r.addFreeName name) (r'.addFreeName name) :=
  ⟨h.scopes, h.functions, h.function, h.sites, congrArg (· ++ [name]) h.freeNames, h.bindings⟩

theorem redeclareAt (h : Mirrors rename r r') (id : Nat) (linked : Bool)
    (signature signature' : Option String) :
    Mirrors rename (r.redeclareAt id linked signature) (r'.redeclareAt id linked signature') := by
  refine ⟨h.scopes, h.functions, h.function, h.sites, h.freeNames, ?_⟩
  refine h.bindings.modify (fun name b b' hb => ?_) id
  exact ⟨hb.name, hb.stage, hb.extent, congrArg (· || linked) hb.linked, hb.sites⟩

theorem bindNew (h : Mirrors rename r r') (hnew : new = rename r.bindings.length)
    (stage : Stage) (linked : Bool) (signature signature' : Option String) :
    Mirrors rename (r.bindNew stage old linked signature)
      (r'.bindNew stage new linked signature') := by
  refine ⟨?_, h.functions, h.function, h.sites, h.freeNames, ?_⟩
  · simp only [Resolver.bindNew, bindHere, h.scopes, h.bindings.length]
    cases r.scopes with
    | nil => rfl
    | cons scope outer => simp [Scope.renamed, hnew]
  · exact h.bindings.concat ⟨hnew, rfl, h.extent, rfl, rfl⟩

theorem enter (h : Mirrors rename r r') (kind : ScopeKind) :
    Mirrors rename (r.enter kind) (r'.enter kind) := by
  rw [Resolver.enter, Resolver.enter, h.functions, h.scopes]
  split
  · exact ⟨rfl, rfl, rfl, h.sites, h.freeNames, h.bindings⟩
  · exact ⟨rfl, rfl, h.function, h.sites, h.freeNames, h.bindings⟩

theorem leave (h : Mirrors rename r r') : Mirrors rename r.leave r'.leave := by
  refine ⟨?_, h.functions, ?_, h.sites, h.freeNames, h.bindings⟩
  · simp only [Resolver.leave, h.scopes, List.map_tail]
  · have hat := h.atParameters
    rw [Resolver.atParameters, Resolver.atParameters] at hat
    simp only [Resolver.leave, h.function, hat]

/-- The new names at work: what the old name stands for is what the new one stands for in a state
that `Mirrors`. -/
theorem resolve (h : Mirrors rename r r')
    (hapart : ∀ scope ∈ r.scopes, ∀ entry ∈ scope.names, rename entry.2 = new → entry.1 = old)
    (hnew : ∀ id, r.resolve old = some id → rename id = new) :
    r'.resolve new = r.resolve old := by
  rw [Resolver.resolve, h.scopes]
  exact findSome?_renamed hapart hnew

theorem declaredHere (h : Mirrors rename r r')
    (hapart : ∀ scope ∈ r.scopes, ∀ entry ∈ scope.names, rename entry.2 = new → entry.1 = old)
    (hnew : ∀ id, r.declaredHere old = some id → rename id = new) :
    r'.declaredHere new = r.declaredHere old := by
  rw [Resolver.declaredHere, Resolver.declaredHere, h.scopes]
  rw [Resolver.declaredHere] at hnew
  cases hscopes : r.scopes with
  | nil => rfl
  | cons scope outer =>
    rw [hscopes] at hapart hnew
    exact lookup_renamed (hapart scope (by simp)) hnew

end Mirrors

/-! ## What is seen keeps apart -/

section Apart

variable {stage : Stage} {before origins : List Origin} {free : List String} {place : Place}
  {r r' : Resolver} {name new : String} {id : Nat}

theorem mem_of_resolve (h : r.resolve name = some id) :
    ∃ scope ∈ r.scopes, (name, id) ∈ scope.names := by
  obtain ⟨scope, hscope, hlookup⟩ := List.exists_of_findSome?_eq_some h
  exact ⟨scope, hscope, mem_of_lookup hlookup⟩

theorem mem_of_declaredHere (h : r.declaredHere name = some id) :
    ∃ scope ∈ r.scopes, (name, id) ∈ scope.names := by
  obtain ⟨scope, hscope, hlookup⟩ := Option.bind_eq_some_iff.1 h
  exact ⟨scope, List.mem_of_mem_head? hscope, mem_of_lookup hlookup⟩

/-- Whatever can be seen where a binding is seen or declared has another new name, or its name:
`Separates` in a `Sound` state. -/
theorem Sound.apart (h : Sound stage before place r) (hsep : Separates rename stage origins free)
    (hgrows : r.origins <+: origins) {extent : Extent}
    (hid : origins[id]? = some ⟨name, stage, extent⟩)
    (hextent : extent = .global ∨ extent = r.extent) :
    ∀ scope ∈ r.scopes, ∀ entry ∈ scope.names, rename entry.2 = rename id → entry.1 = name := by
  intro scope hscope entry hentry heq
  obtain ⟨extent', horigin, hseen⟩ := h.visible scope hscope entry hentry
  refine hsep.apart _ _ _ _ (getElem?_of_isPrefix hgrows horigin) hid rfl rfl ?_ heq
  rcases hextent with rfl | rfl
  · exact .inr (.inl rfl)
  · exact hseen.imp_right fun hlocal => .inr hlocal.2

/-- Whatever can be seen has a new name that is not free, unless it is its own: `Separates` in a
`Sound` state. -/
theorem Sound.notFree (h : Sound stage before place r)
    (hsep : Separates rename stage origins free) (hgrows : r.origins <+: origins)
    (hname : name ∈ free) :
    ∀ scope ∈ r.scopes, ∀ entry ∈ scope.names, rename entry.2 = name → entry.1 = name := by
  intro scope hscope entry hentry heq
  obtain ⟨extent, horigin, -⟩ := h.visible scope hscope entry hentry
  rw [← heq] at hname ⊢
  exact hsep.notFree _ _ (getElem?_of_isPrefix hgrows horigin) rfl hname

theorem Sound.origin_declared (h : Sound stage before place r) (linked : Bool)
    (signature : Option String)
    (hgrows : (r.declare stage name linked signature).origins <+: origins) :
    ∃ extent, origins[r.declaredId name]? = some ⟨name, stage, extent⟩ ∧
      (extent = .global ∨ extent = r.extent) := by
  cases hname : r.declaredHere name with
  | some id =>
    obtain ⟨scope, hscope, hentry⟩ := mem_of_declaredHere hname
    obtain ⟨extent, horigin, hseen⟩ := h.visible scope hscope _ hentry
    refine ⟨extent, ?_, hseen.imp_right And.right⟩
    rw [declare_of_declared hname, origins_addSite, origins_redeclareAt] at hgrows
    rw [declaredId, hname]
    exact getElem?_of_isPrefix hgrows horigin
  | none =>
    refine ⟨r.extent, getElem?_of_isPrefix hgrows ?_, .inr rfl⟩
    rw [declaredId, hname, declare_of_new hname, origins_addSite, origins_bindNew]
    rw [Option.getD_none, ← length_origins, List.getElem?_concat_length]

/-- The binding that a variable site stands for (`siteId`) has its name; it is a global, or it lives
where the site stands. -/
theorem Sound.origin_siteId (h : Sound stage before place r) {s : Site}
    (hid : r.siteId s = some id) (hgrows : (r.meet stage s).origins <+: origins) :
    ∃ extent, origins[id]? = some ⟨s.name, stage, extent⟩ ∧
      (extent = .global ∨ extent = r.extent) := by
  obtain ⟨role, name⟩ := s
  cases role with
  | declared placement type d =>
    obtain rfl := Option.some.inj hid
    exact h.origin_declared _ _ hgrows
  | parameter =>
    cases hat : r.atParameters with
    | true =>
      rw [meet_parameter hat] at hgrows
      obtain rfl : r.declaredId name = id := by simpa [siteId, hat] using hid
      exact h.origin_declared _ _ hgrows
    | false => simp [siteId, hat] at hid
  | use =>
    obtain ⟨scope, hscope, hentry⟩ := mem_of_resolve hid
    obtain ⟨extent, horigin, hseen⟩ := h.visible scope hscope _ hentry
    have hbefore := (grows_meet stage r ⟨.use, name⟩).origins.trans hgrows
    exact ⟨extent, getElem?_of_isPrefix hbefore horigin, hseen.imp_right And.right⟩
  | type | field | function _ | callee _ => cases hid

/-- A binding that is `declaredHere` is one of those so far. -/
theorem Sound.lt_of_declaredHere (h : Sound stage before place r)
    (hid : r.declaredHere name = some id) : id < r.bindings.length := by
  obtain ⟨scope, hscope, hentry⟩ := mem_of_declaredHere hid
  obtain ⟨extent, horigin, -⟩ := h.visible scope hscope _ hentry
  rw [← length_origins]
  exact (List.getElem?_eq_some_iff.1 horigin).1

theorem Mirrors.declaredHere_eq (h : Mirrors rename r r') (hsound : Sound stage before place r)
    (hid : r'.declaredId new = r.declaredId name) :
    r'.declaredHere new = r.declaredHere name := by
  have hlt : ∀ {id}, r'.declaredHere new = some id → id < r.bindings.length := by
    intro id hid
    obtain ⟨scope', hscope', hentry'⟩ := mem_of_declaredHere hid
    rw [h.scopes] at hscope'
    obtain ⟨scope, hscope, rfl⟩ := List.mem_map.1 hscope'
    obtain ⟨entry, hentry, heq⟩ := List.mem_map.1 hentry'
    obtain ⟨extent, horigin, -⟩ := hsound.visible scope hscope entry hentry
    obtain ⟨-, rfl⟩ := Prod.mk.inj heq
    rw [← length_origins]
    exact (List.getElem?_eq_some_iff.1 horigin).1
  rw [declaredId, declaredId, h.bindings.length] at hid
  cases hname : r.declaredHere name with
  | some i =>
    have hi := hsound.lt_of_declaredHere hname
    cases hnew : r'.declaredHere new with
    | some j => rw [hname, hnew] at hid; exact congrArg some hid
    | none => rw [hname, hnew] at hid; exact absurd hid (Nat.ne_of_gt hi)
  | none =>
    cases hnew : r'.declaredHere new with
    | some j => rw [hname, hnew] at hid; exact absurd hid (Nat.ne_of_lt (hlt hnew))
    | none => rfl

theorem Mirrors.declare (h : Mirrors rename r r')
    (hhere : r'.declaredHere new = r.declaredHere name)
    (hnew : new = rename (r.declaredId name)) (stage : Stage) (linked : Bool)
    (signature signature' : Option String) :
    Mirrors rename (r.declare stage name linked signature)
      (r'.declare stage new linked signature') := by
  rw [declaredId] at hnew
  cases hname : r.declaredHere name with
  | some id =>
    rw [declare_of_declared hname, declare_of_declared (hhere.trans hname)]
    exact (h.redeclareAt id linked _ _).addSite _
  | none =>
    rw [declare_of_new hname, declare_of_new (hhere.trans hname), h.bindings.length]
    rw [hname] at hnew
    exact (h.bindNew hnew stage linked _ _).addSite _

/-- The name that a site gets: what `rename` makes of its `siteId`, or its own. -/
def nameAt (rename : Nat → String) (r : Resolver) (s : Site) : String :=
  ((r.siteId s).map rename).getD s.name

theorem Mirrors.meet (h : Mirrors rename r r') (hsound : Sound stage before place r)
    {role role' : Role} (hrole : Role.Like role role')
    (hid : r'.siteId ⟨role', r.nameAt rename ⟨role, name⟩⟩ = r.siteId ⟨role, name⟩) :
    Mirrors rename (r.meet stage ⟨role, name⟩)
      (r'.meet stage ⟨role', r.nameAt rename ⟨role, name⟩⟩) := by
  cases hrole with
  | declared hqualifier =>
    simp only [Resolver.meet, hqualifier]
    exact h.declare (h.declaredHere_eq hsound (Option.some.inj hid)) rfl stage _ _ _
  | refl =>
    cases role with
    | declared placement type d =>
      exact h.declare (h.declaredHere_eq hsound (Option.some.inj hid)) rfl stage _ _ _
    | parameter =>
      cases hat : r.atParameters with
      | true =>
        have hat' := h.atParameters.trans hat
        rw [meet_parameter hat, meet_parameter hat']
        rw [siteId, siteId, if_pos hat, if_pos hat'] at hid
        exact h.declare (h.declaredHere_eq hsound (Option.some.inj hid))
          (by simp [nameAt, siteId, hat]) stage _ _ _
      | false =>
        rw [meet_parameter_of_not hat, meet_parameter_of_not (h.atParameters.trans hat)]
        exact h.addSite none
    | use =>
      cases hname : r.resolve name with
      | some id =>
        rw [Resolver.meet_use hname, Resolver.meet_use (hid.trans hname)]
        exact h.addSite _
      | none =>
        have hnew : r.nameAt rename ⟨.use, name⟩ = name := by simp [nameAt, siteId, hname]
        rw [meet_use_of_free hname, meet_use_of_free (hid.trans hname), hnew]
        exact (h.addFreeName name).addSite none
    | type | function _ | callee _ => exact h.addFreeName name
    | field => exact h

/-! ## Names that separate -/

theorem Mirrors.declaredId_of_separates (h : Mirrors rename r r')
    (hsound : Sound stage before place r) (hsep : Separates rename stage origins free)
    {linked : Bool} {signature : Option String}
    (hgrows : (r.declare stage name linked signature).origins <+: origins) :
    r'.declaredId (rename (r.declaredId name)) = r.declaredId name := by
  have hbefore := (Grows.declare r stage name linked signature).origins.trans hgrows
  obtain ⟨extent, horigin, hextent⟩ := hsound.origin_declared linked signature hgrows
  have hhere : r'.declaredHere (rename (r.declaredId name)) = r.declaredHere name := by
    refine h.declaredHere (hsound.apart hsep hbefore horigin hextent) fun id hid => ?_
    rw [declaredId, hid, Option.getD_some]
  rw [declaredId, hhere, h.bindings.length, ← declaredId]

theorem Mirrors.resolve_of_separates (h : Mirrors rename r r')
    (hsound : Sound stage before place r) (hsep : Separates rename stage origins free)
    (hgrows : (r.meet stage ⟨.use, name⟩).origins <+: origins)
    (hfree : ∀ n ∈ (r.meet stage ⟨.use, name⟩).freeNames, n ∈ free) :
    r'.resolve (r.nameAt rename ⟨.use, name⟩) = r.resolve name := by
  have hbefore := (grows_meet stage r ⟨.use, name⟩).origins.trans hgrows
  cases hname : r.resolve name with
  | some id =>
    have hnew : r.nameAt rename ⟨.use, name⟩ = rename id := by simp [nameAt, siteId, hname]
    obtain ⟨scope, hscope, hentry⟩ := mem_of_resolve hname
    obtain ⟨extent, horigin, hseen⟩ := hsound.visible scope hscope _ hentry
    have hapart := hsound.apart hsep hbefore (getElem?_of_isPrefix hbefore horigin)
      (hseen.imp_right And.right)
    rw [hnew, ← hname]
    refine h.resolve hapart fun id' hid' => ?_
    rw [hname] at hid'
    rw [Option.some.inj hid']
  | none =>
    have hnew : r.nameAt rename ⟨.use, name⟩ = name := by simp [nameAt, siteId, hname]
    rw [meet_use_of_free hname] at hfree
    have hapart := hsound.notFree hsep hbefore (hfree name (by simp [Resolver.addFreeName]))
    rw [hnew, ← hname]
    refine h.resolve hapart fun id hid => ?_
    rw [hname] at hid
    cases hid

theorem Mirrors.siteId_of_separates (h : Mirrors rename r r')
    (hsound : Sound stage before place r) (hsep : Separates rename stage origins free)
    {role role' : Role} (hrole : Role.Like role role')
    (hgrows : (r.meet stage ⟨role, name⟩).origins <+: origins)
    (hfree : ∀ n ∈ (r.meet stage ⟨role, name⟩).freeNames, n ∈ free) :
    r'.siteId ⟨role', r.nameAt rename ⟨role, name⟩⟩ = r.siteId ⟨role, name⟩ := by
  cases hrole with
  | declared _ => exact congrArg some (h.declaredId_of_separates hsound hsep hgrows)
  | refl =>
    cases role with
    | declared placement type d =>
      exact congrArg some (h.declaredId_of_separates hsound hsep hgrows)
    | parameter =>
      cases hat : r.atParameters with
      | true =>
        have hnew : r.nameAt rename ⟨.parameter, name⟩ = rename (r.declaredId name) := by
          simp [nameAt, siteId, hat]
        rw [meet_parameter hat] at hgrows
        rw [siteId, siteId, if_pos hat, if_pos (h.atParameters.trans hat), hnew,
          h.declaredId_of_separates hsound hsep hgrows]
      | false =>
        have hat' := h.atParameters.trans hat
        simp [siteId, hat, hat']
    | use => exact h.resolve_of_separates hsound hsep hgrows hfree
    | type | field | function _ | callee _ => rfl

end Apart

/-! ## A whole stage -/

/-- The second events are the first ones with its new name (`nameAt`) at each site that stands for a
binding on the way from this state on. -/
inductive Respells (rename : Nat → String) (stage : Stage) :
    Resolver → List Event → List Event → Prop
  | nil {r : Resolver} : Respells rename stage r [] []
  | other {r : Resolver} {e : Event} {es es' : List Event} (he : e.site? = none)
      (h : Respells rename stage (r.step stage e) es es') :
    Respells rename stage r (e :: es) (e :: es')
  | site {r : Resolver} {role role' : Role} {name : String} {es es' : List Event}
      (hrole : Role.Like role role')
      (h : Respells rename stage (r.meet stage ⟨role, name⟩) es es') :
    Respells rename stage r (.site ⟨role, name⟩ :: es)
      (.site ⟨role', r.nameAt rename ⟨role, name⟩⟩ :: es')

/-- On the two ways to these final states, each site stands for what it stood for before
(`siteId`). -/
def SitesStay (rename : Nat → String) (stage : Stage) (before : List Origin)
    (final final' : Resolver) : Prop :=
  ∀ (place : Place) (r r' : Resolver) (role role' : Role) (name : String),
    Mirrors rename r r' → Sound stage before place r → Role.Like role role' →
    Grows (r.meet stage ⟨role, name⟩) final →
    Grows (r'.meet stage ⟨role', r.nameAt rename ⟨role, name⟩⟩) final' →
    r'.siteId ⟨role', r.nameAt rename ⟨role, name⟩⟩ = r.siteId ⟨role, name⟩

section Run

variable {stage : Stage} {before origins : List Origin} {free : List String}
  {place next : Place} {r r' : Resolver} {es es' : List Event}

theorem Sound.nameAt_nameOf (h : Sound stage before place r) {s : Site} (names : NewNames)
    (hgrows : (r.meet stage s).origins <+: origins) :
    r.nameAt (names.nameOf origins) s = ((r.siteId s).bind names.get).getD s.name := by
  cases hid : r.siteId s with
  | none => simp [nameAt, hid]
  | some id =>
    obtain ⟨extent, horigin, -⟩ := h.origin_siteId hid hgrows
    simp [nameAt, hid, NewNames.nameOf, horigin]

theorem renamedSites_cons (r : Resolver) (names : NewNames) (s : Site) (sites : List Site)
    (ids : List (Option Nat)) :
    renamedSites names (s :: sites)
        ((if s.role.isVariable = true then [r.siteId s] else []) ++ ids) =
      ((r.siteId s).bind names.get).getD s.name :: renamedSites names sites ids := by
  by_cases h : s.role.isVariable = true
  · simp [renamedSites, h]
  · rw [Bool.not_eq_true] at h
    simp [renamedSites, h, siteId_of_not_isVariable h]

theorem respells_of_renames {names : NewNames} {supply rest : List String}
    (hrenames : Renames supply es es' rest) (hnested : Nested place es next)
    (hsound : Sound stage before place r) {ids : List (Option Nat)}
    (hids : (es.foldl (step stage) r).sites = r.sites ++ ids)
    (hsupply : supply = renamedSites names (es.filterMap Event.site?) ids)
    (hgrows : (es.foldl (step stage) r).origins <+: origins) :
    Respells (names.nameOf origins) stage r es es' := by
  induction hrenames generalizing place r ids with
  | nil => exact .nil
  | @other supply rest e es es' he _ ih =>
    obtain ⟨middle, hlead, hnested⟩ := hnested.uncons
    rw [List.foldl_cons, ← sites_step_of_other stage r he] at hids
    rw [List.filterMap_cons_none he] at hsupply
    exact .other he (ih hnested (hsound.step hlead) hids hsupply hgrows)
  | @site supply rest role role' name es es' hrole _ ih =>
    obtain ⟨middle, hlead, hnested⟩ := hnested.uncons
    rw [List.foldl_cons, step] at hids hgrows
    have hlater := grows_foldl stage (r.meet stage ⟨role, name⟩) es
    -- The ids begin with that of this site.
    obtain ⟨ids', hids'⟩ := hlater.sites
    rw [← hids', sites_meet, List.append_assoc] at hids
    obtain rfl := List.append_cancel_left hids
    have hmeet := hsound.nameAt_nameOf names (hlater.origins.trans hgrows)
    have hnames : supply = r.nameAt (names.nameOf origins) ⟨role, name⟩ ::
        renamedSites names (es.filterMap Event.site?) ids' := by
      rw [hsupply, hmeet]
      exact renamedSites_cons r names ⟨role, name⟩ _ ids'
    rw [hnames] at ih ⊢
    exact .site hrole (ih hnested (hsound.step hlead) hids'.symm rfl hgrows)

theorem sitesStay_of_separates {final final' : Resolver}
    (hsep : Separates rename stage origins free) (hgrows : final.origins <+: origins)
    (hfree : ∀ n ∈ final.freeNames, n ∈ free) : SitesStay rename stage before final final' := by
  intro place r r' role role' name h hsound hrole hlater _
  exact h.siteId_of_separates hsound hsep hrole (hlater.origins.trans hgrows)
    fun n hn => hfree n (hlater.freeNames.subset hn)

theorem Mirrors.step_of_other {e : Event} (h : Mirrors rename r r') (he : e.site? = none) :
    Mirrors rename (r.step stage e) (r'.step stage e) := by
  cases e with
  | site s => cases he
  | enter kind => exact h.enter kind
  | leave => exact h.leave
  | directive _ | conditional _ _ | elif _ => exact h

/-- The resolver goes through events that `Respells` as through the old ones: `Mirrors` is kept. By
induction on the events. -/
theorem Mirrors.foldl (h : Mirrors rename r r') (hes : Respells rename stage r es es')
    (hnested : Nested place es next) (hsound : Sound stage before place r)
    (hstay : SitesStay rename stage before (es.foldl (step stage) r)
      (es'.foldl (step stage) r')) :
    Mirrors rename (es.foldl (step stage) r) (es'.foldl (step stage) r') := by
  induction hes generalizing place r' with
  | nil => exact h
  | other he _ ih =>
    obtain ⟨middle, hlead, hnested⟩ := hnested.uncons
    exact ih (h.step_of_other he) hnested (hsound.step hlead) hstay
  | site hrole _ ih =>
    obtain ⟨middle, hlead, hnested⟩ := hnested.uncons
    refine ih (h.meet hsound hrole ?_) hnested (hsound.step hlead) hstay
    exact hstay _ _ _ _ _ _ h hsound hrole (grows_foldl stage _ _) (grows_foldl stage _ _)

end Run

end Resolver

end ShaderMinifier
