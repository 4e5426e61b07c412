import ShaderMinifier.Proofs.Lists
import ShaderMinifier.Proofs.Site.Outer
import ShaderMinifier.Proofs.Variable.Plan
import ShaderMinifier.Proofs.Variable.Repeat

/-
  The names of locals do not matter for the new names of a program. As long as every site stands
  for the same binding, other names for locals change no declaration of a global; so there are
  the same groups, and as every local gets a new name, nothing of the other names is left.
-/

namespace ShaderMinifier

open Event

variable {rename : Nat → String}

namespace Resolver

variable {stage : Stage} {before origins : List Origin} {place next : Place} {r r' : Resolver}
  {es es' : List Event} {name new : String}

theorem sitesStay_of_sites_eq {final final' : Resolver} (h : final'.sites = final.sites) :
    SitesStay rename stage before final final' := by
  intro place r r' role role' name hmirrors _ hrole hlater hlater'
  by_cases hvariable : role.isVariable = true
  · have hvariable' := hrole.isVariable_eq.trans hvariable
    obtain ⟨ids, hids⟩ := hlater.sites
    obtain ⟨ids', hids'⟩ := hlater'.sites
    rw [sites_meet, if_pos hvariable, List.append_assoc] at hids
    rw [sites_meet, if_pos hvariable', List.append_assoc, hmirrors.sites, h, ← hids] at hids'
    exact (List.cons.inj (List.append_cancel_left hids')).1
  · rw [Bool.not_eq_true] at hvariable
    rw [siteId_of_not_isVariable (hrole.isVariable_eq.trans hvariable),
      siteId_of_not_isVariable hvariable]

/-! ## Names outside all scopes -/

/-- Outside all scopes there are no locals, so where globals keep their names the site does
(`nameAt`). -/
theorem Sound.nameAt_of_top (h : Sound stage before .top r)
    (hglobal : ∀ id name, origins[id]? = some ⟨name, stage, .global⟩ → rename id = name) {s : Site}
    (hgrows : (r.meet stage s).origins <+: origins) : r.nameAt rename s = s.name := by
  cases hid : r.siteId s with
  | none => simp [nameAt, hid]
  | some id =>
    obtain ⟨extent, horigin, hextent⟩ := h.origin_siteId hid hgrows
    rw [h.extent_of_top, or_self] at hextent
    rw [hextent] at horigin
    simp [nameAt, hid, hglobal id s.name horigin]

/-- Where globals keep their names, so do the sites outside all scopes: `Respells` leaves
`outerNames` as they are. -/
theorem outerNames_of_respells (hes : Respells rename stage r es es')
    (hnested : Nested place es next) (hsound : Sound stage before place r)
    (hglobal : ∀ id name, origins[id]? = some ⟨name, stage, .global⟩ → rename id = name)
    (hgrows : (es.foldl (step stage) r).origins <+: origins) :
    outerNames place.depth es' = outerNames place.depth es := by
  induction hes generalizing place with
  | nil => rfl
  | other he _ ih =>
    obtain ⟨middle, hlead, hnested⟩ := hnested.uncons
    rw [outerNames, outerNames, depthAfter_of_leads hlead, ih hnested (hsound.step hlead) hgrows]
  | @site r role role' name es es' hrole _ ih =>
    obtain ⟨middle, hlead, hnested⟩ := hnested.uncons
    have hdepth : place.depth = middle.depth := depthAfter_of_leads hlead
    have hrest : outerNames place.depth es' = outerNames place.depth es := by
      rw [hdepth]
      exact ih hnested (hsound.step hlead) hgrows
    rw [outerNames, outerNames]
    refine congrArg₂ _ ?_ hrest
    -- Inside a scope the site does not count.
    cases place with
    | top =>
      have hlater := grows_foldl stage (r.meet stage ⟨role, name⟩) es
      exact congrArg (fun n => [n]) (hsound.nameAt_of_top hglobal (hlater.origins.trans hgrows))
    | prototype | body _ => rfl

/-! ## Texts of declarations -/

/-- The signatures of the bindings so far, which `Mirrors` leaves open. -/
def signatures (r : Resolver) : List (Option String) := r.bindings.map Binding.signature

theorem signatures_addSite (r : Resolver) (id : Option Nat) :
    (r.addSite id).signatures = r.signatures := by
  cases id with
  | none => rfl
  | some id =>
    exact map_modify Binding.signature (f := fun b => { b with sites := b.sites + 1 })
      (fun _ => rfl) _ _

theorem signatures_redeclareAt (r : Resolver) (id : Nat) (linked : Bool)
    (signature : Option String) :
    (r.redeclareAt id linked signature).signatures =
      r.signatures.modify id fun old => if old = signature then old else none :=
  map_modify_comm (g := Binding.signature) (f := redeclare linked signature) (fun _ => rfl) _ _

theorem signatures_bindNew (r : Resolver) (stage : Stage) (name : String) (linked : Bool)
    (signature : Option String) :
    (r.bindNew stage name linked signature).signatures = r.signatures ++ [signature] :=
  List.map_append

theorem signatures_declare (h : r'.signatures = r.signatures)
    (hhere : r'.declaredHere new = r.declaredHere name) (linked : Bool)
    (signature : Option String) :
    (r'.declare stage new linked signature).signatures =
      (r.declare stage name linked signature).signatures := by
  cases hname : r.declaredHere name with
  | some id =>
    rw [declare_of_declared hname, declare_of_declared (hhere.trans hname), signatures_addSite,
      signatures_addSite, signatures_redeclareAt, signatures_redeclareAt, h]
  | none =>
    rw [declare_of_new hname, declare_of_new (hhere.trans hname), signatures_addSite,
      signatures_addSite, signatures_bindNew, signatures_bindNew, h]

/-- The second state is the first one under new names (`Mirrors`), and all declarations have the
same texts. -/
structure Twins (rename : Nat → String) (r r' : Resolver) : Prop extends Mirrors rename r r' where
  signatures : r'.signatures = r.signatures

namespace Twins

theorem step_of_other {e : Event} (h : Twins rename r r') (he : e.site? = none) :
    Twins rename (r.step stage e) (r'.step stage e) := by
  have hkept : ∀ r : Resolver, (r.step stage e).signatures = r.signatures := by
    intro r
    cases e with
    | site s => cases he
    | enter kind =>
      simp only [step, enter]
      split <;> rfl
    | leave | directive _ | conditional _ _ | elif _ => rfl
  exact ⟨h.toMirrors.step_of_other he, by rw [hkept, hkept, h.signatures]⟩

/-- A site that stands for what it stood for before, with the text it had before if it declares a
global, keeps `Twins`. -/
theorem meet (h : Twins rename r r') (hsound : Sound stage before place r) {role role' : Role}
    (hrole : Role.Like role role')
    (hkeeps : KeepsGlobal (.site ⟨role, name⟩) (.site ⟨role', r.nameAt rename ⟨role, name⟩⟩))
    (hid : r'.siteId ⟨role', r.nameAt rename ⟨role, name⟩⟩ = r.siteId ⟨role, name⟩) :
    Twins rename (r.meet stage ⟨role, name⟩)
      (r'.meet stage ⟨role', r.nameAt rename ⟨role, name⟩⟩) := by
  refine ⟨h.toMirrors.meet hsound hrole hid, ?_⟩
  cases hrole with
  | @declared placement type type' d d' hqualifier =>
    -- Inside a function no text is kept.
    have htext : signature placement type' d' = signature placement type d := by
      cases placement with
      | topLevel =>
        have hsame : Role.declared .topLevel type' d' = .declared .topLevel type d :=
          congrArg Site.role (Event.site.inj (hkeeps rfl))
        cases hsame
        rfl
      | inBody => rfl
    simp only [Resolver.meet, hqualifier, htext]
    exact signatures_declare h.signatures (h.declaredHere_eq hsound (Option.some.inj hid)) _ _
  | refl =>
    cases role with
    | declared placement type d =>
      exact signatures_declare h.signatures (h.declaredHere_eq hsound (Option.some.inj hid)) _ _
    | parameter =>
      cases hat : r.atParameters with
      | true =>
        have hat' := h.atParameters.trans hat
        rw [meet_parameter hat, meet_parameter hat']
        rw [siteId, siteId, if_pos hat, if_pos hat'] at hid
        exact signatures_declare h.signatures (h.declaredHere_eq hsound (Option.some.inj hid)) _ _
      | false =>
        rw [meet_parameter_of_not hat, meet_parameter_of_not (h.atParameters.trans hat),
          signatures_addSite, signatures_addSite, h.signatures]
    | use =>
      cases hname : r.resolve name with
      | some id =>
        rw [meet_use hname, meet_use (hid.trans hname), signatures_addSite, signatures_addSite,
          h.signatures]
      | none =>
        rw [meet_use_of_free hname, meet_use_of_free (hid.trans hname), signatures_addSite,
          signatures_addSite]
        exact h.signatures
    | type | function _ | callee _ | field => exact h.signatures

theorem foldl (h : Twins rename r r') (hes : Respells rename stage r es es')
    (hkeeps : List.Forall₂ KeepsGlobal es es') (hnested : Nested place es next)
    (hsound : Sound stage before place r)
    (hstay : SitesStay rename stage before (es.foldl (step stage) r)
      (es'.foldl (step stage) r')) :
    Twins rename (es.foldl (step stage) r) (es'.foldl (step stage) r') := by
  induction hes generalizing place r' with
  | nil => exact h
  | other he _ ih =>
    obtain ⟨middle, hlead, hnested⟩ := hnested.uncons
    obtain ⟨-, hkeeps⟩ := List.forall₂_cons.1 hkeeps
    exact ih (h.step_of_other he) hkeeps hnested (hsound.step hlead) hstay
  | site hrole _ ih =>
    obtain ⟨middle, hlead, hnested⟩ := hnested.uncons
    obtain ⟨hkept, hkeeps⟩ := List.forall₂_cons.1 hkeeps
    refine ih (h.meet hsound hrole hkept ?_) hkeeps hnested (hsound.step hlead) hstay
    exact hstay _ _ _ _ _ _ h.toMirrors hsound hrole (grows_foldl stage _ _)
      (grows_foldl stage _ _)

/-- The resolver goes through a stage with other names for locals as through the stage (`Twins`), if
the same is noted for its sites. -/
theorem run {names : NewNames} {bindings bindings' : List Binding}
    (hstage : ∀ b ∈ bindings, b.stage ≠ stage)
    (h : Twins (names.nameOf origins) (start bindings) (start bindings')) (shader : Shader)
    (hgrows : (run stage bindings shader).origins <+: origins)
    (hglobal : ∀ id name, origins[id]? = some ⟨name, stage, .global⟩ →
      names.nameOf origins id = name)
    (hsites : (Resolver.run stage bindings'
      (shader.renameVariables (Resolver.run stage bindings shader).sites names)).sites =
        (Resolver.run stage bindings shader).sites) :
    Twins (names.nameOf origins) (Resolver.run stage bindings shader)
      (Resolver.run stage bindings'
        (shader.renameVariables (Resolver.run stage bindings shader).sites names)) := by
  have hes : Respells (names.nameOf origins) stage (start bindings) shader.events
      (shader.renameVariables (Resolver.run stage bindings shader).sites names).events :=
    respells_run hstage shader hgrows
  have houter := outerNames_of_respells hes shader.nested_events (.start hstage) hglobal hgrows
  exact h.foldl hes (Shader.keepsGlobal_withNames houter) shader.nested_events (.start hstage)
    (sitesStay_of_sites_eq hsites)

end Twins

end Resolver

/-! ## Other names for locals -/

/-- The second binding is the first one; only a local may have another `name`. -/
structure Binding.LocallyRenamed (b b' : Binding) : Prop where
  kind : b'.kind = b.kind
  signature : b'.signature = b.signature
  name : b.extent = .global → b'.name = b.name

namespace Binding.LocallyRenamed

variable {b b' : Binding}

theorem stage (h : b.LocallyRenamed b') : b'.stage = b.stage := congrArg Prod.fst h.kind

theorem extent (h : b.LocallyRenamed b') : b'.extent = b.extent := congrArg (·.2.1) h.kind

theorem linked (h : b.LocallyRenamed b') : b'.linked = b.linked := congrArg (·.2.2.1) h.kind

theorem sites (h : b.LocallyRenamed b') : b'.sites = b.sites := congrArg (·.2.2.2) h.kind

theorem symm (h : b.LocallyRenamed b') : b'.LocallyRenamed b :=
  ⟨h.kind.symm, h.signature.symm, fun hextent => (h.name (h.extent ▸ hextent)).symm⟩

end Binding.LocallyRenamed

namespace BindingTable

open Resolver IndexedBinding

variable {vertex fragment : Shader} {table table' : BindingTable} {names : NewNames}

/-- Only locals get a new name in `names`. -/
def RenamesLocals (table : BindingTable) (names : NewNames) : Prop :=
  ∀ entry ∈ table.bindings.zipIdx, entry.1.extent = .global → names.get entry.2 = none

/-- The preprocessor can see no local: none is named by one of the `directiveWords`. -/
def LocalsUnseen (table : BindingTable) : Prop :=
  ∀ b ∈ table.bindings, b.extent ≠ .global → b.name ∉ table.directiveWords b.stage

instance (table : BindingTable) (names : NewNames) : Decidable (table.RenamesLocals names) :=
  inferInstanceAs (Decidable (∀ entry ∈ _, _))

instance (table : BindingTable) : Decidable table.LocalsUnseen :=
  inferInstanceAs (Decidable (∀ b ∈ _, _))

/-- The second table is the first one with other names for locals (`Binding.LocallyRenamed`). -/
structure LocallyRenamed (table table' : BindingTable) : Prop where
  stage? : ∀ stage, table'.stage? stage = table.stage? stage
  bindings : List.Forall₂ Binding.LocallyRenamed table.bindings table'.bindings

theorem RenamesLocals.nameOf_eq (h : table.RenamesLocals names) {id : Nat} {b : Binding}
    (hb : table.bindings[id]? = some b) (hextent : b.extent = .global) :
    names.nameOf table.origins id = b.name := by
  have hnone := h (b, id) (mem_zipIdx.2 hb) hextent
  rw [NewNames.nameOf, hnone, origins, List.getElem?_map, hb]
  rfl

theorem RenamesLocals.nameOf_global (h : table.RenamesLocals names) {stage : Stage} (id : Nat)
    (name : String) (hid : table.origins[id]? = some ⟨name, stage, .global⟩) :
    names.nameOf table.origins id = name := by
  obtain ⟨b, hb, horigin⟩ := getElem?_origins hid
  rw [h.nameOf_eq hb (congrArg Origin.extent horigin)]
  exact congrArg Origin.name horigin

theorem Renamed.locallyRenamed (h : Renamed names table table') (hnames : table.RenamesLocals names)
    (hsignatures : table'.bindings.map Binding.signature = table.bindings.map Binding.signature) :
    LocallyRenamed table table' := by
  refine ⟨fun stage => ?_, List.forall₂_iff_get.2 ⟨h.bindings.length.symm, ?_⟩⟩
  · cases stage with
    | vertex => exact h.vertex
    | fragment => exact h.fragment
  · intro i hi hi'
    have hb := List.getElem?_eq_getElem hi
    have hb' := List.getElem?_eq_getElem hi'
    have hmirrors := h.bindings.each i _ _ hb hb'
    refine ⟨hmirrors.kind_eq, ?_, fun hextent => ?_⟩
    · have htext := congrArg (·[i]?) hsignatures
      simpa [hb, hb'] using htext
    · exact hmirrors.name.trans (hnames.nameOf_eq hb hextent)

theorem locallyRenamed_ofRenamed (hnames : (ofShaders vertex fragment).RenamesLocals names)
    (hsites : ∀ stage, ((ofRenamed vertex fragment names).stage? stage).map StageBindings.sites =
      ((ofShaders vertex fragment).stage? stage).map StageBindings.sites) :
    LocallyRenamed (ofShaders vertex fragment) (ofRenamed vertex fragment names) := by
  have hempty : Twins (names.nameOf (ofShaders vertex fragment).origins) (start []) (start []) :=
    ⟨mirrors_start ⟨rfl, by simp⟩, rfl⟩
  have hvertex := hempty.run (by simp) vertex (origins_vertex_isPrefix vertex fragment)
    hnames.nameOf_global (Option.some.inj (hsites .vertex))
  have hstart : Twins (names.nameOf (ofShaders vertex fragment).origins)
      (start (Resolver.run .vertex [] vertex).bindings)
      (start (Resolver.run .vertex []
        (vertex.renameVariables (Resolver.run .vertex [] vertex).sites names)).bindings) :=
    ⟨mirrors_start hvertex.bindings, hvertex.signatures⟩
  have hfragment := hstart.run (fun _ => stage_ne_of_mem_vertex) fragment (List.prefix_refl _)
    hnames.nameOf_global (Option.some.inj (hsites .fragment))
  exact (renamed_of_mirrors hvertex.toMirrors hfragment.toMirrors).locallyRenamed hnames
    hfragment.signatures

end BindingTable

/-! ## The same groups -/

namespace IndexedBinding

/-- The second binding is the first one with its index; only a local may have another name
(`Binding.LocallyRenamed`). -/
structure LocallyRenamed (b b' : IndexedBinding) : Prop where
  index : b'.2 = b.2
  binding : b.1.LocallyRenamed b'.1

namespace LocallyRenamed

variable {b b' : IndexedBinding}

theorem outline (h : LocallyRenamed b b') : outline b' = outline b := by
  rw [IndexedBinding.outline, IndexedBinding.outline, h.index, h.binding.stage, h.binding.sites]

theorem unsharedGroup? (h : LocallyRenamed b b') : unsharedGroup? b' = unsharedGroup? b := by
  rw [IndexedBinding.unsharedGroup?, IndexedBinding.unsharedGroup?, h.binding.extent,
    h.binding.linked, h.binding.signature]
  simp only [alone, h.index, h.binding.stage, h.binding.sites]

theorem linkName? (h : LocallyRenamed b b') : linkName? b' = linkName? b := by
  rw [IndexedBinding.linkName?, IndexedBinding.linkName?, h.binding.extent, h.binding.linked]
  by_cases hglobal : b.1.extent = .global
  · rw [h.binding.name hglobal]
  · simp [hglobal]

theorem ownSignature? (h : LocallyRenamed b b') : ownSignature? b' = ownSignature? b := by
  rw [IndexedBinding.ownSignature?, IndexedBinding.ownSignature?, h.binding.extent,
    h.binding.linked, h.binding.signature]

end LocallyRenamed

theorem signatureGroups_congr {members members' : List IndexedBinding}
    (h : members'.map outline = members.map outline) :
    signatureGroups members' = signatureGroups members := by
  have halone : ∀ ms : List IndexedBinding, (ms.map fun b => alone (.global b.1.stage) b) =
      (ms.map outline).map fun o => ⟨.global o.2.1, [o.1], o.2.2⟩ := by
    intro ms
    rw [List.map_map]
    rfl
  rw [signatureGroups, signatureGroups, ← inBothStages, ← inBothStages, inBothStages_congr h,
    together_congr h, halone, halone, h]

end IndexedBinding

namespace BindingTable

open IndexedBinding

variable {table table' : BindingTable} {names : NewNames}

namespace LocalsUnseen

variable {i : Nat} {b : Binding}

/-- What the preprocessor can see is a global, where `LocalsUnseen`. -/
theorem global (h : table.LocalsUnseen) (hb : table.bindings[i]? = some b)
    (hword : b.name ∈ table.directiveWords b.stage) : b.extent = .global := by
  by_contra hlocal
  exact h b (List.mem_of_getElem? hb) hlocal hword

theorem global_of_isPinned (h : table.LocalsUnseen) {g : Group} (hg : g ∈ table.groups)
    (hpinned : table.isPinned g = true) (hi : i ∈ g.members)
    (hb : table.bindings[i]? = some b) : b.extent = .global := by
  obtain ⟨j, hj, c, hc, hword⟩ := isPinned_iff.1 hpinned
  have hslot := (hasGroup_of_mem hg hj hc).suits
  rw [h.global hc hword] at hslot
  exact hslot.global_of_global (hasGroup_of_mem hg hi hb).suits

theorem get_newNames_ne_none (h : table.LocalsUnseen) (hb : table.bindings[i]? = some b)
    (hlocal : b.extent ≠ .global) : table.newNames.get i ≠ none := by
  obtain ⟨g, hg, hi⟩ := exists_mem_groups hb
  rw [get_newNames hb, Ne, newName?_eq_none_iff hb (hasGroup_of_mem hg hi hb)]
  exact fun hpinned => hlocal (h.global_of_isPinned hg hpinned hi hb)

end LocalsUnseen

namespace LocallyRenamed

theorem symm (h : LocallyRenamed table table') : LocallyRenamed table' table where
  stage? stage := (h.stage? stage).symm
  bindings := h.bindings.flip.imp fun _ _ hb => hb.symm

theorem get (h : LocallyRenamed table table') {i : Nat} {b : Binding}
    (hb : table.bindings[i]? = some b) :
    ∃ b', table'.bindings[i]? = some b' ∧ b.LocallyRenamed b' := by
  obtain ⟨hlength, hget⟩ := List.forall₂_iff_get.1 h.bindings
  obtain ⟨hi, rfl⟩ := List.getElem?_eq_some_iff.1 hb
  exact ⟨_, List.getElem?_eq_getElem (hlength ▸ hi), hget i hi (hlength ▸ hi)⟩

theorem directiveWords (h : LocallyRenamed table table') (stage : Stage) :
    table'.directiveWords stage = table.directiveWords stage := by
  rw [BindingTable.directiveWords, h.stage?, BindingTable.directiveWords]

/-- A group that the preprocessor can see (`isPinned`) is still one in a table that is
`LocallyRenamed`. -/
theorem isPinned (h : LocallyRenamed table table') (hunseen : table.LocalsUnseen) {g : Group}
    (hpinned : table.isPinned g = true) : table'.isPinned g = true := by
  obtain ⟨i, hi, b, hb, hword⟩ := isPinned_iff.1 hpinned
  obtain ⟨b', hb', hrenamed⟩ := h.get hb
  refine isPinned_iff.2 ⟨i, hi, b', hb', ?_⟩
  rwa [h.directiveWords, hrenamed.stage, hrenamed.name (hunseen.global hb hword)]

theorem zipIdx (h : LocallyRenamed table table') :
    List.Forall₂ IndexedBinding.LocallyRenamed table.bindings.zipIdx table'.bindings.zipIdx := by
  refine List.forall₂_iff_get.2 ⟨by simp [h.bindings.length_eq], fun i hi hi' => ?_⟩
  rw [List.length_zipIdx] at hi hi'
  simp only [List.get_eq_getElem, List.getElem_zipIdx, Nat.zero_add]
  exact ⟨rfl, (List.forall₂_iff_get.1 h.bindings).2 i hi hi'⟩

theorem groups_eq (h : LocallyRenamed table table') : table'.groups = table.groups := by
  have hall := h.zipIdx
  have houtline : ∀ {key : IndexedBinding → Option String}
      (_ : ∀ b b', IndexedBinding.LocallyRenamed b b' → key b' = key b) (value : String),
      (withKey key value table'.bindings.zipIdx).map outline =
        (withKey key value table.bindings.zipIdx).map outline := by
    intro key hkey value
    refine map_filter_congr (hall.imp fun b b' hb => ⟨hb.outline, ?_⟩)
    rw [hkey b b' hb]
  rw [groups, groups, keys, keys, keys, keys,
    filterMap_eq_of_forall₂ (hall.imp fun _ _ hb => hb.unsharedGroup?),
    filterMap_eq_of_forall₂ (hall.imp fun _ _ hb => hb.linkName?),
    filterMap_eq_of_forall₂ (hall.imp fun _ _ hb => hb.ownSignature?)]
  simp only [together_congr (houtline (fun _ _ hb => hb.linkName?) _),
    signatureGroups_congr (houtline (fun _ _ hb => hb.ownSignature?) _)]

theorem namesAlike (h : LocallyRenamed table table') (hunseen : table.LocalsUnseen)
    (hunseen' : table'.LocalsUnseen) : NamesAlike table table' where
  length := h.bindings.length_eq.symm
  groups := fun g => by rw [h.groups_eq]
  pinned := by
    intro g _
    rw [Bool.eq_iff_iff]
    exact ⟨h.symm.isPinned hunseen', h.isPinned hunseen⟩
  kept := by
    intro g hg hpinned i hi b b' hb hb'
    obtain ⟨c, hc, hrenamed⟩ := h.get hb
    obtain rfl := Option.some.inj (hb'.symm.trans hc)
    exact ⟨hrenamed.stage, hrenamed.name (hunseen.global_of_isPinned hg hpinned hi hb)⟩
  words := fun stage _ => by rw [h.directiveWords]
  free := fun stage _ => by rw [BindingTable.freeNames, h.stage?, BindingTable.freeNames]

end LocallyRenamed

theorem exists_binding {vertex fragment shader : Shader} {stage : Stage} {bindings : StageBindings}
    (hshader : (⟨some vertex, some fragment⟩ : Program).shader? stage = some shader)
    (hbindings : (ofShaders vertex fragment).stage? stage = some bindings) {i : Nat}
    (hi : some i ∈ bindings.sites) : ∃ b, (ofShaders vertex fragment).bindings[i]? = some b := by
  obtain ⟨s, hs⟩ := exists_of_forall₂ (names_stage hshader hbindings).flip hi
  obtain ⟨b, hb, -⟩ := hs i rfl
  exact ⟨b, hb⟩

theorem renameVariables_of_renamesLocals {vertex fragment shader : Shader}
    {bindings : StageBindings} (hunseen : (ofShaders vertex fragment).LocalsUnseen)
    (hnames : (ofShaders vertex fragment).RenamesLocals names) (stage : Stage)
    (hshader : (⟨some vertex, some fragment⟩ : Program).shader? stage = some shader)
    (hbindings : (ofShaders vertex fragment).stage? stage = some bindings) :
    (shader.renameVariables bindings.sites names).renameVariables bindings.sites
        (ofShaders vertex fragment).newNames =
      shader.renameVariables bindings.sites (ofShaders vertex fragment).newNames := by
  refine shader.renameVariables_of_renameVariables fun i hi hnone => ?_
  obtain ⟨b, hb⟩ := exists_binding hshader hbindings hi
  refine hnames (b, i) (mem_zipIdx.2 hb) ?_
  by_contra hlocal
  exact hunseen.get_newNames_ne_none hb hlocal hnone

end BindingTable

/-! ## A program -/

/-- A shader with a local of a function, `outer`, and a local of a block, `inner`. -/
def Shader.nested (outer inner : String) : Shader := ⟨[
  .declaration ⟨⟨some .uniform, none, .named "float"⟩, [⟨"g", none, none⟩]⟩,
  .function ⟨⟨none, none, .named "void"⟩, "main", []⟩ [
    .simple (.declaration ⟨⟨none, none, .named "float"⟩,
      [⟨outer, none, some (.identifier "g")⟩]⟩),
    .block [.simple (.declaration ⟨⟨none, none, .named "float"⟩,
      [⟨inner, none, some (.identifier outer)⟩]⟩)]]]⟩

namespace Program

open BindingTable Resolver

variable {program other : Program} {table table' : BindingTable} {names : NewNames}

/-- With new names for its bindings, by `Shader.renameVariables`, the program is the other one. -/
def RenamedTo (program : Program) (table : BindingTable) (names : NewNames) (other : Program) :
    Prop :=
  ∀ stage, ∃ shader bindings, program.shader? stage = some shader ∧
    table.stage? stage = some bindings ∧
    other.shader? stage = some (shader.renameVariables bindings.sites names)

theorem build_eq_ok (h : (BindingTable.build program).result = .ok table) :
    ∃ vertex fragment, program = ⟨some vertex, some fragment⟩ ∧
      table = ofShaders vertex fragment := by
  rcases program with ⟨_ | vertex, _ | fragment⟩
  · cases h
  · cases h
  · cases h
  · cases h
    exact ⟨vertex, fragment, rfl, rfl⟩

theorem RenamedTo.eq_renamed {vertex fragment : Shader}
    (h : RenamedTo ⟨some vertex, some fragment⟩ (ofShaders vertex fragment) names other) :
    other = ⟨some (vertex.renameVariables (Resolver.run .vertex [] vertex).sites names),
      some (fragment.renameVariables
        (Resolver.run .fragment (Resolver.run .vertex [] vertex).bindings fragment).sites
        names)⟩ := by
  obtain ⟨_, _, hshader, hbindings, hvertex⟩ := h .vertex
  cases hshader
  cases hbindings
  obtain ⟨_, _, hshader, hbindings, hfragment⟩ := h .fragment
  cases hshader
  cases hbindings
  exact congrArg₂ Program.mk hvertex hfragment

/-- Programs that differ in the names of locals alone (`RenamesLocals`), at sites that stand for the
same, become one program under `renameVariables`. -/
theorem renameVariables_canonical
    (htable : (BindingTable.build program).result = .ok table)
    (htable' : (BindingTable.build other).result = .ok table')
    (hother : program.RenamedTo table names other) (hnames : table.RenamesLocals names)
    (hsites : ∀ stage, (table'.stage? stage).map StageBindings.sites =
      (table.stage? stage).map StageBindings.sites)
    (hunseen : table.LocalsUnseen) (hunseen' : table'.LocalsUnseen) :
    ∃ result, (renameVariables program).result = .ok result ∧
      (renameVariables other).result = .ok result := by
  obtain ⟨vertex, fragment, rfl, rfl⟩ := build_eq_ok htable
  obtain rfl := hother.eq_renamed
  obtain rfl : ofRenamed vertex fragment names = table' := Except.ok.inj htable'
  have hrenamed := locallyRenamed_ofRenamed hnames hsites
  have hsame := (hrenamed.namesAlike hunseen hunseen').newNames_eq
  have hvertexIds := Option.some.inj (hsites .vertex)
  have hfragmentIds := Option.some.inj (hsites .fragment)
  simp only [ofRenamed, stageOf] at hsame hvertexIds hfragmentIds
  have hvertex := renameVariables_of_renamesLocals hunseen hnames .vertex rfl rfl
  have hfragment := renameVariables_of_renamesLocals hunseen hnames .fragment rfl rfl
  refine ⟨_, result_renameVariables vertex fragment, ?_⟩
  rw [result_renameVariables, hsame, hvertexIds, hfragmentIds]
  exact congrArg Except.ok
    (congrArg₂ Program.mk (congrArg some hvertex) (congrArg some hfragment))

/-- The local of a function in the vertex stage is called like the uniform `g` that it is set to:
two programs for `renameVariables_canonical`. -/
theorem renameVariables_canonical_nested :
    ∃ (program other : Program) (table table' : BindingTable) (names : NewNames),
      (BindingTable.build program).result = .ok table ∧
      (BindingTable.build other).result = .ok table' ∧
      program.RenamedTo table names other ∧ table.RenamesLocals names ∧
      (∀ stage, (table'.stage? stage).map StageBindings.sites =
        (table.stage? stage).map StageBindings.sites) ∧
      table.LocalsUnseen ∧ table'.LocalsUnseen ∧ other ≠ program ∧
      ∃ result, (renameVariables program).result = .ok result ∧
        (renameVariables other).result = .ok result := by
  have hother : RenamedTo ⟨some (.nested "x" "y"), some (.nested "x" "y")⟩
      (ofShaders (.nested "x" "y") (.nested "x" "y"))
      [none, some "g", some "x", none, some "a", some "b"]
      ⟨some (.nested "g" "x"), some (.nested "a" "b")⟩ := by
    intro stage
    cases stage with
    | vertex => exact ⟨_, _, rfl, rfl, by decide +kernel⟩
    | fragment => exact ⟨_, _, rfl, rfl, by decide +kernel⟩
  have hnames : (ofShaders (.nested "x" "y") (.nested "x" "y")).RenamesLocals
      [none, some "g", some "x", none, some "a", some "b"] := by decide +kernel
  have hsites : ∀ stage,
      ((ofShaders (.nested "g" "x") (.nested "a" "b")).stage? stage).map StageBindings.sites =
        ((ofShaders (.nested "x" "y") (.nested "x" "y")).stage? stage).map
          StageBindings.sites := by
    intro stage
    cases stage <;> decide +kernel
  have hunseen : (ofShaders (.nested "x" "y") (.nested "x" "y")).LocalsUnseen := by decide +kernel
  have hunseen' : (ofShaders (.nested "g" "x") (.nested "a" "b")).LocalsUnseen := by decide +kernel
  exact ⟨_, _, _, _, _, result_build _ _, result_build _ _, hother, hnames, hsites, hunseen,
    hunseen', by decide +kernel, renameVariables_canonical (result_build _ _) (result_build _ _)
      hother hnames hsites hunseen hunseen'⟩

end Program

end ShaderMinifier
