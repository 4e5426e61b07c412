import ShaderMinifier.Proofs.Item.MergeNames
import ShaderMinifier.Proofs.Item.Skeleton
import ShaderMinifier.Proofs.Variable.Link
import ShaderMinifier.Proofs.Variable.Order

/-
  The variables of a shader whose declarations are merged. The resolver meets the same names of
  values in the same order; it misses only names of types, which it notes as free and meets
  elsewhere. So the table is the same but for the order of the free names, the new names are the
  same, and they are put in place before merging as well as afterwards.
-/

namespace ShaderMinifier

open Event

/-! ## New names in place -/

theorem forall₂_renamedSites_types (names : NewNames) (sites : List Site)
    (ids : List (Option Nat)) :
    List.Forall₂ (fun s name => s.isOfValue = false → name = s.name) sites
      (renamedSites names sites ids) := by
  fun_induction renamedSites names sites ids with
  | case1 => exact .nil
  | case2 s sites ids hvariable ih =>
    refine .cons (fun htype => ?_) ih
    have hrole : s.role = .type := by simpa [Site.isOfValue] using htype
    simp [hrole, Role.isVariable] at hvariable
  | case3 s sites ids _ ih => exact .cons (fun _ => rfl) ih

/-- Only variables get new names, so those of values (`isOfValue`) depend on no type. -/
theorem renamedSites_values {names : NewNames} {sites sites' : List Site}
    {ids : List (Option Nat)}
    (haligned : List.Forall₂ (fun s s' => Role.Like s.role s'.role) sites sites')
    (hnames : sites'.map Site.name = renamedSites names sites ids) :
    (sites'.filter Site.isOfValue).map Site.name =
      renamedSites names (sites.filter Site.isOfValue) ids := by
  induction haligned generalizing ids with
  | nil => rfl
  | @cons s s' sites sites' hs _ ih =>
    rw [List.map_cons, renamedSites] at hnames
    rw [List.filter_cons, List.filter_cons, hs.isOfValue_eq]
    by_cases hvalue : s.isOfValue = true
    · rw [if_pos hvalue, if_pos hvalue, renamedSites, List.map_cons]
      split at hnames
      · rename_i hvariable
        rw [if_pos hvariable, (List.cons.inj hnames).1, ih (List.cons.inj hnames).2]
      · rename_i hvariable
        rw [if_neg hvariable, (List.cons.inj hnames).1, ih (List.cons.inj hnames).2]
    · rw [if_neg hvalue, if_neg hvalue]
      have htype : s.role = .type := by simpa [Site.isOfValue] using hvalue
      rw [if_neg (by simp [htype, Role.isVariable])] at hnames
      exact ih (List.cons.inj hnames).2

namespace Shader

variable (shader : Shader) (ids : List (Option Nat)) (names : NewNames)

theorem dropsTypes_mergeDeclarations : DropsTypes shader.events shader.mergeDeclarations.events :=
  Item.listEvents_mergeList shader.items

theorem values_mergeDeclarations : shader.mergeDeclarations.sites.filter Site.isOfValue =
    shader.sites.filter Site.isOfValue :=
  shader.dropsTypes_mergeDeclarations.sites.2

theorem typesOnly_renameVariables :
    (shader.renameVariables ids names).typesOnly = shader.typesOnly :=
  typesOnly_withNames (forall₂_renamedSites_types names shader.sites ids)

theorem mergeDeclarations_renameVariables :
    (shader.renameVariables ids names).mergeDeclarations =
      shader.mergeDeclarations.renameVariables ids names := by
  have hvalues : ∀ shader : Shader,
      ((shader.renameVariables ids names).sites.filter Site.isOfValue).map Site.name =
        renamedSites names (shader.sites.filter Site.isOfValue) ids :=
    fun shader => renamedSites_values (shader.aligned_renameVariables ids names)
      (names_withNames (length_renamedSites names shader.sites ids))
  refine eq_of_typesOnly_eq ?_ ?_
  · rw [mergeDeclarations_typesOnly, typesOnly_renameVariables, typesOnly_renameVariables,
      mergeDeclarations_typesOnly]
  · rw [values_mergeDeclarations, hvalues, hvalues, values_mergeDeclarations]

end Shader

/-! ## The resolver -/

/-- The names of types among events (`typeName?`). -/
def Event.typeNames (es : List Event) : List String :=
  es.filterMap fun e => e.site?.bind Site.typeName?

theorem Event.type_cases (e : Event) (es : List Event) :
    (∃ name, e = .name .type name ∧ values (e :: es) = values es ∧
        typeNames (e :: es) = name :: typeNames es) ∨
      values (e :: es) = e :: values es ∧ typeNames (e :: es) = typeNames es := by
  cases e with
  | site s =>
    obtain ⟨role, name⟩ := s
    cases role with
    | type => exact .inl ⟨name, rfl, rfl, rfl⟩
    | declared _ _ _ | field | function _ | parameter | use | callee _ => exact .inr ⟨rfl, rfl⟩
  | directive _ | conditional _ _ | elif _ | enter _ | leave => exact .inr ⟨rfl, rfl⟩

theorem Event.DropsTypes.mem_typeNames_iff {es es' : List Event} (h : DropsTypes es es')
    (name : String) : name ∈ typeNames es' ↔ name ∈ typeNames es := by
  have hmem : ∀ e, e ∈ es' ↔ e ∈ es := fun e => ⟨fun he => h.sublist.subset he, h.kept e⟩
  simp only [typeNames, List.mem_filterMap, hmem]

namespace Resolver

variable {stage : Stage} {types : List String} {r r' : Resolver}

/-- The second state is the first one without some names of types among the `freeNames`. -/
structure MissesTypes (types : List String) (r r' : Resolver) : Prop where
  same : r' = { r with freeNames := r'.freeNames }
  free : ∀ name, name ∈ r.freeNames ↔ name ∈ r'.freeNames ∨ name ∈ types

namespace MissesTypes

theorem bindings (h : MissesTypes types r r') : r'.bindings = r.bindings := by rw [h.same]

theorem sites (h : MissesTypes types r r') : r'.sites = r.sites := by rw [h.same]

theorem addSite (h : MissesTypes types r r') (id : Option Nat) :
    MissesTypes types (r.addSite id) (r'.addSite id) where
  same := by rw [h.same]; rfl
  free := h.free

theorem addFreeName (h : MissesTypes types r r') (name : String) :
    MissesTypes types (r.addFreeName name) (r'.addFreeName name) where
  same := by rw [h.same]; rfl
  free := by
    intro other
    simp only [Resolver.addFreeName, List.mem_append, h.free]
    tauto

theorem meet_type (h : MissesTypes types r r') (stage : Stage) (name : String) :
    MissesTypes (types ++ [name]) (r.meet stage ⟨.type, name⟩) r' where
  same := by rw [h.same]; rfl
  free := by
    intro other
    show other ∈ r.freeNames ++ [name] ↔ _
    simp only [List.mem_append, h.free]
    tauto

theorem declare (h : MissesTypes types r r') (name : String) (linked : Bool)
    (signature : Option String) :
    MissesTypes types (r.declare stage name linked signature)
      (r'.declare stage name linked signature) := by
  have hhere : r'.declaredHere name = r.declaredHere name := by rw [h.same]; rfl
  cases hname : r.declaredHere name with
  | some id =>
    rw [declare_of_declared hname, declare_of_declared (hhere.trans hname)]
    have hredeclared : MissesTypes types (r.redeclareAt id linked signature)
        (r'.redeclareAt id linked signature) := ⟨by rw [h.same]; rfl, h.free⟩
    exact hredeclared.addSite _
  | none =>
    rw [declare_of_new hname, declare_of_new (hhere.trans hname)]
    have hnew : MissesTypes types (r.bindNew stage name linked signature)
        (r'.bindNew stage name linked signature) := ⟨by rw [h.same]; rfl, h.free⟩
    rw [h.bindings]
    exact hnew.addSite _

theorem meet (h : MissesTypes types r r') (s : Site) :
    MissesTypes types (r.meet stage s) (r'.meet stage s) := by
  obtain ⟨role, name⟩ := s
  cases role with
  | declared placement type d => exact h.declare name _ _
  | parameter =>
    have hat' : r'.atParameters = r.atParameters := by rw [h.same]; rfl
    cases hat : r.atParameters with
    | true =>
      rw [meet_parameter hat, meet_parameter (hat'.trans hat)]
      exact h.declare name _ _
    | false =>
      rw [meet_parameter_of_not hat, meet_parameter_of_not (hat'.trans hat)]
      exact h.addSite none
  | use =>
    have hresolve : r'.resolve name = r.resolve name := by rw [h.same]; rfl
    cases hname : r.resolve name with
    | some id =>
      rw [meet_use hname, meet_use (hresolve.trans hname)]
      exact h.addSite _
    | none =>
      rw [meet_use_of_free hname, meet_use_of_free (hresolve.trans hname)]
      exact (h.addFreeName name).addSite none
  | type | function _ | callee _ => exact h.addFreeName name
  | field => exact h

theorem step (h : MissesTypes types r r') (e : Event) :
    MissesTypes types (r.step stage e) (r'.step stage e) := by
  cases e with
  | site s => exact h.meet s
  | enter kind =>
    refine ⟨?_, ?_⟩
    · rw [h.same]
      simp only [Resolver.step, enter]
      split <;> rfl
    · simp only [Resolver.step, enter]
      split <;> exact h.free
  | leave => exact ⟨by rw [h.same]; rfl, h.free⟩
  | directive _ | conditional _ _ | elif _ => exact h

/-- Without the names of types, the resolver misses just these (`MissesTypes`). By induction on the
events. -/
theorem foldl (h : MissesTypes types r r') (stage : Stage) (es : List Event) :
    MissesTypes (types ++ typeNames es) (es.foldl (Resolver.step stage) r)
      ((values es).foldl (Resolver.step stage) r') := by
  induction es generalizing types r r' with
  | nil => simpa [typeNames, values] using h
  | cons e es ih =>
    rcases e.type_cases es with ⟨name, rfl, hvalues, htypes⟩ | ⟨hvalues, htypes⟩
    · rw [hvalues, htypes, List.append_cons]
      exact ih (h.meet_type stage name)
    · rw [hvalues, htypes]
      exact ih (h.step e)

end MissesTypes

/-- The second state is the first one but for the order of the `freeNames` and how often they are
noted. -/
structure Reorders (r r' : Resolver) : Prop where
  bindings : r'.bindings = r.bindings
  sites : r'.sites = r.sites
  free : ∀ name, name ∈ r'.freeNames ↔ name ∈ r.freeNames

theorem reorders_mergeDeclarations (stage : Stage) (bindings : List Binding) (shader : Shader) :
    Reorders (run stage bindings shader) (run stage bindings shader.mergeDeclarations) := by
  have hdrops := shader.dropsTypes_mergeDeclarations
  have hstart : MissesTypes [] (start bindings) (start bindings) := ⟨rfl, by simp⟩
  have h := hstart.foldl stage shader.events
  have h' := hstart.foldl stage shader.mergeDeclarations.events
  rw [hdrops.values] at h'
  refine ⟨h'.bindings.symm.trans h.bindings, h'.sites.symm.trans h.sites, fun name => ?_⟩
  rw [run, run, h.free, h'.free, List.nil_append, List.nil_append, hdrops.mem_typeNames_iff]

end Resolver

/-! ## The table -/

namespace BindingTable

open Resolver

variable (vertex fragment : Shader)

theorem reorders_fragment :
    Reorders (Resolver.run .fragment (Resolver.run .vertex [] vertex).bindings fragment)
      (Resolver.run .fragment (Resolver.run .vertex [] vertex.mergeDeclarations).bindings
        fragment.mergeDeclarations) := by
  rw [(reorders_mergeDeclarations .vertex [] vertex).bindings]
  exact reorders_mergeDeclarations .fragment _ fragment

theorem bindings_mergeDeclarations :
    (ofShaders vertex.mergeDeclarations fragment.mergeDeclarations).bindings =
      (ofShaders vertex fragment).bindings :=
  (reorders_fragment vertex fragment).bindings

theorem namesAlike_mergeDeclarations :
    NamesAlike (ofShaders vertex fragment)
      (ofShaders vertex.mergeDeclarations fragment.mergeDeclarations) := by
  have hbindings := bindings_mergeDeclarations vertex fragment
  have hwords : ∀ stage,
      (ofShaders vertex.mergeDeclarations fragment.mergeDeclarations).directiveWords stage =
        (ofShaders vertex fragment).directiveWords stage := by
    intro stage
    cases stage with
    | vertex => exact Shader.directiveWords_congr vertex.skeleton_mergeDeclarations
    | fragment => exact Shader.directiveWords_congr fragment.skeleton_mergeDeclarations
  refine ⟨by rw [hbindings], fun g => ?_, fun g _ => ?_, fun g _ _ i _ b b' hb hb' => ?_,
    fun stage name => by rw [hwords], fun stage name => ?_⟩
  · rw [groups, groups, hbindings]
  · rw [isPinned, isPinned, members, members, hbindings]
    simp only [hwords]
  · rw [hbindings, hb] at hb'
    rw [Option.some.inj hb']
    exact ⟨rfl, rfl⟩
  · cases stage with
    | vertex => exact (reorders_mergeDeclarations .vertex [] vertex).free name
    | fragment => exact (reorders_fragment vertex fragment).free name

end BindingTable

end ShaderMinifier
