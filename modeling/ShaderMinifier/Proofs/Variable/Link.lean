import ShaderMinifier.Proofs.Lists
import ShaderMinifier.Proofs.Variable.Resolution

/-
  The link boundary. Attributes, varyings and uniforms are joined by name with the other stage or
  with the application, so their new names must agree wherever the old ones did, and must differ
  wherever the old ones did, across the stages too. A linked global is found by its declarations;
  it is linked if any of them is, in whatever branch.
-/

namespace ShaderMinifier

/-! ## Which bindings are declared -/

namespace Resolver

variable {stage : Stage} {before : List Origin} {place next : Place} {r r' : Resolver}
  {name : String} {bs bs' : List Binding}

/-- A site that declares a global stands for a global of its name, which is linked if the
declaration says so (`isLinked`). -/
def Stands (stage : Stage) (bindings : List Binding) (s : Site) (id : Option Nat) : Prop :=
  ∀ type d, s.role = .declared .topLevel type d → ∃ i b, id = some i ∧
    bindings[i]? = some b ∧ b.origin = ⟨s.name, stage, .global⟩ ∧
    (type.qualifier.any TypeQualifier.isLinked = true → b.linked = true)

theorem Stands.mono {s : Site} {id : Option Nat} (h : Stands stage bs s id)
    (horigins : bs.map Binding.origin <+: bs'.map Binding.origin) (hlinks : KeepsLinks bs bs') :
    Stands stage bs' s id := by
  intro type d hrole
  obtain ⟨i, b, rfl, hb, horigin, hlinked⟩ := h type d hrole
  have hmapped : (bs'.map Binding.origin)[i]? = some ⟨s.name, stage, .global⟩ :=
    getElem?_of_isPrefix horigins (by rw [List.getElem?_map, hb, ← horigin]; rfl)
  rw [List.getElem?_map, Option.map_eq_some_iff] at hmapped
  obtain ⟨b', hb', horigin'⟩ := hmapped
  refine ⟨i, b', rfl, hb', horigin', fun hany => ?_⟩
  obtain ⟨c, hc, hclinked⟩ := hlinks i b hb (hlinked hany)
  rw [hb'] at hc
  rwa [Option.some.inj hc]

/-- What `declare` declares as linked is linked, also if it was declared before. -/
theorem linked_declare (h : Sound stage before place r) (signature : Option String) :
    ∃ b, (r.declare stage name true signature).bindings[r.declaredId name]? = some b ∧
      b.linked = true := by
  cases hname : r.declaredHere name with
  | some id =>
    obtain ⟨scope, hscope, hentry⟩ := mem_of_declaredHere hname
    obtain ⟨extent, horigin, -⟩ := h.visible scope hscope _ hentry
    rw [origins, List.getElem?_map, Option.map_eq_some_iff] at horigin
    obtain ⟨b, hb, -⟩ := horigin
    have hredeclared : (r.redeclareAt id true signature).bindings[id]? =
        some (redeclare true signature b) := by
      simp [redeclareAt, hb]
    rw [declare_of_declared hname, declaredId, hname]
    exact (Grows.addSite _ _).links id _ hredeclared (by simp [redeclare])
  | none =>
    have hnew : (r.bindNew stage name true signature).bindings[r.bindings.length]? =
        some ⟨name, stage, r.extent, true, signature, 0⟩ :=
      List.getElem?_concat_length
    rw [declare_of_new hname, declaredId, hname]
    exact (Grows.addSite _ _).links _ _ hnew rfl

theorem stands_declare (h : Sound stage before .top r) (type : QualifiedType) (d : Declarator) :
    Stands stage (r.meet stage ⟨.declared .topLevel type d, name⟩).bindings
      ⟨.declared .topLevel type d, name⟩ (some (r.declaredId name)) := by
  intro type' d' hrole
  cases hrole
  obtain ⟨extent, horigin, hextent⟩ := h.origin_declared
    (type.qualifier.any TypeQualifier.isLinked) (signature .topLevel type d) (List.prefix_refl _)
  have hglobal : extent = .global := hextent.elim id fun heq => heq.trans h.extent_of_top
  rw [hglobal, origins, List.getElem?_map, Option.map_eq_some_iff] at horigin
  obtain ⟨b, hb, horigin⟩ := horigin
  refine ⟨_, b, rfl, hb, horigin, fun hany => ?_⟩
  rw [hany] at hb
  obtain ⟨c, hc, hlinked⟩ := linked_declare h (signature .topLevel type d)
  rw [hb] at hc
  rwa [Option.some.inj hc]

theorem stands_meet {s : Site} (h : Sound stage before place r)
    (hlead : (Event.site s).Leads place next) :
    Stands stage (r.meet stage s).bindings s (r.siteId s) := by
  cases hlead with
  | declaredGlobal type d name => exact stands_declare h type d
  | plain hs =>
    intro type d hrole
    rw [hrole] at hs
    cases hs
  | declaredLocal _ _ _ _ | parameter _ | prototypeParameter _ =>
    intro type d hrole
    cases hrole

/-- What holds of a variable site and of what is noted for it when it is met, and is not lost as
bindings come and change, holds of all variable sites that `step` has met. By induction on the
events. -/
theorem forall₂_foldl {R : List Binding → Site → Option Nat → Prop}
    (hmono : ∀ {bs bs' s id}, bs.map Binding.origin <+: bs'.map Binding.origin →
      KeepsLinks bs bs' → R bs s id → R bs' s id)
    (hmeet : ∀ {place next r s}, Sound stage before place r → (Event.site s).Leads place next →
      R (r.meet stage s).bindings s (r.siteId s))
    {es : List Event} {done : List Site} (hnested : Nested place es next)
    (hsound : Sound stage before place r) (h : List.Forall₂ (R r.bindings) done r.sites) :
    List.Forall₂ (R (es.foldl (step stage) r).bindings)
      (done ++ (es.filterMap Event.site?).filter fun s => s.role.isVariable)
      (es.foldl (step stage) r).sites := by
  induction hnested generalizing r done with
  | nil => simpa using h
  | @cons place next last e es he hnested ih =>
    have hgrows := grows_step stage r e
    have hlater : List.Forall₂ (R (r.step stage e).bindings) done r.sites :=
      h.imp fun s id hs => hmono hgrows.origins hgrows.links hs
    rw [List.foldl_cons]
    cases hsite : e.site? with
    | none =>
      rw [List.filterMap_cons_none hsite]
      exact ih (hsound.step he) (by rwa [sites_step_of_other stage r hsite])
    | some s =>
      obtain rfl : e = .site s := by
        cases e <;> simp_all [Event.site?]
      rw [List.filterMap_cons_some hsite, List.filter_cons]
      have hmet := hmeet hsound he
      by_cases hvariable : s.role.isVariable = true
      · rw [if_pos hvariable, List.append_cons]
        refine ih (hsound.step he) ?_
        rw [step, sites_meet, if_pos hvariable]
        exact List.rel_append hlater (.cons hmet .nil)
      · rw [if_neg hvariable]
        refine ih (hsound.step he) ?_
        rw [step, sites_meet, if_neg hvariable, List.append_nil]
        exact hlater

theorem stands_run {bindings : List Binding} (h : ∀ b ∈ bindings, b.stage ≠ stage)
    (shader : Shader) :
    List.Forall₂ (Stands stage (run stage bindings shader).bindings) shader.variableSites
      (run stage bindings shader).sites :=
  forall₂_foldl (fun horigins hlinks hs => hs.mono horigins hlinks) stands_meet
    shader.nested_events (.start h) .nil

/-- What is noted for a site is a binding of its name, in its `stage`. -/
def Names (stage : Stage) (bindings : List Binding) (s : Site) (id : Option Nat) : Prop :=
  ∀ i, id = some i → ∃ b, bindings[i]? = some b ∧ b.name = s.name ∧ b.stage = stage

theorem names_iff {s : Site} {id : Option Nat} : Names stage bs s id ↔ ∀ i, id = some i →
    ∃ extent, (bs.map Binding.origin)[i]? = some ⟨s.name, stage, extent⟩ := by
  refine forall₂_congr fun i _ => ?_
  simp only [List.getElem?_map, Option.map_eq_some_iff, Binding.origin, Origin.mk.injEq]
  constructor
  · rintro ⟨b, hb, hname, hstage⟩
    exact ⟨b.extent, b, hb, hname, hstage, rfl⟩
  · rintro ⟨extent, b, hb, hname, hstage, -⟩
    exact ⟨b, hb, hname, hstage⟩

theorem Names.mono {s : Site} {id : Option Nat} (h : Names stage bs s id)
    (horigins : bs.map Binding.origin <+: bs'.map Binding.origin) : Names stage bs' s id := by
  rw [names_iff] at h ⊢
  intro i hid
  obtain ⟨extent, horigin⟩ := h i hid
  exact ⟨extent, getElem?_of_isPrefix horigins horigin⟩

theorem names_run {bindings : List Binding} (h : ∀ b ∈ bindings, b.stage ≠ stage)
    (shader : Shader) :
    List.Forall₂ (Names stage (run stage bindings shader).bindings) shader.variableSites
      (run stage bindings shader).sites := by
  refine forall₂_foldl (fun horigins _ hnames => hnames.mono horigins) ?_ shader.nested_events
    (.start h) .nil
  intro place next r s hsound _
  refine names_iff.2 fun i hid => ?_
  obtain ⟨extent, horigin, -⟩ := hsound.origin_siteId hid (List.prefix_refl _)
  exact ⟨extent, horigin⟩

end Resolver

/-! ## New names at sites -/

theorem length_renamedSites (names : NewNames) (sites : List Site) (ids : List (Option Nat)) :
    (renamedSites names sites ids).length = sites.length := by
  fun_induction renamedSites names sites ids with
  | case1 => rfl
  | case2 _ _ _ _ ih => rw [List.length_cons, List.length_cons, ih]
  | case3 _ _ _ _ ih => rw [List.length_cons, List.length_cons, ih]

/-- A variable site gets the new name of what it stands for, and no other site gets a name: the
entries of `renamedSites`. -/
theorem renamedSites_forall₂ {P : Site → Option Nat → Prop} (names : NewNames)
    {sites : List Site} {ids : List (Option Nat)}
    (h : List.Forall₂ P (sites.filter fun s => s.role.isVariable) ids) :
    List.Forall₂ (fun s name => (s.role.isVariable = false ∧ name = s.name) ∨
        ∃ id, P s id ∧ name = (id.bind names.get).getD s.name)
      sites (renamedSites names sites ids) := by
  induction sites generalizing ids with
  | nil => exact .nil
  | cons s sites ih =>
    rw [renamedSites]
    by_cases hvariable : s.role.isVariable = true
    · rw [List.filter_cons, if_pos hvariable] at h
      obtain ⟨id, ids, hid, hids, rfl⟩ := List.forall₂_cons_left_iff.1 h
      rw [if_pos hvariable]
      exact .cons (.inr ⟨id, hid, rfl⟩) (ih hids)
    · rw [List.filter_cons, if_neg hvariable] at h
      rw [if_neg hvariable]
      exact .cons (.inl ⟨by simpa using hvariable, rfl⟩) (ih h)

namespace Shader

theorem aligned_renameVariables (shader : Shader) (ids : List (Option Nat)) (names : NewNames) :
    shader.Aligned (shader.renameVariables ids names) :=
  aligned_withNames (length_renamedSites names shader.sites ids)

theorem name_renameVariables {shader : Shader} {P : Site → Option Nat → Prop}
    {ids : List (Option Nat)} {names : NewNames} (h : List.Forall₂ P shader.variableSites ids)
    {s s' : Site} (hs : (s, s') ∈ shader.sites.zip (shader.renameVariables ids names).sites) :
    (s.role.isVariable = false ∧ s'.name = s.name) ∨
      ∃ id, P s id ∧ s'.name = (id.bind names.get).getD s.name := by
  have hnames := renamedSites_forall₂ names h
  rw [← names_withNames (length_renamedSites names shader.sites ids),
    List.forall₂_map_right_iff] at hnames
  exact (List.forall₂_iff_zip.1 hnames).2 hs

/-- The shader links a global of this name: one of its declarations is an attribute's, a varying's
or a uniform's (`isLinked`). -/
def Links (shader : Shader) (name : String) : Prop :=
  ∃ type d, ⟨.declared .topLevel type d, name⟩ ∈ shader.sites ∧
    type.qualifier.any TypeQualifier.isLinked = true

/-- The shader `Links` a global, and one of its declarations is of the new name afterwards. -/
def LinksAs (before after : Shader) (old new : String) : Prop :=
  before.Links old ∧ ∃ type d s', (⟨.declared .topLevel type d, old⟩, s') ∈
    before.sites.zip after.sites ∧ s'.name = new

end Shader

namespace BindingTable

open Resolver IndexedBinding

variable {table : BindingTable} {vertex fragment : Shader} {i j : Nat} {b c : Binding}

/-! ## New names of linked globals -/

theorem newName?_congr {g : Group} (hb : table.bindings[i]? = some b)
    (hc : table.bindings[j]? = some c) (hgb : HasGroup table.bindings.zipIdx (b, i) g)
    (hgc : HasGroup table.bindings.zipIdx (c, j) g) :
    newName? table.allocation i = newName? table.allocation j := by
  have hentry : ∀ entry ∈ table.allocation,
      entry.1.members.contains i = entry.1.members.contains j := by
    intro entry hentry
    have hserved : entry.1 ∈ table.servedGroups := by
      rw [← map_fst_allocation]
      exact List.mem_map_of_mem hentry
    have hgroup := (mem_servedGroups.1 hserved).1
    rw [Bool.eq_iff_iff, List.contains_iff_mem, List.contains_iff_mem]
    constructor
    · intro hi
      rw [(hasGroup_of_mem hgroup hi hb).unique hgb]
      exact hgc.mem (mem_zipIdx.2 hc)
    · intro hj
      rw [(hasGroup_of_mem hgroup hj hc).unique hgc]
      exact hgb.mem (mem_zipIdx.2 hb)
  rw [newName?, newName?, List.find?_congr hentry]

/-- A new name of a linked global is not the name of one that keeps its own, in either stage, since
its group is `shared`. -/
theorem newName_ne_kept_of_linked {name : String} (hb : table.bindings[i]? = some b)
    (hc : table.bindings[j]? = some c) (hblink : linkName? (b, i) = some b.name)
    (hi : newName? table.allocation i = some name)
    (hj : newName? table.allocation j = none) : name ≠ c.name := by
  rintro rfl
  obtain ⟨g, hentry, hg⟩ := newName?_eq_some hi hb
  obtain rfl := hg.unique (.linked hblink)
  exact not_mem_reservedNames_of_mem_allocation hentry rfl (newName?_eq_none hj hc)

theorem nameOf_linked_iff (hb : table.bindings[i]? = some b) (hc : table.bindings[j]? = some c)
    (hblink : linkName? (b, i) = some b.name) (hclink : linkName? (c, j) = some c.name) :
    table.newNames.nameOf table.origins i = table.newNames.nameOf table.origins j ↔
      b.name = c.name := by
  rw [nameOf_newNames hb, nameOf_newNames hc]
  constructor
  · intro hname
    cases hi : newName? table.allocation i with
    | none =>
      cases hj : newName? table.allocation j with
      | none =>
        rw [hi, hj] at hname
        exact hname
      | some name =>
        rw [hi, hj] at hname
        exact absurd hname.symm (newName_ne_kept_of_linked hc hb hclink hj hi)
    | some name =>
      cases hj : newName? table.allocation j with
      | none =>
        rw [hi, hj] at hname
        exact absurd hname (newName_ne_kept_of_linked hb hc hblink hi hj)
      | some name' =>
        rw [hi, hj] at hname
        obtain ⟨g, hentry, hg⟩ := newName?_eq_some hi hb
        obtain ⟨g', hentry', hg'⟩ := newName?_eq_some hj hc
        obtain rfl := hg.unique (.linked hblink)
        obtain rfl := hg'.unique (.linked hclink)
        -- Both groups are visible in both stages, so with one name they are one group.
        have hsame : together (withKey linkName? b.name table.bindings.zipIdx) =
            together (withKey linkName? c.name table.bindings.zipIdx) :=
          congrArg Prod.fst (table.allocation_apart.eq_of_meets hentry hentry' rfl hname)
        have hmem : i ∈ (together (withKey linkName? c.name table.bindings.zipIdx)).members := by
          rw [← hsame]
          exact hg.mem (mem_zipIdx.2 hb)
        obtain ⟨⟨b', i'⟩, hb', rfl⟩ := List.mem_map.1 hmem
        obtain ⟨hb', hlink⟩ := mem_withKey.1 hb'
        rw [mem_zipIdx, hb] at hb'
        cases hb'
        rw [hblink] at hlink
        exact Option.some.inj hlink
  · intro hname
    rw [newName?_congr hb hc (.linked hblink) (hname ▸ .linked hclink), hname]

/-! ## Linked globals of a program -/

theorem origin_vertex {o : Origin} (h : (ofShaders vertex fragment).origins[i]? = some o)
    (hstage : o.stage = .vertex) : (Resolver.run .vertex [] vertex).origins[i]? = some o := by
  have hsound := Sound.run (fun _ (hb : _ ∈ (Resolver.run .vertex [] vertex).bindings) =>
    stage_ne_of_mem_vertex hb) fragment
  obtain ⟨mine, horigins, hmine⟩ := hsound.own
  have hall : (ofShaders vertex fragment).origins =
      (Resolver.run .vertex [] vertex).origins ++ mine := horigins
  rw [hall, List.getElem?_append] at h
  split at h
  · exact h
  · have hother := hmine o (List.mem_of_getElem? h)
    rw [hstage] at hother
    cases hother

theorem global_unique {stage : Stage} {name : String}
    (hi : (ofShaders vertex fragment).origins[i]? = some ⟨name, stage, .global⟩)
    (hj : (ofShaders vertex fragment).origins[j]? = some ⟨name, stage, .global⟩) : i = j := by
  cases stage with
  | vertex =>
    have hnone : ∀ b ∈ ([] : List Binding), b.stage ≠ .vertex := by simp
    exact (Sound.run hnone vertex).global_unique (origin_vertex hi rfl) (origin_vertex hj rfl)
  | fragment =>
    have hother : ∀ b ∈ (Resolver.run .vertex [] vertex).bindings, b.stage ≠ .fragment :=
      fun _ => stage_ne_of_mem_vertex
    exact (Sound.run hother fragment).global_unique hi hj

theorem exists_linked {stage : Stage} {shader : Shader} {ids : List (Option Nat)}
    {old new : String}
    (hstands : List.Forall₂ (Stands stage (ofShaders vertex fragment).bindings)
      shader.variableSites ids)
    (h : shader.LinksAs
      (shader.renameVariables ids (ofShaders vertex fragment).newNames) old new) :
    ∃ i b, (ofShaders vertex fragment).bindings[i]? = some b ∧
      linkName? (b, i) = some b.name ∧ b.name = old ∧
      (ofShaders vertex fragment).newNames.nameOf (ofShaders vertex fragment).origins i = new := by
  obtain ⟨⟨linkedType, linkedDeclarator, hlinkedSite, hlinked⟩, type, d, s', hsite, rfl⟩ := h
  obtain ⟨id, hid, hname⟩ := (Shader.name_renameVariables hstands hsite).resolve_left
    fun hother => Bool.noConfusion hother.1
  obtain ⟨i, b, rfl, hb, horigin, -⟩ := hid type d rfl
  -- The declaration that links the name is one of the same global.
  obtain ⟨id', hid'⟩ := exists_of_forall₂ hstands (List.mem_filter.2 ⟨hlinkedSite, rfl⟩)
  obtain ⟨j, c, -, hc, horigin', hclinked⟩ := hid' linkedType linkedDeclarator rfl
  have hi : (ofShaders vertex fragment).origins[i]? = some ⟨old, stage, .global⟩ := by
    rw [origins, List.getElem?_map, hb, Option.map_some, horigin]
  have hj : (ofShaders vertex fragment).origins[j]? = some ⟨old, stage, .global⟩ := by
    rw [origins, List.getElem?_map, hc, Option.map_some, horigin']
  obtain rfl := global_unique hi hj
  obtain rfl := Option.some.inj (hb.symm.trans hc)
  have hbname : b.name = old := congrArg Origin.name horigin
  have hextent : b.extent = .global := congrArg Origin.extent horigin
  refine ⟨i, b, hb, ?_, hbname, ?_⟩
  · simp [linkName?, hextent, hclinked hlinked]
  · rw [hname, nameOf_newNames hb, hbname, Option.bind_some, get_newNames hb]

end BindingTable

namespace Program

open BindingTable Resolver

/-- After `renameVariables`, two linked globals have one name exactly if they had one name before,
in one stage or in two (`LinksAs`). -/
theorem renameVariables_links (vertex fragment : Shader) :
    ∃ vertex' fragment', (renameVariables ⟨some vertex, some fragment⟩).result =
        .ok ⟨some vertex', some fragment'⟩ ∧
      vertex.Aligned vertex' ∧ fragment.Aligned fragment' ∧
      ∀ old new old₂ new₂,
        (vertex.LinksAs vertex' old new ∨ fragment.LinksAs fragment' old new) →
        (vertex.LinksAs vertex' old₂ new₂ ∨ fragment.LinksAs fragment' old₂ new₂) →
        (new = new₂ ↔ old = old₂) := by
  have hvertex : List.Forall₂ (Stands .vertex (ofShaders vertex fragment).bindings)
      vertex.variableSites (Resolver.run .vertex [] vertex).sites := by
    have hgrows := grows_foldl .fragment (start (Resolver.run .vertex [] vertex).bindings)
      fragment.events
    have hnone : ∀ b ∈ ([] : List Binding), b.stage ≠ .vertex := by simp
    exact (stands_run hnone vertex).imp fun _ _ h => h.mono hgrows.origins hgrows.links
  have hfragment : List.Forall₂ (Stands .fragment (ofShaders vertex fragment).bindings)
      fragment.variableSites
      (Resolver.run .fragment (Resolver.run .vertex [] vertex).bindings fragment).sites :=
    stands_run (fun _ => stage_ne_of_mem_vertex) fragment
  refine ⟨_, _, result_renameVariables vertex fragment, Shader.aligned_renameVariables _ _ _,
    Shader.aligned_renameVariables _ _ _, ?_⟩
  intro old new old₂ new₂ h h₂
  obtain ⟨i, b, hb, hblink, rfl, rfl⟩ := h.elim (exists_linked hvertex) (exists_linked hfragment)
  obtain ⟨j, c, hc, hclink, rfl, rfl⟩ :=
    h₂.elim (exists_linked hvertex) (exists_linked hfragment)
  exact nameOf_linked_iff hb hc hblink hclink

end Program

end ShaderMinifier
