import ShaderMinifier.Proofs.Item.Legible
import ShaderMinifier.Proofs.Program.Pass
import ShaderMinifier.Proofs.Variable.Allocation

/-
  Renaming the variables of a program leaves every site with its variable: the table of the
  renamed program has the same bindings under their new names, and the same binding or none at
  each site. That takes declarations whose text tells which variable they declare, as globals
  are grouped by that text; where two globals of one stage are written in the same way, they are
  given one name and become one.
-/

namespace ShaderMinifier

/-- What a binding is, apart from its name and the text of its declaration, which `renameVariables`
may change. -/
def Binding.kind (b : Binding) : Stage × Extent × Bool × Nat :=
  (b.stage, b.extent, b.linked, b.sites)

theorem Binding.Mirrors.kind_eq {name : String} {b b' : Binding} (h : b.Mirrors name b') :
    b'.kind = b.kind := by
  rw [kind, kind, h.stage, h.extent, h.linked, h.sites]

theorem BindingsMirror.map_kind {rename : Nat → String} {bs bs' : List Binding}
    (h : BindingsMirror rename bs bs') : bs'.map Binding.kind = bs.map Binding.kind := by
  apply List.ext_getElem?
  intro i
  rw [List.getElem?_map, List.getElem?_map]
  cases hb : bs[i]? with
  | none =>
    have hb' : bs'[i]? = none := by
      rw [List.getElem?_eq_none_iff] at hb ⊢
      rw [h.length]
      exact hb
    rw [hb']
  | some b =>
    obtain ⟨hi, -⟩ := List.getElem?_eq_some_iff.1 hb
    have hb' := List.getElem?_eq_getElem (h.length ▸ hi)
    rw [hb', Option.map_some, Option.map_some, (h.each i b _ hb hb').kind_eq]

/-! ## A stage -/

namespace Resolver

variable {stage : Stage} {origins : List Origin} {names : NewNames}
  {bindings bindings' : List Binding}

theorem respells_run (hstage : ∀ b ∈ bindings, b.stage ≠ stage) (shader : Shader)
    (hgrows : (run stage bindings shader).origins <+: origins) :
    Respells (names.nameOf origins) stage (start bindings) shader.events
      (shader.renameVariables (run stage bindings shader).sites names).events := by
  obtain ⟨rest, hrenames⟩ := shader.renames_withNames
    (renamedSites names shader.sites (run stage bindings shader).sites)
  exact respells_of_renames hrenames shader.nested_events (.start hstage) rfl rfl hgrows

theorem mirrors_start {rename : Nat → String} (h : BindingsMirror rename bindings bindings') :
    Mirrors rename (start bindings) (start bindings') :=
  ⟨rfl, rfl, rfl, rfl, rfl, h⟩

theorem mirrors_run (hstage : ∀ b ∈ bindings, b.stage ≠ stage)
    (hbindings : BindingsMirror (names.nameOf origins) bindings bindings') (shader : Shader)
    (hgrows : (run stage bindings shader).origins <+: origins)
    (hstay : SitesStay (names.nameOf origins) stage (bindings.map Binding.origin)
      (run stage bindings shader)
      (run stage bindings' (shader.renameVariables (run stage bindings shader).sites names))) :
    Mirrors (names.nameOf origins) (run stage bindings shader)
      (run stage bindings' (shader.renameVariables (run stage bindings shader).sites names)) :=
  (mirrors_start hbindings).foldl (respells_run hstage shader hgrows) shader.nested_events
    (.start hstage) hstay

/-- After the first stage all bindings are of that stage, since `run` started with none. -/
theorem stage_of_mem_run {shader : Shader} {b : Binding}
    (hb : b ∈ (run stage [] shader).bindings) : b.stage = stage := by
  have hnone : ∀ b ∈ ([] : List Binding), b.stage ≠ stage := by simp
  obtain ⟨mine, horigins, hmine⟩ := (Sound.run hnone shader).own
  refine hmine b.origin ?_
  have hmem : b.origin ∈ (run stage [] shader).origins := List.mem_map_of_mem hb
  rwa [horigins] at hmem

end Resolver

/-! ## A program -/

theorem Shader.directiveWords_renameVariables (shader : Shader) (ids : List (Option Nat))
    (names : NewNames) :
    (shader.renameVariables ids names).directiveWords = shader.directiveWords :=
  directiveWords_withNames

namespace BindingTable

open Resolver

variable {vertex fragment : Shader}

theorem stage_ne_of_mem_vertex {b : Binding}
    (hb : b ∈ (Resolver.run .vertex [] vertex).bindings) : b.stage ≠ .fragment := by
  rw [stage_of_mem_run hb]
  exact Stage.noConfusion

theorem origins_vertex_isPrefix (vertex fragment : Shader) :
    (Resolver.run .vertex [] vertex).origins <+: (ofShaders vertex fragment).origins :=
  (grows_foldl .fragment (start _) fragment.events).origins

/-- The tables of two programs tell of the same variables at the same sites, names apart
(`Binding.kind`). -/
structure SameResolution (table table' : BindingTable) : Prop where
  vertex : table'.vertex = table.vertex
  fragment : table'.fragment = table.fragment
  bindings : table'.bindings.map Binding.kind = table.bindings.map Binding.kind

/-- The table of a program with new names, stage by stage, that is `ofShaders` of the renamed
shaders. -/
def ofRenamed (vertex fragment : Shader) (names : NewNames) : BindingTable :=
  ofShaders (vertex.renameVariables (Resolver.run .vertex [] vertex).sites names)
    (fragment.renameVariables
      (Resolver.run .fragment (Resolver.run .vertex [] vertex).bindings fragment).sites names)

/-- The second table is the first one with new names for its bindings (`BindingsMirror`). -/
structure Renamed (names : NewNames) (table table' : BindingTable) : Prop where
  vertex : table'.vertex = table.vertex
  fragment : table'.fragment = table.fragment
  bindings : BindingsMirror (names.nameOf table.origins) table.bindings table'.bindings

theorem Renamed.sameResolution {names : NewNames} {table table' : BindingTable}
    (h : Renamed names table table') : SameResolution table table' :=
  ⟨h.vertex, h.fragment, h.bindings.map_kind⟩

theorem renamed_of_mirrors {names : NewNames} {rename : Nat → String}
    (hvertex : Mirrors rename (Resolver.run .vertex [] vertex) (Resolver.run .vertex []
      (vertex.renameVariables (Resolver.run .vertex [] vertex).sites names)))
    (hfragment : Mirrors (names.nameOf (ofShaders vertex fragment).origins)
      (Resolver.run .fragment (Resolver.run .vertex [] vertex).bindings fragment)
      (Resolver.run .fragment
        (Resolver.run .vertex []
          (vertex.renameVariables (Resolver.run .vertex [] vertex).sites names)).bindings
        (fragment.renameVariables
          (Resolver.run .fragment (Resolver.run .vertex [] vertex).bindings fragment).sites
          names))) :
    Renamed names (ofShaders vertex fragment) (ofRenamed vertex fragment names) := by
  refine ⟨?_, ?_, hfragment.bindings⟩
  · simp only [ofRenamed, ofShaders, stageOf, hvertex.sites, hvertex.freeNames,
      Shader.directiveWords_renameVariables]
  · simp only [ofRenamed, ofShaders, stageOf, hfragment.sites, hfragment.freeNames,
      Shader.directiveWords_renameVariables]

/-- The table of a program with new names that keep its variables apart (`Separates`) is
`Renamed`. -/
theorem renamed_ofShaders {names : NewNames}
    (hsep : ∀ stage, Separates (names.nameOf (ofShaders vertex fragment).origins) stage
      (ofShaders vertex fragment).origins ((ofShaders vertex fragment).freeNames stage)) :
    Renamed names (ofShaders vertex fragment) (ofRenamed vertex fragment names) := by
  have hempty : BindingsMirror (names.nameOf (ofShaders vertex fragment).origins) [] [] :=
    ⟨rfl, by simp⟩
  have hvertex := mirrors_run (by simp) hempty vertex (origins_vertex_isPrefix vertex fragment)
    (sitesStay_of_separates (hsep .vertex) (origins_vertex_isPrefix vertex fragment)
      fun _ hn => hn)
  have hfragment := mirrors_run (fun _ => stage_ne_of_mem_vertex) hvertex.bindings fragment
    (List.prefix_refl _)
    (sitesStay_of_separates (hsep .fragment) (List.prefix_refl _) fun _ hn => hn)
  exact renamed_of_mirrors hvertex hfragment

theorem signed_ofShaders (stage : Stage) {b : Binding} {text : String}
    (hb : b ∈ (ofShaders vertex fragment).bindings) (hstage : b.stage = stage)
    (htext : b.signature = some text) :
    ∃ type d, ⟨.declared .topLevel type d, b.name⟩ ∈
        (match stage with | .vertex => vertex | .fragment => fragment).sites ∧
      (Statement.declaration ⟨type, [d]⟩).emit = text := by
  cases stage with
  | vertex =>
    have hvertex : Signed .vertex vertex.sites (Resolver.run .vertex [] vertex) :=
      .run (by simp) vertex
    exact hvertex.run_other Stage.noConfusion fragment b hb hstage text htext
  | fragment => exact Signed.run (fun _ => stage_ne_of_mem_vertex) fragment b hb hstage text htext

theorem legible_ofShaders (hvertex : vertex.Legible) (hfragment : fragment.Legible) :
    (ofShaders vertex fragment).Legible := by
  intro b hb c hc hstage _ _ text hbtext hctext
  obtain ⟨type, d, hsite, htext⟩ := signed_ofShaders b.stage hb rfl hbtext
  obtain ⟨type', d', hsite', htext'⟩ := signed_ofShaders b.stage hc hstage.symm hctext
  cases hb : b.stage with
  | vertex =>
    rw [hb] at hsite hsite'
    exact hvertex _ _ _ _ _ _ hsite hsite' (htext.trans htext'.symm)
  | fragment =>
    rw [hb] at hsite hsite'
    exact hfragment _ _ _ _ _ _ hsite hsite' (htext.trans htext'.symm)

end BindingTable

/-- A name that is no word makes two declarations of a shader read alike, so it is not `Legible`. -/
def Shader.illegible : Shader := ⟨[
  .declaration ⟨⟨none, none, .named "float"⟩, [⟨"a", none, some (.float ⟨"1."⟩)⟩]⟩,
  .declaration ⟨⟨none, none, .named "float"⟩, [⟨"a=1.", none, none⟩]⟩,
  .function ⟨⟨none, none, .named "void"⟩, "main", []⟩ []]⟩

/-- A shader that declares a variable in the same way as `Shader.illegible`. -/
def Shader.illegibleOther : Shader := ⟨[
  .declaration ⟨⟨none, none, .named "float"⟩, [⟨"a", none, some (.float ⟨"1."⟩)⟩]⟩,
  .function ⟨⟨none, none, .named "void"⟩, "main", []⟩ []]⟩

namespace Program

open Logged BindingTable

variable {vertex fragment : Shader}

theorem result_build (vertex fragment : Shader) :
    (BindingTable.build ⟨some vertex, some fragment⟩).result =
      .ok (ofShaders vertex fragment) := rfl

/-- What `renameVariables` gives on a program with both stages; it cannot fail there. -/
theorem result_renameVariables (vertex fragment : Shader) :
    (renameVariables ⟨some vertex, some fragment⟩).result =
      .ok ⟨some (vertex.renameVariables (Resolver.run .vertex [] vertex).sites
          (ofShaders vertex fragment).newNames),
        some (fragment.renameVariables
          (Resolver.run .fragment (Resolver.run .vertex [] vertex).bindings fragment).sites
          (ofShaders vertex fragment).newNames)⟩ := by
  rw [renameVariables, result_bind_of_ok (result_build vertex fragment), result_tell_bind]
  -- The table has as many sites as the shader it was made from.
  have hsites : ∀ (stage : Stage) (bindings : List Binding) (shader : Shader),
      shader.checkSites (Resolver.run stage bindings shader).sites = .ok () :=
    fun stage bindings shader => if_pos (Resolver.length_sites_run stage bindings shader).symm
  apply result_mapStages
  · rw [result_bind_of_ok rfl, result_bind_of_ok (hsites _ _ _)]
    rfl
  · rw [result_bind_of_ok rfl, result_bind_of_ok (hsites _ _ _)]
    rfl

theorem renamed_newNames (hvertex : vertex.Legible) (hfragment : fragment.Legible) :
    Renamed (ofShaders vertex fragment).newNames (ofShaders vertex fragment)
      (ofRenamed vertex fragment (ofShaders vertex fragment).newNames) :=
  renamed_ofShaders fun stage => (legible_ofShaders hvertex hfragment).separates stage

/-- In a program whose declarations can be told apart (`Legible`), `renameVariables` leaves every
site with its variable (`SameResolution`). -/
theorem renameVariables_sameResolution (hvertex : vertex.Legible)
    (hfragment : fragment.Legible) :
    ∃ result table table',
      (renameVariables ⟨some vertex, some fragment⟩).result = .ok result ∧
      (BindingTable.build ⟨some vertex, some fragment⟩).result = .ok table ∧
      (BindingTable.build result).result = .ok table' ∧ SameResolution table table' :=
  ⟨_, _, _, result_renameVariables vertex fragment, result_build _ _, result_build _ _,
    (renamed_newNames hvertex hfragment).sameResolution⟩

/-- A local that hides a global, and a uniform of both stages, for
`renameVariables_sameResolution`. -/
theorem renameVariables_sameResolution_hidden :
    ∃ vertex fragment,
      Shader.parse "uniform int x;int y;void main()\x7bint y=x;\x7d" .vertex = .ok vertex ∧
      Shader.parse "uniform int x;void main()\x7b\x7d" .fragment = .ok fragment ∧
      vertex.Legible ∧ fragment.Legible ∧
      ∃ result table table',
        (renameVariables ⟨some vertex, some fragment⟩).result = .ok result ∧
        (BindingTable.build ⟨some vertex, some fragment⟩).result = .ok table ∧
        (BindingTable.build result).result = .ok table' ∧ SameResolution table table' := by
  have hvertex : Shader.parse "uniform int x;int y;void main()\x7bint y=x;\x7d" .vertex = .ok ⟨[
      .declaration ⟨⟨some .uniform, none, .named "int"⟩, [⟨"x", none, none⟩]⟩,
      .declaration ⟨⟨none, none, .named "int"⟩, [⟨"y", none, none⟩]⟩,
      .function ⟨⟨none, none, .named "void"⟩, "main", []⟩ [.simple (.declaration
        ⟨⟨none, none, .named "int"⟩, [⟨"y", none, some (.identifier "x")⟩]⟩)]]⟩ := by
    decide +kernel
  have hfragment : Shader.parse "uniform int x;void main()\x7b\x7d" .fragment = .ok ⟨[
      .declaration ⟨⟨some .uniform, none, .named "int"⟩, [⟨"x", none, none⟩]⟩,
      .function ⟨⟨none, none, .named "void"⟩, "main", []⟩ []]⟩ := by decide +kernel
  exact ⟨_, _, hvertex, hfragment, Shader.legible_of_parse hvertex,
    Shader.legible_of_parse hfragment, renameVariables_sameResolution
      (Shader.legible_of_parse hvertex) (Shader.legible_of_parse hfragment)⟩

/-- Globals that read alike in `Shader.illegible` are given one name and become one, so `Legible` is
needed. -/
theorem renameVariables_merges_illegible :
    ∃ result table table',
      (renameVariables ⟨some .illegible, some .illegibleOther⟩).result = .ok result ∧
      (BindingTable.build ⟨some .illegible, some .illegibleOther⟩).result = .ok table ∧
      (BindingTable.build result).result = .ok table' ∧ ¬ SameResolution table table' := by
  refine ⟨_, _, _, result_renameVariables _ _, result_build _ _, result_build _ _, fun h => ?_⟩
  have hlength := congrArg List.length h.bindings
  rw [List.length_map, List.length_map] at hlength
  revert hlength
  decide +kernel

end Program

end ShaderMinifier
