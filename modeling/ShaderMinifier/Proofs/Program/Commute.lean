import ShaderMinifier.Proofs.Program.Minified
import ShaderMinifier.Proofs.Variable.Merge

/-
  Merging declarations commutes with renaming, of variables and of functions. Neither the plan of
  the renames nor the new names of functions depend on whether neighbours are declared together,
  and neither the types of declarations nor their places depend on names of values.
-/

namespace ShaderMinifier

/-! ## New names of functions -/

theorem nameFunctions_congr {taken taken' : List String}
    (h : ∀ name, name ∈ taken' ↔ name ∈ taken) (names : List String) :
    nameFunctions taken' names = nameFunctions taken names := by
  induction names generalizing taken taken' with
  | nil => rfl
  | cons name names ih =>
    rw [nameFunctions, nameFunctions, ShortName.firstFree_congr h]
    refine congrArg _ (ih fun other => ?_)
    rw [List.mem_cons, List.mem_cons, h]

namespace Shader

variable (shader : Shader)

theorem mem_sites_mergeDeclarations {s : Site} :
    s ∈ shader.mergeDeclarations.sites ↔ s ∈ shader.sites := by
  have hdrops := shader.dropsTypes_mergeDeclarations
  have hmem : ∀ e, e ∈ shader.mergeDeclarations.events ↔ e ∈ shader.events :=
    fun e => ⟨fun he => hdrops.sublist.subset he, hdrops.kept e⟩
  simp only [sites, List.mem_filterMap, hmem]

theorem filterMap_sites_mergeDeclarations {β : Type} {f : Site → Option β}
    (hf : ∀ name, f ⟨.type, name⟩ = none) :
    shader.mergeDeclarations.sites.filterMap f = shader.sites.filterMap f := by
  have hvalues : ∀ sites : List Site,
      sites.filterMap f = (sites.filter Site.isOfValue).filterMap f := by
    intro sites
    rw [List.filterMap_filter]
    refine List.filterMap_congr fun s _ => ?_
    split
    · rfl
    · rename_i htype
      have hrole : s.role = .type := by simpa [Site.isOfValue] using htype
      rw [← hf s.name, ← hrole]
  rw [hvalues, values_mergeDeclarations, ← hvalues]

theorem functionNames_mergeDeclarations :
    shader.mergeDeclarations.functionNames = shader.functionNames := by
  rw [functionNames, functionNames, filterMap_sites_mergeDeclarations]
  exact fun _ => rfl

theorem functionWeight_mergeDeclarations (name : String) :
    shader.mergeDeclarations.functionWeight name = shader.functionWeight name := by
  simp only [functionWeight, List.countP_eq_length_filter, ← List.filterMap_eq_filter]
  rw [filterMap_sites_mergeDeclarations]
  exact fun _ => rfl

theorem mem_takenByOthers_mergeDeclarations (name : String) :
    name ∈ shader.mergeDeclarations.takenByOthers ↔ name ∈ shader.takenByOthers := by
  simp only [mem_takenByOthers, otherNames, functionNames_mergeDeclarations, List.mem_filterMap,
    mem_sites_mergeDeclarations, directiveWords_congr shader.skeleton_mergeDeclarations]

theorem newFunctionNames_mergeDeclarations :
    shader.mergeDeclarations.newFunctionNames = shader.newFunctionNames := by
  have hrenamed : shader.mergeDeclarations.renamedFunctions = shader.renamedFunctions := by
    simp only [renamedFunctions, functionNames_mergeDeclarations,
      functionWeight_mergeDeclarations, directiveWords_congr shader.skeleton_mergeDeclarations]
  rw [newFunctionNames, hrenamed, nameFunctions_congr shader.mem_takenByOthers_mergeDeclarations,
    newFunctionNames]

theorem mergeDeclarations_renameFunctions (names : FunctionNames) :
    (shader.renameFunctions names).mergeDeclarations =
      shader.mergeDeclarations.renameFunctions names :=
  mergeDeclarations_mapNames (fun _ => rfl) shader

end Shader

/-! ## Passes -/

namespace Program

open BindingTable Logged

/-- `mergeDeclarations` can be run before `renameVariables` or `renameFunctions` as well as
afterwards, and it does not change the `RenamePlan`. -/
theorem mergeDeclarations_commutes (vertex fragment : Shader) :
    (∃ result, (mergeDeclarations ⟨some vertex, some fragment⟩ >>= renameVariables).result =
        .ok result ∧
      (renameVariables ⟨some vertex, some fragment⟩ >>= mergeDeclarations).result =
        .ok result) ∧
    (∃ plan, (mergeDeclarations ⟨some vertex, some fragment⟩ >>= RenamePlan.ofProgram).result =
        .ok plan ∧
      (RenamePlan.ofProgram ⟨some vertex, some fragment⟩).result = .ok plan) ∧
    ∃ result, (mergeDeclarations ⟨some vertex, some fragment⟩ >>= renameFunctions).result =
        .ok result ∧
      (renameFunctions ⟨some vertex, some fragment⟩ >>= mergeDeclarations).result =
        .ok result := by
  have hmerged := result_mergeDeclarations vertex fragment
  have hnames := (namesAlike_mergeDeclarations vertex fragment).newNames_eq
  refine ⟨⟨_, ?_, (result_bind_of_ok (result_renameVariables vertex fragment) _).trans
    (result_mergeDeclarations _ _)⟩, ⟨_, ?_, rfl⟩, ⟨_, ?_, (result_bind_of_ok
      (result_renameFunctions vertex fragment) _).trans (result_mergeDeclarations _ _)⟩⟩
  · rw [result_bind_of_ok hmerged, result_renameVariables, hnames,
      (Resolver.reorders_mergeDeclarations .vertex [] vertex).sites,
      (reorders_fragment vertex fragment).sites, Shader.mergeDeclarations_renameVariables,
      Shader.mergeDeclarations_renameVariables]
  · have hplan : RenamePlan.ofTable
        (ofShaders vertex.mergeDeclarations fragment.mergeDeclarations) =
          RenamePlan.ofTable (ofShaders vertex fragment) := by
      rw [RenamePlan.ofTable, hnames, bindings_mergeDeclarations, RenamePlan.ofTable]
    rw [result_bind_of_ok hmerged]
    exact congrArg Except.ok hplan
  · rw [result_bind_of_ok hmerged, result_renameFunctions,
      Shader.newFunctionNames_mergeDeclarations, Shader.newFunctionNames_mergeDeclarations,
      Shader.mergeDeclarations_renameFunctions, Shader.mergeDeclarations_renameFunctions]

end Program

end ShaderMinifier
