import ShaderMinifier.Proofs.Function.Rename
import ShaderMinifier.Proofs.Lists

/-
  Renaming the functions of a shader that was renamed before. The renamed shader declares its
  functions in the same order, names each of them as often, and everything else that has a name
  has kept it. So the functions are served in the same order, and the first name left for each
  of them is the one it has. A function may have come to be called `main`; then it keeps that
  name instead of being served, and nobody else is offered it.
-/

namespace ShaderMinifier

/-! ## Names that are handed out again -/

/-- The names that `nameFunctions` handed out are handed out again to those who have them, where
some keep theirs without being served. -/
theorem nameFunctions_again {p : String → Bool} {taken taken' : List String} (names : List String)
    (hsub : ∀ name ∈ taken, name ∈ taken')
    (hsuper : ∀ name ∈ taken', p name = true → name ∈ taken)
    (hkept : ∀ name ∈ (nameFunctions taken names).map Prod.snd, p name = false → name ∈ taken') :
    nameFunctions taken' (((nameFunctions taken names).map Prod.snd).filter p) =
      (((nameFunctions taken names).map Prod.snd).filter p).map fun name => (name, name) := by
  induction names generalizing taken taken' with
  | nil => rfl
  | cons name names ih =>
    simp only [nameFunctions, List.map_cons, List.forall_mem_cons] at hkept ⊢
    have hfree : ShortName.firstFree taken ∉ taken := ShortName.firstFree_not_mem taken
    generalize hnew : ShortName.firstFree taken = new at hkept hfree ⊢
    rw [List.filter_cons]
    split
    · rename_i hp
      have hagain : ShortName.firstFree taken' = new := by
        rw [← hnew]
        refine ShortName.firstFree_of_subset hsub fun hmem => ?_
        rw [hnew] at hmem
        exact hfree (hsuper new hmem hp)
      rw [nameFunctions, hagain, List.map_cons]
      refine congrArg _ (ih ?_ ?_ ?_)
      · exact List.cons_subset_cons new hsub
      · intro other hother hp
        rw [List.mem_cons] at hother ⊢
        exact hother.imp_right fun hmem => hsuper other hmem hp
      · exact fun other hother hp => List.mem_cons_of_mem new (hkept.2 other hother hp)
    · rename_i hp
      rw [Bool.not_eq_true] at hp
      refine ih ?_ ?_ hkept.2
      · exact List.forall_mem_cons.2 ⟨hkept.1 hp, hsub⟩
      · exact fun other hother hp => List.mem_cons_of_mem new (hsuper other hother hp)

namespace Shader

variable {shader : Shader} {name : String} {site : Site}

/-! ## The renamed shader -/

/-- The name that a function of this name has once the functions are renamed, by
`newFunctionNames`. -/
def functionNameAfter (shader : Shader) (name : String) : String :=
  (shader.newFunctionNames.lookup name).getD name

theorem newFunctionName_of_isFunction (h : site.role.isFunction = true) :
    shader.newFunctionName site = shader.functionNameAfter site.name :=
  if_pos h

theorem functionNameAfter_of_not_renamed (h : name ∉ shader.renamedFunctions) :
    shader.functionNameAfter name = name := by
  rw [functionNameAfter, newFunctionNames, lookup_nameFunctions_eq_none.2 h, Option.getD_none]

theorem functionNameAfter_of_isFixed (h : isFixedFunction shader.directiveWords name = true) :
    shader.functionNameAfter name = name := by
  refine functionNameAfter_of_not_renamed fun hmem => ?_
  rw [mem_renamedFunctions, h] at hmem
  cases hmem.2

theorem functionNameAfter_mem (h : name ∈ shader.renamedFunctions) :
    (name, shader.functionNameAfter name) ∈ shader.newFunctionNames := by
  cases hlookup : shader.newFunctionNames.lookup name with
  | none => exact absurd h (lookup_nameFunctions_eq_none.1 hlookup)
  | some new =>
    rw [functionNameAfter, hlookup]
    exact mem_of_lookup_nameFunctions hlookup

/-- The shader with new names for its functions, one run of `renameFunctions`. -/
def withShortFunctions (shader : Shader) : Shader :=
  shader.renameFunctions shader.newFunctionNames

/-- The site `t` of the renamed shader that the site `s` has become, with its `newFunctionName`. -/
structure Becomes (shader : Shader) (s t : Site) : Prop where
  mem : s ∈ shader.sites
  role : Role.Like s.role t.role
  name : t.name = shader.newFunctionName s

theorem sites_withShortFunctions (shader : Shader) :
    List.Forall₂ shader.Becomes shader.sites shader.withShortFunctions.sites := by
  have haligned : shader.Aligned shader.withShortFunctions :=
    aligned_withNames (List.length_map _)
  refine List.forall₂_iff_zip.2 ⟨haligned.length_eq, fun {s t} hst => ⟨?_, ?_, ?_⟩⟩
  · exact (List.of_mem_zip hst).1
  · exact (List.forall₂_iff_zip.1 haligned).2 hst
  · exact name_mapNames hst

theorem functionNameAfter_inj {other : String} (hname : name ∈ shader.functionNames)
    (hother : ∃ s ∈ shader.sites, s.role.isFunction = true ∧ s.name = other)
    (h : shader.functionNameAfter name = shader.functionNameAfter other) : name = other := by
  obtain ⟨arity, hsite⟩ := mem_functionNames.1 hname
  obtain ⟨s, hs, hrole, rfl⟩ := hother
  refine (newFunctionName_inj hsite hs rfl hrole).1 ?_
  rw [newFunctionName_of_isFunction rfl, newFunctionName_of_isFunction hrole, h]

theorem exists_site_of_mem_functionNames (h : name ∈ shader.functionNames) :
    ∃ s ∈ shader.sites, s.role.isFunction = true ∧ s.name = name := by
  obtain ⟨arity, hsite⟩ := mem_functionNames.1 h
  exact ⟨_, hsite, rfl, rfl⟩

theorem functionNames_withShortFunctions (shader : Shader) :
    shader.withShortFunctions.functionNames =
      shader.functionNames.map shader.functionNameAfter := by
  rw [functionNames, functionNames, ← eraseDups_map_of_injOn]
  · rw [List.map_filterMap]
    refine congrArg List.eraseDups (filterMap_eq_of_forall₂ ?_)
    refine shader.sites_withShortFunctions.imp fun s t hst => ?_
    obtain ⟨role, name⟩ := s
    obtain ⟨role', name'⟩ := t
    obtain ⟨-, hrole, rfl⟩ := hst
    cases hrole with
    | declared => rfl
    | refl =>
      cases role with
      | function arity => exact congrArg some (newFunctionName_of_isFunction rfl)
      | declared _ _ _ | type | field | parameter | use | callee _ => rfl
  · intro x hx y hy h
    rw [← List.mem_eraseDups] at hx hy
    exact functionNameAfter_inj hx (exists_site_of_mem_functionNames hy) h

/-- Every function is named as often in `withShortFunctions`, so `functionWeight` stays. -/
theorem functionWeight_withShortFunctions (hname : name ∈ shader.functionNames) :
    shader.withShortFunctions.functionWeight (shader.functionNameAfter name) =
      shader.functionWeight name := by
  refine countP_eq_of_forall₂ (shader.sites_withShortFunctions.imp fun s t hst => ?_)
  rw [hst.role.isFunction_eq]
  cases hrole : s.role.isFunction with
  | false => rfl
  | true =>
    rw [Bool.true_and, Bool.true_and, Bool.eq_iff_iff, beq_iff_eq, beq_iff_eq, hst.name,
      newFunctionName_of_isFunction hrole]
    refine ⟨fun h => ?_, congrArg shader.functionNameAfter⟩
    exact (functionNameAfter_inj hname ⟨s, hst.mem, hrole, rfl⟩ h.symm).symm

/-- What is called is declared exactly if it was, so `functionNames` of the renamed shader tells the
same sites apart. -/
theorem mem_functionNames_withShortFunctions (hsite : site ∈ shader.sites)
    (hrole : site.role.isFunction = true) :
    shader.newFunctionName site ∈ shader.withShortFunctions.functionNames ↔
      site.name ∈ shader.functionNames := by
  rw [functionNames_withShortFunctions, newFunctionName_of_isFunction hrole]
  refine ⟨fun h => ?_, List.mem_map_of_mem⟩
  obtain ⟨name, hname, heq⟩ := List.mem_map.1 h
  rwa [← functionNameAfter_inj hname ⟨site, hsite, hrole, rfl⟩ heq]

theorem otherNames_withShortFunctions (shader : Shader) :
    shader.withShortFunctions.otherNames = shader.otherNames := by
  refine filterMap_eq_of_forall₂ (shader.sites_withShortFunctions.imp fun s t hst => ?_)
  obtain ⟨role, name⟩ := s
  obtain ⟨role', name'⟩ := t
  obtain ⟨hmem, hrole, rfl⟩ := hst
  cases hrole with
  | declared => rfl
  | refl =>
    cases role with
    | declared _ _ _ | type | field | parameter | use | function _ => rfl
    | callee arity =>
      have hdeclared := mem_functionNames_withShortFunctions hmem rfl
      by_cases h : name ∈ shader.functionNames
      · simp [h, hdeclared.2 h]
      · have hkept : shader.newFunctionName ⟨.callee arity, name⟩ = name := by
          rw [newFunctionName_of_isFunction rfl]
          exact functionNameAfter_of_not_renamed fun hmem => h (mem_renamedFunctions.1 hmem).1
        simp [h, hkept ▸ mt hdeclared.1 h, hkept]

theorem directiveWords_withShortFunctions (shader : Shader) :
    shader.withShortFunctions.directiveWords = shader.directiveWords :=
  directiveWords_withNames

/-! ## Who is served again -/

theorem nodup_functionNames (shader : Shader) : shader.functionNames.Nodup :=
  nodup_eraseDups _

theorem nodup_renamedFunctions (shader : Shader) : shader.renamedFunctions.Nodup := by
  rw [renamedFunctions, (Sorting.perm_sort _ _ |>.map Prod.snd).nodup_iff, List.map_map]
  show ((shader.functionNames.filter _).map id).Nodup
  rw [List.map_id]
  exact shader.nodup_functionNames.filter _

theorem map_functionNameAfter_renamedFunctions (shader : Shader) :
    shader.renamedFunctions.map shader.functionNameAfter =
      shader.newFunctionNames.map Prod.snd := by
  have hkeys := keys_nameFunctions shader.takenByOthers shader.renamedFunctions
  have hnodup : (shader.newFunctionNames.map Prod.fst).Nodup := by
    rw [newFunctionNames, hkeys]
    exact shader.nodup_renamedFunctions
  rw [← map_lookup_keys (f := shader.functionNameAfter) hnodup, newFunctionNames, hkeys]
  intro key value h
  rw [functionNameAfter, h, Option.getD_some]

theorem isFixedFunction_functionNameAfter (hname : name ∈ shader.functionNames) :
    isFixedFunction shader.directiveWords (shader.functionNameAfter name) =
      (isFixedFunction shader.directiveWords name ||
        shader.functionNameAfter name == "main") := by
  cases hfixed : isFixedFunction shader.directiveWords name with
  | true => rw [functionNameAfter_of_isFixed hfixed, hfixed, Bool.true_or]
  | false =>
    have hmem := functionNameAfter_mem (mem_renamedFunctions.2 ⟨hname, hfixed⟩)
    obtain ⟨htaken, hunusable⟩ := new_of_mem_nameFunctions hmem
    have hbuiltin := (ShortName.not_mem_unusable_iff.1 hunusable).2
    have hword : shader.functionNameAfter name ∉ shader.directiveWords :=
      fun h => htaken (mem_takenByOthers.2 (.inr (.inr h)))
    rw [isFixedFunction, hbuiltin, Bool.or_false, Bool.false_or,
      List.contains_eq_mem, decide_eq_false hword, Bool.or_false]

theorem ranks_byWeight : Sorting.Ranks fun a b : Nat × String => decide (b.1 < a.1) where
  asymm := by
    intro a b h
    simp only [decide_eq_true_eq, decide_eq_false_iff_not] at h ⊢
    omega
  trans := by
    intro a b c hba hcb
    simp only [decide_eq_false_iff_not] at hba hcb ⊢
    omega

/-- The functions that get a new name, with their weights: what `renamedFunctions` sorts. -/
def weightedFunctions (shader : Shader) : List (Nat × String) :=
  (shader.functionNames.filter fun name => !isFixedFunction shader.directiveWords name).map
    fun name => (shader.functionWeight name, name)

theorem weightedFunctions_withShortFunctions (shader : Shader) :
    shader.withShortFunctions.weightedFunctions =
      (shader.weightedFunctions.filter fun e => !shader.functionNameAfter e.2 == "main").map
        fun e => (e.1, shader.functionNameAfter e.2) := by
  rw [weightedFunctions, weightedFunctions, functionNames_withShortFunctions,
    directiveWords_withShortFunctions, List.filter_map, List.map_map, List.filter_map,
    List.map_map, List.filter_filter]
  have hserved : shader.functionNames.filter
        ((fun name => !isFixedFunction shader.directiveWords name) ∘ shader.functionNameAfter) =
      shader.functionNames.filter fun name =>
        (!shader.functionNameAfter name == "main") &&
          !isFixedFunction shader.directiveWords name := by
    refine List.filter_congr fun name hname => ?_
    rw [Function.comp_apply, isFixedFunction_functionNameAfter hname, Bool.not_or, Bool.and_comm]
  rw [hserved]
  refine List.map_congr_left fun name hname => ?_
  exact Prod.ext (functionWeight_withShortFunctions (List.mem_of_mem_filter hname)) rfl

/-- The functions are served in the same order again, one that is called `main` apart, which
`renamedFunctions` then passes over. -/
theorem renamedFunctions_withShortFunctions (shader : Shader) :
    shader.withShortFunctions.renamedFunctions =
      (shader.newFunctionNames.map Prod.snd).filter fun name => !name == "main" := by
  have hsorted : ∀ s : Shader, s.renamedFunctions =
      (Sorting.sort (fun a b => decide (b.1 < a.1)) s.weightedFunctions).map Prod.snd :=
    fun _ => rfl
  rw [← map_functionNameAfter_renamedFunctions, hsorted, hsorted,
    weightedFunctions_withShortFunctions, Sorting.sort_map fun _ _ _ _ => rfl,
    ranks_byWeight.sort_filter, List.map_map, List.map_map, List.filter_map]
  rfl

theorem takenByOthers_subset (hname : name ∈ shader.takenByOthers) :
    name ∈ shader.withShortFunctions.takenByOthers := by
  rw [mem_takenByOthers] at hname ⊢
  rw [otherNames_withShortFunctions, directiveWords_withShortFunctions,
    functionNames_withShortFunctions]
  refine hname.imp_right (Or.imp_left fun hfixed => ⟨?_, hfixed.2⟩)
  exact List.mem_map.2 ⟨name, hfixed.1, functionNameAfter_of_isFixed hfixed.2⟩

theorem mem_takenByOthers_of_withShortFunctions
    (hname : name ∈ shader.withShortFunctions.takenByOthers) (hmain : name ≠ "main") :
    name ∈ shader.takenByOthers := by
  rw [mem_takenByOthers] at hname ⊢
  rw [otherNames_withShortFunctions, directiveWords_withShortFunctions,
    functionNames_withShortFunctions] at hname
  refine hname.imp_right (Or.imp_left fun hfixed => ?_)
  obtain ⟨old, hold, rfl⟩ := List.mem_map.1 hfixed.1
  have hfixedOld := hfixed.2
  rw [isFixedFunction_functionNameAfter hold, beq_eq_false_iff_ne.2 hmain, Bool.or_false]
    at hfixedOld
  rw [functionNameAfter_of_isFixed hfixedOld]
  exact ⟨hold, hfixedOld⟩

theorem main_mem_takenByOthers (h : "main" ∈ shader.newFunctionNames.map Prod.snd) :
    "main" ∈ shader.withShortFunctions.takenByOthers := by
  rw [← map_functionNameAfter_renamedFunctions] at h
  obtain ⟨old, hold, heq⟩ := List.mem_map.1 h
  have hfixed : ∀ words, isFixedFunction words "main" = true := fun _ => rfl
  rw [mem_takenByOthers, functionNames_withShortFunctions]
  exact .inr (.inl ⟨List.mem_map.2 ⟨old, (mem_renamedFunctions.1 hold).1, heq⟩, hfixed _⟩)

theorem newFunctionNames_withShortFunctions (shader : Shader) :
    shader.withShortFunctions.newFunctionNames =
      shader.withShortFunctions.renamedFunctions.map fun name => (name, name) := by
  rw [newFunctionNames, renamedFunctions_withShortFunctions]
  refine nameFunctions_again shader.renamedFunctions (fun _ => takenByOthers_subset) ?_ ?_
  · intro name hname hmain
    exact mem_takenByOthers_of_withShortFunctions hname (by simpa using hmain)
  · intro name hname hmain
    obtain rfl : name = "main" := by simpa using hmain
    exact main_mem_takenByOthers hname

theorem newFunctionName_withShortFunctions (site : Site) :
    shader.withShortFunctions.newFunctionName site = site.name := by
  by_contra hne
  have hmem := (mem_of_newFunctionName_ne hne).2
  rw [newFunctionNames_withShortFunctions, List.mem_map] at hmem
  obtain ⟨name, -, heq⟩ := hmem
  obtain ⟨hold, hnew⟩ := Prod.mk.inj heq
  exact hne (hnew.symm.trans hold)

theorem withShortFunctions_withShortFunctions (shader : Shader) :
    shader.withShortFunctions.withShortFunctions = shader.withShortFunctions := by
  have hnames : shader.withShortFunctions.sites.map shader.withShortFunctions.newFunctionName =
      shader.withShortFunctions.sites.map Site.name :=
    List.map_congr_left fun site _ => newFunctionName_withShortFunctions site
  calc shader.withShortFunctions.withShortFunctions
      = shader.withShortFunctions.mapNames shader.withShortFunctions.newFunctionName := rfl
    _ = shader.withShortFunctions.withNames (shader.withShortFunctions.sites.map Site.name) := by
      rw [mapNames, hnames]
    _ = shader.withShortFunctions := shader.withShortFunctions.withNames_self

end Shader

namespace Program

/-- A program with both stages is given short names by `renameFunctions`, and then keeps them
however often it is renamed. -/
theorem renameFunctions_repeat (vertex fragment : Shader) :
    ∃ result, (renameFunctions ⟨some vertex, some fragment⟩).result = .ok result ∧
      (renameFunctions result).result = .ok result := by
  refine ⟨_, result_renameFunctions vertex fragment, ?_⟩
  rw [result_renameFunctions]
  exact congrArg₂ (fun v f => Except.ok (Program.mk (some v) (some f)))
    vertex.withShortFunctions_withShortFunctions fragment.withShortFunctions_withShortFunctions

end Program

end ShaderMinifier
