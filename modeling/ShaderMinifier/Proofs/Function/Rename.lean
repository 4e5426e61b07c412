import ShaderMinifier.Proofs.Program.Pass
import ShaderMinifier.Proofs.ShortName
import ShaderMinifier.Proofs.Site.Restore
import ShaderMinifier.Proofs.Sorting

/-
  New names for functions leave every call with the function that it had. A new name may be the
  old name of another function, so all sites are looked at together: two of them have one name
  afterwards exactly if they had one before. The new names keep clear of everything that is not
  renamed, and nothing but the names of the shader's own functions changes.
-/

namespace ShaderMinifier

/-! ## Handing out names -/

section NameFunctions

variable {taken names : List String} {old old' new : String}

theorem keys_nameFunctions (taken names : List String) :
    (nameFunctions taken names).map Prod.fst = names := by
  induction names generalizing taken with
  | nil => rfl
  | cons name names ih => rw [nameFunctions, List.map_cons, ih]

theorem exists_taken_of_mem_nameFunctions (h : (old, new) ∈ nameFunctions taken names) :
    ∃ more, new = ShortName.firstFree more ∧ ∀ name ∈ taken, name ∈ more := by
  induction names generalizing taken with
  | nil => simp [nameFunctions] at h
  | cons name names ih =>
    rw [nameFunctions, List.mem_cons] at h
    rcases h with h | h
    · exact ⟨taken, (Prod.mk.inj h).2, fun _ => id⟩
    · obtain ⟨more, hnew, hmore⟩ := ih h
      exact ⟨more, hnew, fun name hname => hmore name (List.mem_cons_of_mem _ hname)⟩

theorem new_of_mem_nameFunctions (h : (old, new) ∈ nameFunctions taken names) :
    new ∉ taken ∧ new ∉ ShortName.unusable := by
  obtain ⟨more, hnew, hmore⟩ := exists_taken_of_mem_nameFunctions h
  rw [hnew]
  exact ⟨fun hmem => ShortName.firstFree_not_mem more (hmore _ hmem),
    ShortName.firstFree_not_mem_unusable more⟩

theorem old_unique_of_mem_nameFunctions (h : (old, new) ∈ nameFunctions taken names)
    (h' : (old', new) ∈ nameFunctions taken names) : old = old' := by
  induction names generalizing taken with
  | nil => simp [nameFunctions] at h
  | cons name names ih =>
    rw [nameFunctions, List.mem_cons] at h h'
    -- The name given to the first function is taken for all others.
    have hfirst : ∀ o, (o, new) ∈ nameFunctions (ShortName.firstFree taken :: taken) names →
        new ≠ ShortName.firstFree taken := by
      intro o ho hnew
      exact (new_of_mem_nameFunctions ho).1 (hnew ▸ List.mem_cons_self)
    rcases h with h | h <;> rcases h' with h' | h'
    · exact (Prod.mk.inj h).1.trans (Prod.mk.inj h').1.symm
    · exact absurd (Prod.mk.inj h).2 (hfirst _ h')
    · exact absurd (Prod.mk.inj h').2 (hfirst _ h)
    · exact ih h h'

theorem mem_of_lookup_nameFunctions (h : (nameFunctions taken names).lookup old = some new) :
    (old, new) ∈ nameFunctions taken names := by
  obtain ⟨before, after, heq, -⟩ := List.lookup_eq_some_iff.1 h
  rw [heq]
  simp

theorem lookup_nameFunctions_eq_none :
    (nameFunctions taken names).lookup old = none ↔ old ∉ names := by
  rw [List.lookup_eq_none_iff]
  constructor
  · intro h hmem
    rw [← keys_nameFunctions taken names, List.mem_map] at hmem
    obtain ⟨entry, hentry, rfl⟩ := hmem
    simpa using h entry hentry
  · intro h entry hentry
    have hkey : entry.1 ∈ names := by
      rw [← keys_nameFunctions taken names]
      exact List.mem_map_of_mem hentry
    simp only [bne_iff_ne, ne_eq]
    rintro rfl
    exact h hkey

end NameFunctions

namespace Shader

variable {shader : Shader} {name : String} {site : Site}

/-! ## What keeps its name -/

theorem mem_functionNames :
    name ∈ shader.functionNames ↔ ∃ arity, ⟨.function arity, name⟩ ∈ shader.sites := by
  rw [functionNames, List.mem_eraseDups, List.mem_filterMap]
  constructor
  · rintro ⟨⟨role, other⟩, hsite, hname⟩
    cases role with
    | function arity =>
      cases hname
      exact ⟨arity, hsite⟩
    | declared _ _ _ | type | field | parameter | use | callee _ => cases hname
  · rintro ⟨arity, hsite⟩
    exact ⟨_, hsite, rfl⟩

theorem mem_renamedFunctions : name ∈ shader.renamedFunctions ↔
    name ∈ shader.functionNames ∧ isFixedFunction shader.directiveWords name = false := by
  simp only [renamedFunctions, List.mem_map, Sorting.mem_sort, List.mem_filter,
    Bool.not_eq_true']
  constructor
  · rintro ⟨_, ⟨other, hother, rfl⟩, rfl⟩
    exact hother
  · intro h
    exact ⟨_, ⟨name, h, rfl⟩, rfl⟩

theorem mem_takenByOthers : name ∈ shader.takenByOthers ↔ name ∈ shader.otherNames ∨
    (name ∈ shader.functionNames ∧ isFixedFunction shader.directiveWords name = true) ∨
    name ∈ shader.directiveWords := by
  simp only [takenByOthers, List.mem_eraseDups, List.mem_append, List.mem_filter, or_assoc]

/-- A name that is not that of a function is in `otherNames`, unless it is a field's. -/
theorem mem_otherNames_of_not_isFunction (hsite : site ∈ shader.sites)
    (hrole : site.role.isFunction = false) (hfield : site.role ≠ .field) :
    site.name ∈ shader.otherNames := by
  refine List.mem_filterMap.2 ⟨site, hsite, ?_⟩
  obtain ⟨role, name⟩ := site
  cases role with
  | declared _ _ _ | parameter | use | type => rfl
  | field => exact absurd rfl hfield
  | function _ | callee _ => cases hrole

/-- What is called but declared nowhere is in `otherNames`, so no function takes its name. -/
theorem mem_otherNames_of_not_declared (hsite : site ∈ shader.sites)
    (hrole : site.role.isFunction = true) (hname : site.name ∉ shader.functionNames) :
    site.name ∈ shader.otherNames := by
  refine List.mem_filterMap.2 ⟨site, hsite, ?_⟩
  obtain ⟨role, name⟩ := site
  cases role with
  | callee arity => simpa using hname
  | function arity => exact absurd (mem_functionNames.2 ⟨arity, hsite⟩) hname
  | declared _ _ _ | parameter | use | type | field => cases hrole

theorem mem_takenByOthers_of_not_renamed (hsite : site ∈ shader.sites)
    (hrole : site.role.isFunction = true) (hname : site.name ∉ shader.renamedFunctions) :
    site.name ∈ shader.takenByOthers := by
  rw [mem_takenByOthers]
  by_cases hdeclared : site.name ∈ shader.functionNames
  · rw [mem_renamedFunctions, not_and, Bool.not_eq_false] at hname
    exact .inr (.inl ⟨hdeclared, hname hdeclared⟩)
  · exact .inl (mem_otherNames_of_not_declared hsite hrole hdeclared)

/-! ## The name at a site -/

/-- The name that a site has once the functions are renamed, by `newFunctionNames`. -/
def newFunctionName (shader : Shader) (site : Site) : String :=
  if site.role.isFunction then
    (shader.newFunctionNames.lookup site.name).getD site.name
  else site.name

theorem newFunctionName_other (hrole : site.role.isFunction = false) :
    shader.newFunctionName site = site.name := by
  simp [newFunctionName, hrole]

theorem mem_of_newFunctionName_ne (h : shader.newFunctionName site ≠ site.name) :
    site.role.isFunction = true ∧
      (site.name, shader.newFunctionName site) ∈ shader.newFunctionNames := by
  by_cases hrole : site.role.isFunction = true
  · refine ⟨hrole, ?_⟩
    rw [newFunctionName, if_pos hrole] at h ⊢
    cases hlookup : shader.newFunctionNames.lookup site.name with
    | none =>
      rw [hlookup] at h
      exact absurd rfl h
    | some new => exact mem_of_lookup_nameFunctions hlookup
  · exact absurd (newFunctionName_other (by simpa using hrole)) h

theorem newFunctionName_cases (hsite : site ∈ shader.sites)
    (hrole : site.role.isFunction = true) :
    (site.name, shader.newFunctionName site) ∈ shader.newFunctionNames ∨
      (shader.newFunctionName site = site.name ∧ site.name ∈ shader.takenByOthers) := by
  rw [newFunctionName, if_pos hrole]
  cases hlookup : shader.newFunctionNames.lookup site.name with
  | none =>
    have hname := lookup_nameFunctions_eq_none.1 hlookup
    exact .inr ⟨rfl, mem_takenByOthers_of_not_renamed hsite hrole hname⟩
  | some new => exact .inl (mem_of_lookup_nameFunctions hlookup)

theorem newFunctionName_inj {s t : Site} (hs : s ∈ shader.sites) (ht : t ∈ shader.sites)
    (hsrole : s.role.isFunction = true) (htrole : t.role.isFunction = true) :
    shader.newFunctionName s = shader.newFunctionName t ↔ s.name = t.name := by
  constructor
  · intro h
    rcases newFunctionName_cases hs hsrole with hnew | ⟨hkept, htaken⟩ <;>
      rcases newFunctionName_cases ht htrole with hnew' | ⟨hkept', htaken'⟩
    · rw [h] at hnew
      exact old_unique_of_mem_nameFunctions hnew hnew'
    · rw [h, hkept'] at hnew
      exact absurd htaken' (new_of_mem_nameFunctions hnew).1
    · rw [← h, hkept] at hnew'
      exact absurd htaken (new_of_mem_nameFunctions hnew').1
    · rw [← hkept, h, hkept']
  · intro h
    rw [newFunctionName, newFunctionName, if_pos hsrole, if_pos htrole, h]

theorem renameFunctions_eq_mapNames :
    shader.renameFunctions shader.newFunctionNames = shader.mapNames shader.newFunctionName := rfl

/-! ## The shader -/

/-- The second shader is the first one with other names for its functions, and every call means the
function that it meant. Each field is one way in which `renameFunctions` could go wrong. -/
structure KeepsCalls (before after : Shader) : Prop where
  /-- Only names change: with its old names, `withNames` gives the first shader back. -/
  restores : after.withNames (before.sites.map Site.name) = before
  aligned : before.Aligned after
  /-- A name that changes is that of a function, which the shader declares (`Role.function`). -/
  changes : ∀ p ∈ before.sites.zip after.sites, p.2.name ≠ p.1.name →
    p.1.role.isFunction = true ∧ ∃ arity, ⟨.function arity, p.1.name⟩ ∈ before.sites
  /-- Functions are told apart as before: two sites agree in their names exactly if they did. -/
  resolves : ∀ p ∈ before.sites.zip after.sites, ∀ q ∈ before.sites.zip after.sites,
    p.1.role.isFunction = true → q.1.role.isFunction = true →
      (p.2.name = q.2.name ↔ p.1.name = q.1.name)
  /-- A new name has no other meaning: it is no keyword, no built-in function and none of the
  `directiveWords`. -/
  fresh : ∀ p ∈ before.sites.zip after.sites, p.2.name ≠ p.1.name →
    p.2.name ∉ Word.reserved ∧ p.2.name ∉ Word.builtinFunctions ∧
      p.2.name ∉ before.directiveWords
  /-- A new name is not that of anything that keeps its name, fields apart, which live apart from
  all names. -/
  apart : ∀ p ∈ before.sites.zip after.sites, p.2.name ≠ p.1.name →
    ∀ q ∈ before.sites.zip after.sites, q.2.name = q.1.name → q.1.role ≠ .field →
      p.2.name ≠ q.1.name

theorem keepsCalls_renameFunctions (shader : Shader) :
    shader.KeepsCalls (shader.renameFunctions shader.newFunctionNames) := by
  rw [renameFunctions_eq_mapNames]
  have hname : ∀ p ∈ shader.sites.zip (shader.mapNames shader.newFunctionName).sites,
      p.1 ∈ shader.sites ∧ p.2.name = shader.newFunctionName p.1 :=
    fun p hp => ⟨(List.of_mem_zip hp).1, name_mapNames hp⟩
  have hnew : ∀ p ∈ shader.sites.zip (shader.mapNames shader.newFunctionName).sites,
      p.2.name ≠ p.1.name → p.1.role.isFunction = true ∧
        (p.1.name, p.2.name) ∈ shader.newFunctionNames := by
    intro p hp hne
    obtain ⟨-, hp⟩ := hname p hp
    rw [hp] at hne ⊢
    exact mem_of_newFunctionName_ne hne
  have hresolves : ∀ p ∈ shader.sites.zip (shader.mapNames shader.newFunctionName).sites,
      ∀ q ∈ shader.sites.zip (shader.mapNames shader.newFunctionName).sites,
      p.1.role.isFunction = true → q.1.role.isFunction = true →
        (p.2.name = q.2.name ↔ p.1.name = q.1.name) := by
    intro p hp q hq hprole hqrole
    obtain ⟨hp, hpname⟩ := hname p hp
    obtain ⟨hq, hqname⟩ := hname q hq
    rw [hpname, hqname]
    exact newFunctionName_inj hp hq hprole hqrole
  constructor
  case restores => exact shader.withNames_withNames _
  case aligned => exact aligned_withNames (List.length_map _)
  case changes =>
    intro p hp hne
    obtain ⟨hrole, hmem⟩ := hnew p hp hne
    have hkey : p.1.name ∈ shader.renamedFunctions := by
      rw [← keys_nameFunctions shader.takenByOthers shader.renamedFunctions]
      exact List.mem_map_of_mem hmem
    exact ⟨hrole, mem_functionNames.1 (mem_renamedFunctions.1 hkey).1⟩
  case resolves => exact hresolves
  case fresh =>
    intro p hp hne
    obtain ⟨htaken, hunusable⟩ := new_of_mem_nameFunctions (hnew p hp hne).2
    rw [ShortName.unusable, List.mem_append, not_or] at hunusable
    exact ⟨hunusable.1, hunusable.2, fun h => htaken (mem_takenByOthers.2 (.inr (.inr h)))⟩
  case apart =>
    intro p hp hne q hq hkept hfield hsame
    obtain ⟨hprole, hmem⟩ := hnew p hp hne
    by_cases hqrole : q.1.role.isFunction = true
    · -- Both are functions, so they had one name, and that one has changed.
      have hold := (hresolves p hp q hq hprole hqrole).1 (hsame.trans hkept.symm)
      exact hne (hsame.trans hold.symm)
    · have hother := mem_otherNames_of_not_isFunction (List.of_mem_zip hq).1
        (by simpa using hqrole) hfield
      rw [← hsame] at hother
      exact (new_of_mem_nameFunctions hmem).1 (mem_takenByOthers.2 (.inl hother))

end Shader

namespace Program

open Logged

theorem result_renameFunctions (vertex fragment : Shader) :
    (renameFunctions ⟨some vertex, some fragment⟩).result =
      .ok ⟨some (vertex.renameFunctions vertex.newFunctionNames),
        some (fragment.renameFunctions fragment.newFunctionNames)⟩ := by
  apply result_mapStages
  · rw [result_tell_bind, result_pure]
  · rw [result_tell_bind, result_pure]

/-- In a program with both stages, `renameFunctions` keeps every call of each stage
(`KeepsCalls`). -/
theorem renameFunctions_keepsCalls (vertex fragment : Shader) :
    ∃ vertex' fragment', (renameFunctions ⟨some vertex, some fragment⟩).result =
        .ok ⟨some vertex', some fragment'⟩ ∧
      vertex.KeepsCalls vertex' ∧ fragment.KeepsCalls fragment' :=
  ⟨_, _, result_renameFunctions vertex fragment, vertex.keepsCalls_renameFunctions,
    fragment.keepsCalls_renameFunctions⟩

end Program

end ShaderMinifier
