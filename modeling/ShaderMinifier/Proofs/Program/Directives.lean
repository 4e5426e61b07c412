import ShaderMinifier.Proofs.Item.Skeleton
import ShaderMinifier.Proofs.Program.Minified
import ShaderMinifier.Proofs.Variable.Link

/-
  The minifier and the preprocessor. Directives and conditions are kept as text, where a word may
  stand for a name of the shader. So the lines stay as they are, a name that is a word of them
  stays at all its sites, and no other name turns into such a word, whichever pass it goes through.
-/

namespace ShaderMinifier

/-! ## A site -/

theorem Role.Like.trans {role role' role'' : Role} (h : Role.Like role role')
    (h' : Role.Like role' role'') : Role.Like role role'' := by
  cases h with
  | refl => exact h'
  | declared hqualifier =>
    cases h' with
    | refl => exact .declared hqualifier
    | declared hqualifier' => exact .declared (hqualifier'.trans hqualifier)

/-- The second site is the first one under a name that respects the `words` of directives. -/
structure Site.KeepsWord (words : List String) (s s' : Site) : Prop where
  role : Role.Like s.role s'.role
  /-- A name that is one of the `words` stays. -/
  kept : s.name ∈ words → s'.name = s.name
  /-- A name that changes does not become one of the `words`. -/
  fresh : s'.name ≠ s.name → s'.name ∉ words

namespace Site.KeepsWord

variable {words : List String} {s s' s'' : Site}

theorem trans (h : KeepsWord words s s') (h' : KeepsWord words s' s'') :
    KeepsWord words s s'' where
  role := h.role.trans h'.role
  kept := by
    intro hword
    have hname := h.kept hword
    rw [h'.kept (hname ▸ hword), hname]
  fresh := by
    intro hne
    by_cases hlast : s''.name = s'.name
    · rw [hlast] at hne ⊢
      exact h.fresh hne
    · exact h'.fresh hlast

theorem forall₂_trans {ss ts us : List Site} (h : List.Forall₂ (KeepsWord words) ss ts)
    (h' : List.Forall₂ (KeepsWord words) ts us) : List.Forall₂ (KeepsWord words) ss us := by
  induction h generalizing us with
  | nil => exact h'
  | cons hs _ ih =>
    obtain ⟨_, _, ht, hts, rfl⟩ := List.forall₂_cons_left_iff.1 h'
    exact .cons (hs.trans ht) (ih hts)

end Site.KeepsWord

/-! ## New names for variables -/

namespace Shader

open Resolver BindingTable

theorem forall₂_keepsWord {before after : Shader} {words : List String}
    (haligned : before.Aligned after)
    (h : ∀ s s', (s, s') ∈ before.sites.zip after.sites →
      (s.name ∈ words → s'.name = s.name) ∧ (s'.name ≠ s.name → s'.name ∉ words)) :
    List.Forall₂ (Site.KeepsWord words) before.sites after.sites := by
  rw [Aligned, List.forall₂_iff_zip] at haligned
  refine List.forall₂_iff_zip.2 ⟨haligned.1, fun {s s'} hs => ?_⟩
  exact ⟨haligned.2 hs, (h s s' hs).1, (h s s' hs).2⟩

theorem keepsWord_renameVariables {shader : Shader} {stage : Stage} {table : BindingTable}
    {ids : List (Option Nat)}
    (hids : List.Forall₂ (Names stage table.bindings) shader.variableSites ids)
    (hwords : table.directiveWords stage = shader.directiveWords) :
    List.Forall₂ (Site.KeepsWord shader.directiveWords) shader.sites
      (shader.renameVariables ids table.newNames).sites := by
  refine forall₂_keepsWord (shader.aligned_renameVariables ids _) fun s s' hs => ?_
  obtain ⟨-, hname⟩ | ⟨id, hid, hname⟩ := name_renameVariables hids hs
  · exact ⟨fun _ => hname, fun hne => absurd hname hne⟩
  · cases id with
    | none => exact ⟨fun _ => hname, fun hne => absurd hname hne⟩
    | some i =>
      obtain ⟨b, hb, hbname, rfl⟩ := hid i rfl
      rw [Option.bind_some, get_newNames hb, ← hbname] at hname
      rw [hname, ← hbname, ← hwords]
      constructor
      · intro hword
        rw [newName?_eq_none_of_word hb hword, Option.getD_none]
      · intro hne
        cases hnew : newName? table.allocation i with
        | none => simp [hnew] at hne
        | some name => exact newName_not_word hb hnew

theorem keepsWord_renameFunctions (shader : Shader) :
    List.Forall₂ (Site.KeepsWord shader.directiveWords) shader.sites
      (shader.renameFunctions shader.newFunctionNames).sites := by
  have hkeeps := shader.keepsCalls_renameFunctions
  refine forall₂_keepsWord hkeeps.aligned fun s s' hs => ⟨fun hword => ?_, fun hne => ?_⟩
  · rw [renameFunctions_eq_mapNames] at hs
    rw [name_mapNames hs]
    by_contra hne
    obtain ⟨-, hmem⟩ := mem_of_newFunctionName_ne hne
    have hrenamed : s.name ∈ shader.renamedFunctions := by
      rw [← keys_nameFunctions shader.takenByOthers shader.renamedFunctions]
      exact List.mem_map_of_mem hmem
    have hfixed := (mem_renamedFunctions.1 hrenamed).2
    simp [isFixedFunction, hword] at hfixed
  · exact (hkeeps.fresh _ hs hne).2.2

/-! ## A stage -/

/-- The sites are those of the shader without its `Dead` functions, but for names of types where a
type is no longer written twice. -/
def Survive (shader : Shader) (sites : List Site) : Prop :=
  ∃ live : Shader, Item.Prunes shader.Dead shader.items live.items ∧ sites.Sublist live.sites ∧
    sites.filter Site.isOfValue = live.sites.filter Site.isOfValue

/-- What the preprocessor acts on is the same in the second shader as in the first one, and its
words mean there what they meant. -/
structure KeepsDirectives (before after : Shader) : Prop where
  /-- The directives and conditionals have their texts and their places (`skeleton`). -/
  skeleton : after.skeleton = before.skeleton
  /-- All names that `Survive` respect the words of the directives (`KeepsWord`). -/
  sites : ∃ survivors, before.Survive survivors ∧
    List.Forall₂ (Site.KeepsWord before.directiveWords) survivors after.sites

theorem survive_mergeDeclarations (shader : Shader) :
    shader.Survive shader.removeDead.mergeDeclarations.sites :=
  ⟨shader.removeDead, Item.prunes_retainList (fun _ => dead_iff) shader.items,
    (Item.listEvents_mergeList shader.removeDead.items).sites⟩

theorem skeleton_prepared (shader : Shader) :
    shader.removeDead.mergeDeclarations.skeleton = shader.skeleton := by
  rw [skeleton_mergeDeclarations, skeleton_removeDead]

theorem keepsDirectives_minified {shader : Shader} (stage : Stage) {table : BindingTable}
    {ids : List (Option Nat)}
    (hids : List.Forall₂ (Names stage table.bindings)
      shader.removeDead.mergeDeclarations.variableSites ids)
    (hwords : table.directiveWords stage = shader.removeDead.mergeDeclarations.directiveWords) :
    let renamed := shader.removeDead.mergeDeclarations.renameVariables ids table.newNames
    shader.KeepsDirectives (renamed.renameFunctions renamed.newFunctionNames) := by
  intro renamed
  have hvariables := keepsWord_renameVariables hids hwords
  have hfunctions := keepsWord_renameFunctions renamed
  have hrenamed : renamed.directiveWords = shader.directiveWords :=
    (directiveWords_renameVariables _ _ _).trans (directiveWords_congr shader.skeleton_prepared)
  rw [hrenamed] at hfunctions
  rw [directiveWords_congr shader.skeleton_prepared] at hvariables
  exact ⟨(skeleton_withNames _ _).trans ((skeleton_withNames _ _).trans shader.skeleton_prepared),
    _, shader.survive_mergeDeclarations, Site.KeepsWord.forall₂_trans hvariables hfunctions⟩

end Shader

/-! ## The minifier -/

namespace Program

open Logged Resolver BindingTable

variable {program result : Program}

/-- What `Compiler.minifier` went through, if it succeeds: both stages without dead functions and
merged, then renamed. -/
theorem minifier_eq_ok (h : (Compiler.minifier.compile program).result = .ok result) :
    ∃ vertex fragment, program = ⟨some vertex, some fragment⟩ ∧
      (renameVariables ⟨some vertex.removeDead.mergeDeclarations,
        some fragment.removeDead.mergeDeclarations⟩ >>= renameFunctions).result = .ok result := by
  obtain ⟨next, hnext, -⟩ := result_bind_eq_ok.1 h
  have hdead : program.removeDeadFunctions.result = .ok next := by
    rwa [Compiler.runStep, result_tell_bind] at hnext
  obtain ⟨vertex, fragment, rfl, rfl⟩ := removeDeadFunctions_eq_ok hdead
  rw [result_minifier hdead] at h
  exact ⟨vertex, fragment, rfl, h⟩

/-- If `Compiler.minifier` succeeds, it leaves in each stage the lines of the preprocessor as they
are and every name that is a word of them, and turns no name into such a word
(`KeepsDirectives`). -/
theorem minifier_keepsDirectives (h : (Compiler.minifier.compile program).result = .ok result)
    (stage : Stage) :
    ∃ before after, program.shader? stage = some before ∧ result.shader? stage = some after ∧
      before.KeepsDirectives after := by
  obtain ⟨vertex, fragment, rfl, hrenamed⟩ := minifier_eq_ok h
  rw [result_bind_of_ok (result_renameVariables _ _), result_renameFunctions] at hrenamed
  obtain rfl := Except.ok.inj hrenamed
  cases stage with
  | vertex =>
    refine ⟨vertex, _, rfl, rfl, Shader.keepsDirectives_minified .vertex ?_ rfl⟩
    exact (names_run (by simp) _).imp fun _ _ hnames =>
      hnames.mono (origins_vertex_isPrefix _ _)
  | fragment =>
    refine ⟨fragment, _, rfl, rfl, Shader.keepsDirectives_minified .fragment ?_ rfl⟩
    exact names_run (fun _ => stage_ne_of_mem_vertex) _

/-- A directive has the name of the uniform `k` and that of the function `f`, which nothing else
calls. -/
def directiveSource : String :=
  "#define K k*f()\nuniform float k;float u;float f()\x7breturn k;\x7dvoid main()\x7bu=K;\x7d"

/-- Both `k` and `f` stay and keep their names, and another variable gets a short one. -/
theorem minifier_keepsDirectives_define :
    ∃ before result, Shader.parse directiveSource .vertex = .ok before ∧
      before.directiveWords = ["K", "k", "f"] ∧
      (Compiler.minifier.compile ⟨some before, some .idle⟩).result = .ok result ∧
      result.emit .vertex = .ok ("#define K k*f()\nuniform float k;float a;" ++
        "float f()\x7breturn k;\x7dvoid main()\x7ba=K;\x7d") ∧
      ∀ stage, ∃ before' after,
        (Program.mk (some before) (some .idle)).shader? stage = some before' ∧
        result.shader? stage = some after ∧ before'.KeepsDirectives after := by
  let before : Shader := ⟨[
    .directive ⟨"define", "K k*f()"⟩,
    .declaration ⟨⟨some .uniform, none, .named "float"⟩, [⟨"k", none, none⟩]⟩,
    .declaration ⟨⟨none, none, .named "float"⟩, [⟨"u", none, none⟩]⟩,
    .function ⟨⟨none, none, .named "float"⟩, "f", []⟩ [.returnValue (some (.identifier "k"))],
    .function ⟨⟨none, none, .named "void"⟩, "main", []⟩
      [.simple (.expression (some (.assign .set (.identifier "u") (.identifier "K"))))]]⟩
  have hlive : before.liveFunctions = [⟨"main", 0⟩, ⟨"f", 0⟩] := by cbv
  have hremove := result_removeDeadFunctions
    (Shader.hasMain_iff.1 (rfl : (CallGraph.ofShader before).hasMain = true))
    Shader.definesMain_idle
  rw [Shader.removeDead_eq hlive, Shader.removeDead_idle] at hremove
  have hcompile := result_minifier hremove
  rw [result_bind_of_ok (result_renameVariables _ _), result_renameFunctions] at hcompile
  refine ⟨before, _, by decide +kernel, by decide, hcompile, congrArg Except.ok ?_,
    minifier_keepsDirectives hcompile⟩
  decide +kernel

end Program

end ShaderMinifier
