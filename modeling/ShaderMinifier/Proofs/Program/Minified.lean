import ShaderMinifier.Program.Compiler
import ShaderMinifier.Proofs.Function.Live
import ShaderMinifier.Proofs.Function.Rename
import ShaderMinifier.Proofs.Item.Merge
import ShaderMinifier.Proofs.RoundTrip
import ShaderMinifier.Proofs.Site.Readable
import ShaderMinifier.Proofs.Variable.Resolution

/-
  What a pass gives can be read back from its text, if what it was given can. Dropping functions
  and merging declarations bring no event that was not there, and new names are words that may be
  declared. So the text of a minified program is read as the program it was written from.
-/

namespace ShaderMinifier

open ShaderMinifier.Parser

/-- The shader is read back from its text: its tree fits (`AllFit`), and no directive keeps its line
going (`EndsLine`). -/
structure Shader.Readable (stage : Stage) (shader : Shader) : Prop where
  fits : Item.AllFit stage shader.items maxNesting
  lines : ∀ e ∈ shader.events, e.EndsLine

/-! ## Dropping functions -/

namespace Item

variable {dead : FunctionKey → Prop}

mutual

theorem Prunes.listReplacedBy : {items items' : List Item} → Prunes dead items items' →
    ListReplacedBy items items'
  | _, _, .nil => .nil
  | _, _, .conditional hbody hrest hitems =>
    .cons (.conditional _ _ hbody.listReplacedBy hrest.branchesReplacedBy) hitems.listReplacedBy
  | _, _, .drop _ _ hitems => fun stage room h => hitems.listReplacedBy stage room h.2
  | _, _, .keep _ _ hitems => .cons (.refl _) hitems.listReplacedBy

theorem PrunesBranches.branchesReplacedBy : {b b' : Branches} → PrunesBranches dead b b' →
    BranchesReplacedBy b b'
  | _, _, .done => .done
  | _, _, .otherwise hbody => .otherwise hbody.listReplacedBy
  | _, _, .elif hbody hrest => .elif _ hbody.listReplacedBy hrest.branchesReplacedBy

end

mutual

theorem Prunes.events_sublist : {items items' : List Item} → Prunes dead items items' →
    (listEvents items').Sublist (listEvents items)
  | _, _, .nil => .refl _
  | _, _, .conditional hbody hrest hitems =>
    .append (.append (.cons_cons _ hbody.events_sublist) hrest.events_sublist)
      hitems.events_sublist
  | _, _, .drop _ _ hitems => hitems.events_sublist.trans (List.sublist_append_right _ _)
  | _, _, .keep _ _ hitems => .append (.refl _) hitems.events_sublist

theorem PrunesBranches.events_sublist : {b b' : Branches} → PrunesBranches dead b b' →
    (branchEvents b').Sublist (branchEvents b)
  | _, _, .done => .refl _
  | _, _, .otherwise hbody => hbody.events_sublist
  | _, _, .elif hbody hrest => .append (.cons_cons _ hbody.events_sublist) hrest.events_sublist

end

end Item

/-! ## New names -/

/-- The new names that `nameFunctions` gives are `Declarable`, so the shader is still read. -/
theorem declarable_of_mem_nameFunctions {taken names : List String} {old new : String}
    (h : (old, new) ∈ nameFunctions taken names) : Word.Declarable new := by
  obtain ⟨more, hnew, -⟩ := exists_taken_of_mem_nameFunctions h
  rw [hnew]
  exact ShortName.declarable_firstFree more

theorem declarable_of_mem_serve {reserved : List (Stage × String)} {given : Given}
    {groups : List Group} (hgiven : ∀ entry ∈ given, Word.Declarable entry.2) :
    ∀ entry ∈ serve reserved given groups, Word.Declarable entry.2 := by
  induction groups generalizing given with
  | nil => exact hgiven
  | cons g groups ih =>
    have hname := ShortName.declarable_firstFree
      (reservedFor reserved g.slot ++ given.blocking g.slot)
    rw [serve]
    generalize ShortName.firstFree (reservedFor reserved g.slot ++ given.blocking g.slot) = name
      at hname ⊢
    exact ih (List.forall_mem_cons.2 ⟨hname, hgiven⟩)

/-- The new names of variables, `newNames`, are `Declarable`, so the shader is still read. -/
theorem BindingTable.declarable_newNames {table : BindingTable} {i : Nat} {name : String}
    (h : table.newNames.get i = some name) : Word.Declarable name := by
  rw [NewNames.get, Option.join_eq_some_iff] at h
  obtain ⟨j, -, hj⟩ := List.mem_map.1 (List.mem_of_getElem? h)
  obtain ⟨entry, hentry, rfl⟩ := Option.map_eq_some_iff.1 hj
  have hmem := List.mem_reverse.1 (List.mem_of_find?_eq_some hentry)
  exact declarable_of_mem_serve (by simp) entry hmem

theorem replacedBy_renamedSites {names : NewNames}
    (h : ∀ i name, names.get i = some name → Word.Declarable name) (sites : List Site)
    (ids : List (Option Nat)) :
    List.Forall₂ Word.ReplacedBy (sites.map Site.name) (renamedSites names sites ids) := by
  fun_induction renamedSites names sites ids with
  | case1 => exact .nil
  | case2 s sites ids _ ih =>
    refine .cons ?_ ih
    cases hnew : ids.head?.join.bind names.get with
    | none => exact .inl rfl
    | some new =>
      obtain ⟨i, -, hi⟩ := Option.bind_eq_some_iff.1 hnew
      exact .inr (h i new hi)
  | case3 s sites ids _ ih => exact .cons (.inl rfl) ih

namespace Shader

variable {shader : Shader} {stage : Stage}

namespace Readable

theorem of_parse {source : String} (h : Shader.parse source stage = .ok shader)
    (hlines : ∀ text ∈ (Tree.shader shader).directiveTexts, text.toList.getLast? ≠ some '\\') :
    shader.Readable stage :=
  ⟨yields_shader _ _ _ (run_eq_ok.1 h),
    fun e he text htext => hlines text (List.mem_filterMap.2 ⟨e, he, htext⟩)⟩

theorem parse_emit (h : shader.Readable stage) : Shader.parse shader.emit stage = .ok shader :=
  parse_layout h.fits h.lines

theorem removeDead (h : shader.Readable stage) : shader.removeDead.Readable stage := by
  have hprunes : Item.Prunes shader.Dead shader.items shader.removeDead.items :=
    Item.prunes_retainList (fun _ => dead_iff) shader.items
  exact ⟨hprunes.listReplacedBy stage _ h.fits,
    fun e he => h.lines e (hprunes.events_sublist.mem he)⟩

theorem mergeDeclarations (h : shader.Readable stage) :
    shader.mergeDeclarations.Readable stage :=
  ⟨Item.listReplacedBy_mergeList shader.items stage _ h.fits,
    fun e he => h.lines e ((Item.listEvents_mergeList shader.items).sublist.mem he)⟩

theorem withNames {names : List String} (h : shader.Readable stage)
    (hnames : List.Forall₂ Word.ReplacedBy (shader.sites.map Site.name) names) :
    (shader.withNames names).Readable stage := by
  refine ⟨allFit_withNames h.fits hnames, fun e he text htext => ?_⟩
  obtain ⟨rest, hrenames⟩ := shader.renames_withNames names
  have hmem : text ∈ (shader.withNames names).events.filterMap Event.directiveText :=
    List.mem_filterMap.2 ⟨e, he, htext⟩
  rw [hrenames.directiveTexts] at hmem
  obtain ⟨e', he', htext'⟩ := List.mem_filterMap.1 hmem
  exact h.lines e' he' text htext'

theorem renameFunctions (h : shader.Readable stage) :
    (shader.renameFunctions shader.newFunctionNames).Readable stage := by
  refine h.withNames ?_
  rw [List.forall₂_map_left_iff, List.forall₂_map_right_iff]
  refine List.forall₂_same.2 fun s _ => ?_
  by_cases hname : shader.newFunctionName s = s.name
  · exact .inl hname
  · exact .inr (declarable_of_mem_nameFunctions (mem_of_newFunctionName_ne hname).2)

theorem renameVariables (h : shader.Readable stage) (ids : List (Option Nat))
    {table : BindingTable} : (shader.renameVariables ids table.newNames).Readable stage :=
  h.withNames (replacedBy_renamedSites
    (fun _ _ => BindingTable.declarable_newNames) shader.sites ids)

end Readable

end Shader

/-! ## Results -/

section Results

variable {ε ε' α β : Type}

theorem bind_eq_ok {first : Except ε α} {next : α → Except ε β} {b : β} :
    (first >>= next) = .ok b ↔ ∃ a, first = .ok a ∧ next a = .ok b := by
  cases first with
  | error e => exact ⟨nofun, nofun⟩
  | ok a =>
    constructor
    · intro h
      exact ⟨a, rfl, h⟩
    · rintro ⟨_, ⟨⟩, h⟩
      exact h

theorem mapError_eq_ok {f : ε → ε'} {result : Except ε α} {a : α} :
    result.mapError f = .ok a ↔ result = .ok a := by
  cases result with
  | error e => exact ⟨nofun, nofun⟩
  | ok b => simp [Except.mapError]

end Results

/-! ## Passes -/

namespace Program

open Logged

variable {program result : Program}

/-- Both shaders are there and can be read back from their texts (`Shader.Readable`). -/
def Readable (program : Program) : Prop :=
  ∃ vertex fragment, program = ⟨some vertex, some fragment⟩ ∧ vertex.Readable .vertex ∧
    fragment.Readable .fragment

/-- What `mergeDeclarations` gives on a program with both stages; it cannot fail there. -/
theorem result_mergeDeclarations (vertex fragment : Shader) :
    (mergeDeclarations ⟨some vertex, some fragment⟩).result =
      .ok ⟨some vertex.mergeDeclarations, some fragment.mergeDeclarations⟩ := by
  apply result_mapStages
  · rw [result_tell_bind, result_pure]
  · rw [result_tell_bind, result_pure]

theorem Readable.run (h : program.Readable) {pass : Pass}
    (hrun : (pass.run program).result = .ok result) : result.Readable := by
  obtain ⟨vertex, fragment, rfl, hvertex, hfragment⟩ := h
  cases pass with
  | removeDeadFunctions =>
    obtain ⟨_, _, heq, rfl⟩ := removeDeadFunctions_eq_ok hrun
    cases heq
    exact ⟨_, _, rfl, hvertex.removeDead, hfragment.removeDead⟩
  | mergeDeclarations =>
    rw [Pass.run, result_mergeDeclarations] at hrun
    exact ⟨_, _, (Except.ok.inj hrun).symm, hvertex.mergeDeclarations,
      hfragment.mergeDeclarations⟩
  | renameVariables =>
    rw [Pass.run, result_renameVariables] at hrun
    exact ⟨_, _, (Except.ok.inj hrun).symm, hvertex.renameVariables _,
      hfragment.renameVariables _⟩
  | renameFunctions =>
    rw [Pass.run, result_renameFunctions] at hrun
    exact ⟨_, _, (Except.ok.inj hrun).symm, hvertex.renameFunctions, hfragment.renameFunctions⟩

/-- Any passes, one after the other, keep a program `Readable`; by induction on the steps with
`Readable.run`. -/
theorem Readable.runSteps (h : program.Readable) {steps : List (Phase × Pass)}
    (hrun : (Compiler.runSteps program steps).result = .ok result) : result.Readable := by
  induction steps generalizing program with
  | nil =>
    obtain rfl := Except.ok.inj hrun
    exact h
  | cons step steps ih =>
    obtain ⟨next, hnext, hrest⟩ := result_bind_eq_ok.1 hrun
    rw [Compiler.runStep, result_tell_bind] at hnext
    exact ih (h.run hnext) hrest

theorem result_runSteps_cons {phase : Phase} (pass : Pass) {next : Program}
    (h : (pass.run program).result = .ok next) (steps : List (Phase × Pass)) :
    (Compiler.runSteps program ((phase, pass) :: steps)).result =
      (Compiler.runSteps next steps).result := by
  have hstep : (Compiler.runStep program (phase, pass)).result = .ok next := by
    rw [Compiler.runStep, result_tell_bind, h]
  rw [Compiler.runSteps, result_bind_of_ok hstep]

theorem result_minifier {vertex fragment vertex' fragment' : Shader}
    (hdead : (removeDeadFunctions ⟨some vertex, some fragment⟩).result =
      .ok ⟨some vertex', some fragment'⟩) :
    (Compiler.minifier.compile ⟨some vertex, some fragment⟩).result =
      (renameVariables ⟨some vertex'.mergeDeclarations, some fragment'.mergeDeclarations⟩ >>=
        renameFunctions).result := by
  rw [Compiler.compile]
  show (Compiler.runSteps _ [(.minification, .removeDeadFunctions),
    (.minification, .mergeDeclarations), (.minification, .renameVariables),
    (.minification, .renameFunctions)]).result = _
  rw [result_runSteps_cons .removeDeadFunctions hdead,
    result_runSteps_cons .mergeDeclarations (result_mergeDeclarations _ _),
    result_runSteps_cons .renameVariables (result_renameVariables _ _),
    result_bind_of_ok (result_renameVariables _ _)]
  exact result_runSteps_cons .renameFunctions (result_renameFunctions _ _) []

theorem Readable.parse_emit (h : program.Readable) {stage : Stage} {text : String}
    (htext : program.emit stage = .ok text) :
    ∃ shader, program.shader? stage = some shader ∧ Shader.parse text stage = .ok shader := by
  obtain ⟨vertex, fragment, rfl, hvertex, hfragment⟩ := h
  cases stage with
  | vertex =>
    obtain rfl := Except.ok.inj htext
    exact ⟨vertex, rfl, hvertex.parse_emit⟩
  | fragment =>
    obtain rfl := Except.ok.inj htext
    exact ⟨fragment, rfl, hfragment.parse_emit⟩

theorem parse_eq_ok {vertexSource fragmentSource : String}
    (h : Program.parse vertexSource fragmentSource = .ok program) :
    ∃ vertex fragment, Shader.parse vertexSource .vertex = .ok vertex ∧
      Shader.parse fragmentSource .fragment = .ok fragment ∧
      program = ⟨some vertex, some fragment⟩ := by
  obtain ⟨vertex, hvertex, h⟩ := bind_eq_ok.1 h
  obtain ⟨fragment, hfragment, h⟩ := bind_eq_ok.1 h
  exact ⟨vertex, fragment, mapError_eq_ok.1 hvertex, mapError_eq_ok.1 hfragment,
    (Except.ok.inj h).symm⟩

end Program

theorem minify_eq_ok {vertex fragment : String} {out : String × String} :
    minify vertex fragment = .ok out ↔
      ∃ program result, Program.parse vertex fragment = .ok program ∧
        (Compiler.minifier.compile program).result = .ok result ∧
        result.emit .vertex = .ok out.1 ∧ result.emit .fragment = .ok out.2 := by
  rw [minify]
  constructor
  · intro h
    obtain ⟨program, hparse, h⟩ := bind_eq_ok.1 h
    obtain ⟨result, hcompile, h⟩ := bind_eq_ok.1 h
    obtain ⟨vertexText, hvertex, h⟩ := bind_eq_ok.1 h
    obtain ⟨fragmentText, hfragment, h⟩ := bind_eq_ok.1 h
    obtain rfl := Except.ok.inj h
    exact ⟨program, result, hparse, hcompile, hvertex, hfragment⟩
  · rintro ⟨program, result, hparse, hcompile, hvertex, hfragment⟩
    exact bind_eq_ok.2 ⟨program, hparse, bind_eq_ok.2 ⟨result, hcompile,
      bind_eq_ok.2 ⟨out.1, hvertex, bind_eq_ok.2 ⟨out.2, hfragment, rfl⟩⟩⟩⟩

/-- The texts of a minified program are read by `Shader.parse` as the shaders that they were written
from. -/
theorem parse_minify {vertex fragment : String} {program : Program} {out : String × String}
    (hminify : minify vertex fragment = .ok out)
    (hparse : Program.parse vertex fragment = .ok program)
    (hlines : ∀ stage shader, program.shader? stage = some shader →
      ∀ text ∈ (Tree.shader shader).directiveTexts, text.toList.getLast? ≠ some '\\') :
    ∃ vertex' fragment', (Compiler.minifier.compile program).result =
        .ok ⟨some vertex', some fragment'⟩ ∧
      Shader.parse out.1 .vertex = .ok vertex' ∧ Shader.parse out.2 .fragment = .ok fragment' := by
  obtain ⟨_, result, hparse', hcompile, hvertexText, hfragmentText⟩ := minify_eq_ok.1 hminify
  obtain rfl := Except.ok.inj (hparse.symm.trans hparse')
  obtain ⟨v, f, hv, hf, rfl⟩ := Program.parse_eq_ok hparse
  have hreadable : Program.Readable ⟨some v, some f⟩ :=
    ⟨v, f, rfl, .of_parse hv (hlines .vertex v rfl), .of_parse hf (hlines .fragment f rfl)⟩
  have hresult := hreadable.runSteps hcompile
  obtain ⟨vertex', hvertex', hreadVertex⟩ := hresult.parse_emit hvertexText
  obtain ⟨fragment', hfragment', hreadFragment⟩ := hresult.parse_emit hfragmentText
  obtain ⟨first, second⟩ := result
  obtain rfl : first = some vertex' := hvertex'
  obtain rfl : second = some fragment' := hfragment'
  exact ⟨vertex', fragment', hcompile, hreadVertex, hreadFragment⟩

/-- A shader with a dead function `g` and declarations of `u` and `w` to be merged. -/
def Shader.verbose : Shader := ⟨[
  .directive ⟨"define", "K"⟩,
  .declaration ⟨⟨some .uniform, none, .named "float"⟩, [⟨"t", none, none⟩]⟩,
  .declaration ⟨⟨none, none, .named "float"⟩, [⟨"u", none, none⟩]⟩,
  .declaration ⟨⟨none, none, .named "float"⟩, [⟨"w", none, none⟩]⟩,
  .function ⟨⟨none, none, .named "float"⟩, "f", [⟨false, none, none, "float", some "x", none⟩]⟩
    [.returnValue (some (.binary .mul (.identifier "x") (.identifier "t")))],
  .function ⟨⟨none, none, .named "void"⟩, "g", []⟩ [],
  .function ⟨⟨none, none, .named "void"⟩, "main", []⟩ [.simple (.expression (some
    (.assign .set (.identifier "u") (.call "f" [.identifier "w"]))))]]⟩

/-- What `Shader.verbose` is read from. -/
def verboseSource : String :=
  "#define K\nuniform float t;float u;float w;" ++
    "float f(float x)\x7breturn x*t;\x7dvoid g()\x7b\x7dvoid main()\x7bu=f(w);\x7d"

/-- What `minify` makes of `verboseSource`. -/
def verboseMinified : String :=
  "#define K\nuniform float a;float b,c;" ++
    "float e(float d)\x7breturn d*a;\x7dvoid main()\x7bb=e(c);\x7d"

/-- A directive, a dead function, declarations to be merged and names to be made short, for
`parse_minify`. -/
theorem parse_minify_verbose :
    minify verboseSource "void main()\x7b\x7d" = .ok (verboseMinified, "void main()\x7b\x7d") ∧
      Program.parse verboseSource "void main()\x7b\x7d" = .ok ⟨some .verbose, some .idle⟩ ∧
      (∀ stage shader, (Program.mk (some .verbose) (some .idle)).shader? stage = some shader →
        ∀ text ∈ (Tree.shader shader).directiveTexts, text.toList.getLast? ≠ some '\\') ∧
      ∃ vertex' fragment', (Compiler.minifier.compile ⟨some .verbose, some .idle⟩).result =
          .ok ⟨some vertex', some fragment'⟩ ∧
        Shader.parse verboseMinified .vertex = .ok vertex' ∧
        Shader.parse "void main()\x7b\x7d" .fragment = .ok fragment' := by
  have hparse : Program.parse verboseSource "void main()\x7b\x7d" =
      .ok ⟨some .verbose, some .idle⟩ := by decide +kernel
  have hlines : ∀ stage shader,
      (Program.mk (some .verbose) (some .idle)).shader? stage = some shader →
      ∀ text ∈ (Tree.shader shader).directiveTexts, text.toList.getLast? ≠ some '\\' := by
    intro stage shader hshader
    cases stage with
    | vertex | fragment =>
      obtain rfl := Option.some.inj hshader
      decide
  have hlive : Shader.verbose.liveFunctions = [⟨"main", 0⟩, ⟨"f", 1⟩] := by cbv
  have hremove := Program.result_removeDeadFunctions
    (Shader.hasMain_iff.1 (rfl : (CallGraph.ofShader .verbose).hasMain = true))
    Shader.definesMain_idle
  rw [Shader.removeDead_eq hlive, Shader.removeDead_idle] at hremove
  have hcompile := Program.result_minifier hremove
  rw [Logged.result_bind_of_ok (Program.result_renameVariables _ _),
    Program.result_renameFunctions] at hcompile
  have hminify : minify verboseSource "void main()\x7b\x7d" =
      .ok (verboseMinified, "void main()\x7b\x7d") := by
    refine minify_eq_ok.2 ⟨_, _, hparse, hcompile, congrArg Except.ok ?_, congrArg Except.ok ?_⟩
    · decide +kernel
    · decide +kernel
  exact ⟨hminify, hparse, hlines, parse_minify hminify hparse hlines⟩

end ShaderMinifier
