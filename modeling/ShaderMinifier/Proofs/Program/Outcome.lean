import ShaderMinifier.Proofs.Program.Minified

/-
  When making two texts short fails, and with which error. Only what comes first can go wrong: a
  text that cannot be read, then a stage that does not define `main`. Every other pass succeeds
  on every program that has both stages, and leaves it both.
-/

namespace ShaderMinifier

/-- What stands in the way of `minify`: the first of two texts that cannot be read, or else the
first stage that does not define `main`. -/
inductive Obstructs (vertex fragment : String) : CompileError → Prop
  | vertexText {e : SyntaxError} (h : Shader.parse vertex .vertex = .error e) :
    Obstructs vertex fragment (.malformed e)
  | fragmentText {v : Shader} {e : SyntaxError} (hvertex : Shader.parse vertex .vertex = .ok v)
      (h : Shader.parse fragment .fragment = .error e) :
    Obstructs vertex fragment (.malformed e)
  | vertexMain {v f : Shader} (hvertex : Shader.parse vertex .vertex = .ok v)
      (hfragment : Shader.parse fragment .fragment = .ok f) (h : ¬ v.DefinesMain) :
    Obstructs vertex fragment (.noMain .vertex)
  | fragmentMain {v f : Shader} (hvertex : Shader.parse vertex .vertex = .ok v)
      (hfragment : Shader.parse fragment .fragment = .ok f) (hmain : v.DefinesMain)
      (h : ¬ f.DefinesMain) :
    Obstructs vertex fragment (.noMain .fragment)

/-- Nothing stands in the way of `minify`: both texts can be read, and each stage `DefinesMain`. -/
def Unobstructed (vertex fragment : String) : Prop :=
  ∃ v f, Shader.parse vertex .vertex = .ok v ∧ Shader.parse fragment .fragment = .ok f ∧
    v.DefinesMain ∧ f.DefinesMain

theorem obstructs_or_unobstructed (vertex fragment : String) :
    (∃ e, Obstructs vertex fragment e) ∨ Unobstructed vertex fragment := by
  cases hvertex : Shader.parse vertex .vertex with
  | error e => exact .inl ⟨_, .vertexText hvertex⟩
  | ok v =>
    cases hfragment : Shader.parse fragment .fragment with
    | error e => exact .inl ⟨_, .fragmentText hvertex hfragment⟩
    | ok f =>
      by_cases hmain : v.DefinesMain
      · by_cases hmain' : f.DefinesMain
        · exact .inr ⟨v, f, hvertex, hfragment, hmain, hmain'⟩
        · exact .inl ⟨_, .fragmentMain hvertex hfragment hmain hmain'⟩
      · exact .inl ⟨_, .vertexMain hvertex hfragment hmain⟩

/-! ## Errors on the way -/

theorem Logged.result_bind_of_error {α β : Type} {first : Logged α} {e : CompileError}
    (h : first.result = .error e) (next : α → Logged β) :
    (first >>= next).result = .error e := by
  show (Logged.bind first next).result = .error e
  simp only [Logged.bind, h]

namespace Program

open Logged

variable {program : Program} {vertex fragment : Shader} {e : CompileError}

theorem result_removeDeadFunctions_of_vertex (h : ¬ vertex.DefinesMain) :
    (removeDeadFunctions ⟨some vertex, some fragment⟩).result = .error (.noMain .vertex) := by
  rw [← Shader.hasMain_iff] at h
  rw [removeDeadFunctions, mapStages, result_bind_of_ok rfl]
  refine result_bind_of_error ?_ _
  rw [if_neg h]
  rfl

theorem result_removeDeadFunctions_of_fragment (hmain : vertex.DefinesMain)
    (h : ¬ fragment.DefinesMain) :
    (removeDeadFunctions ⟨some vertex, some fragment⟩).result = .error (.noMain .fragment) := by
  rw [← Shader.hasMain_iff] at h
  have hvertex : (if (CallGraph.ofShader vertex).hasMain then do
        Logged.tell (vertex.deadFunctions.map (.removed .vertex))
        return vertex.removeDead
      else Logged.ofResult (.error (.noMain .vertex))).result = .ok vertex.removeDead := by
    rw [if_pos (Shader.hasMain_iff.2 hmain), result_tell_bind, result_pure]
  rw [removeDeadFunctions, mapStages, result_bind_of_ok rfl, result_bind_of_ok hvertex,
    result_bind_of_ok rfl]
  refine result_bind_of_error ?_ _
  rw [if_neg h]
  rfl

theorem minifier_eq_error_iff :
    (Compiler.minifier.compile program).result = .error e ↔
      program.removeDeadFunctions.result = .error e := by
  cases hdead : program.removeDeadFunctions.result with
  | error e' =>
    have hstep : (Compiler.runStep program (.minification, .removeDeadFunctions)).result =
        .error e' := by
      rw [Compiler.runStep, result_tell_bind]
      exact hdead
    have hcompile : (Compiler.minifier.compile program).result = .error e' :=
      result_bind_of_error hstep _
    rw [hcompile]
  | ok next =>
    obtain ⟨vertex, fragment, rfl, rfl⟩ := removeDeadFunctions_eq_ok hdead
    rw [result_minifier hdead, result_bind_of_ok (result_renameVariables _ _),
      result_renameFunctions]
    simp

end Program

/-! ## From text to text -/

section Minify

variable {vertex fragment : String} {e : CompileError}

theorem parse_of_ok {v f : Shader} (hvertex : Shader.parse vertex .vertex = .ok v)
    (hfragment : Shader.parse fragment .fragment = .ok f) :
    Program.parse vertex fragment = .ok ⟨some v, some f⟩ := by
  rw [Program.parse, Program.parseStage, hvertex, Program.parseStage, hfragment]
  rfl

theorem minify_of_removeDeadFunctions {program : Program}
    (hparse : Program.parse vertex fragment = .ok program)
    (h : program.removeDeadFunctions.result = .error e) : minify vertex fragment = .error e := by
  rw [minify, hparse]
  show ((Compiler.minifier.compile program).result >>= _) = _
  rw [Program.minifier_eq_error_iff.2 h]
  rfl

theorem Obstructs.minify_eq_error (h : Obstructs vertex fragment e) :
    minify vertex fragment = .error e := by
  cases h with
  | vertexText h =>
    rw [minify, Program.parse, Program.parseStage, h]
    rfl
  | fragmentText hvertex h =>
    rw [minify, Program.parse, Program.parseStage, hvertex, Program.parseStage, h]
    rfl
  | vertexMain hvertex hfragment h =>
    exact minify_of_removeDeadFunctions (parse_of_ok hvertex hfragment)
      (Program.result_removeDeadFunctions_of_vertex h)
  | fragmentMain hvertex hfragment hmain h =>
    exact minify_of_removeDeadFunctions (parse_of_ok hvertex hfragment)
      (Program.result_removeDeadFunctions_of_fragment hmain h)

theorem Unobstructed.exists_minify (h : Unobstructed vertex fragment) :
    ∃ out, minify vertex fragment = .ok out := by
  obtain ⟨v, f, hvertex, hfragment, hmain, hmain'⟩ := h
  have hcompile := Program.result_minifier (Program.result_removeDeadFunctions hmain hmain')
  rw [Logged.result_bind_of_ok (Program.result_renameVariables _ _),
    Program.result_renameFunctions] at hcompile
  exact ⟨(_, _), minify_eq_ok.2 ⟨_, _, parse_of_ok hvertex hfragment, hcompile, rfl, rfl⟩⟩

end Minify

/-- `minify` succeeds on two texts exactly if they are `Unobstructed`; otherwise the error is what
`Obstructs` them. Of the passes only `removeDeadFunctions` can fail. -/
theorem minify_outcome (vertex fragment : String) :
    ((∃ out, minify vertex fragment = .ok out) ↔ Unobstructed vertex fragment) ∧
      (∀ e, minify vertex fragment = .error e ↔ Obstructs vertex fragment e) ∧
      ∀ program e, (Compiler.minifier.compile program).result = .error e ↔
        program.removeDeadFunctions.result = .error e := by
  refine ⟨⟨?_, Unobstructed.exists_minify⟩, fun e => ⟨fun herror => ?_, Obstructs.minify_eq_error⟩,
    fun _ _ => Program.minifier_eq_error_iff⟩
  · rintro ⟨out, hout⟩
    refine (obstructs_or_unobstructed vertex fragment).resolve_left ?_
    rintro ⟨e, h⟩
    exact absurd (hout.symm.trans h.minify_eq_error) (by simp)
  · rcases obstructs_or_unobstructed vertex fragment with ⟨e', h⟩ | h
    · obtain rfl := Except.error.inj (herror.symm.trans h.minify_eq_error)
      exact h
    · obtain ⟨out, hout⟩ := h.exists_minify
      exact absurd (herror.symm.trans hout) (by simp)

/-- The error in words, by `display`, names the stage. -/
example : (CompileError.noMain .fragment).display =
    "Structural invariant violated: fragment shader has no main function" := by decide

end ShaderMinifier
