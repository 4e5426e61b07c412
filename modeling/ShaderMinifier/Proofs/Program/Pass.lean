import ShaderMinifier.Program.Pass

/-
  What a pass gives, apart from what it tells. A pass that goes stage by stage succeeds on a
  program exactly if both stages are there and it succeeds on each of them.
-/

namespace ShaderMinifier

namespace Logged

variable {α β : Type}

theorem result_bind_of_ok {first : Logged α} {a : α} (h : first.result = .ok a)
    (next : α → Logged β) : (first >>= next).result = (next a).result := by
  show (Logged.bind first next).result = (next a).result
  simp only [Logged.bind, h]

theorem result_bind_eq_ok {first : Logged α} {next : α → Logged β} {b : β} :
    (first >>= next).result = .ok b ↔
      ∃ a, first.result = .ok a ∧ (next a).result = .ok b := by
  constructor
  · intro h
    cases hfirst : first.result with
    | ok a => exact ⟨a, rfl, by rwa [result_bind_of_ok hfirst] at h⟩
    | error e =>
      have herror : (first >>= next).result = .error e := by
        show (Logged.bind first next).result = .error e
        simp only [Logged.bind, hfirst]
      rw [herror] at h
      cases h
  · rintro ⟨a, hfirst, h⟩
    rw [result_bind_of_ok hfirst, h]

theorem result_tell_bind (entries : List Log.Entry) (next : Unit → Logged β) :
    (tell entries >>= next).result = (next ()).result :=
  result_bind_of_ok rfl next

@[simp] theorem result_pure (a : α) : (pure a : Logged α).result = .ok a := rfl

end Logged

namespace Program

open Logged

variable {f : Stage → Shader → Logged Shader} {program result : Program}
  {vertex fragment vertex' fragment' : Shader}

theorem shader_eq_ok {stage : Stage} {shader : Shader} :
    program.shader stage = .ok shader ↔ program.shader? stage = some shader := by
  unfold Program.shader
  cases program.shader? stage <;> simp

theorem result_mapStages (hvertex : (f .vertex vertex).result = .ok vertex')
    (hfragment : (f .fragment fragment).result = .ok fragment') :
    (mapStages f ⟨some vertex, some fragment⟩).result =
      .ok ⟨some vertex', some fragment'⟩ := by
  unfold mapStages
  rw [result_bind_of_ok rfl, result_bind_of_ok hvertex, result_bind_of_ok rfl,
    result_bind_of_ok hfragment, result_pure]

theorem mapStages_eq_ok (h : (mapStages f program).result = .ok result) :
    ∃ vertex fragment vertex' fragment', program = ⟨some vertex, some fragment⟩ ∧
      result = ⟨some vertex', some fragment'⟩ ∧ (f .vertex vertex).result = .ok vertex' ∧
      (f .fragment fragment).result = .ok fragment' := by
  unfold mapStages at h
  obtain ⟨vertex, hvertex, h⟩ := result_bind_eq_ok.1 h
  obtain ⟨vertex', hvertex', h⟩ := result_bind_eq_ok.1 h
  obtain ⟨fragment, hfragment, h⟩ := result_bind_eq_ok.1 h
  obtain ⟨fragment', hfragment', h⟩ := result_bind_eq_ok.1 h
  refine ⟨vertex, fragment, vertex', fragment', ?_, (Except.ok.inj h).symm, hvertex', hfragment'⟩
  obtain ⟨v, w⟩ := program
  have hv : v = some vertex := shader_eq_ok.1 hvertex
  have hw : w = some fragment := shader_eq_ok.1 hfragment
  rw [hv, hw]

end Program

end ShaderMinifier
