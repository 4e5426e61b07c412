import ShaderMinifier.Program.Error
import ShaderMinifier.Tree

/-
  A vertex shader and a fragment shader that are linked together. Either may be absent while a
  program is being put together.
-/

namespace ShaderMinifier

/-- The shaders of a program, one for each `Stage`. Either may be absent, and a pass that needs it
then fails with `noShader`. -/
structure Program where
  vertex : Option Shader
  fragment : Option Shader
deriving DecidableEq

namespace Program

/-- The program without shaders, to be filled by `set`. -/
def empty : Program := ⟨none, none⟩

/-- The shader of a stage, if it is there. `shader` is the same with an error. -/
def shader? (program : Program) : Stage → Option Shader
  | .vertex => program.vertex
  | .fragment => program.fragment

/-- The program with another shader, or none, in a stage. The other stage stays as it is. -/
def set (program : Program) (stage : Stage) (shader : Option Shader) : Program :=
  match stage with
  | .vertex => { program with vertex := shader }
  | .fragment => { program with fragment := shader }

/-- The shader of a stage, which must be there: otherwise the error is `noShader`. -/
def shader (program : Program) (stage : Stage) : Except CompileError Shader :=
  match program.shader? stage with
  | some shader => .ok shader
  | none => .error (.noShader stage)

/-- Reads one shader with `Shader.parse` and makes its syntax error a `CompileError`. -/
def parseStage (stage : Stage) (source : String) : Except CompileError Shader :=
  (Shader.parse source stage).mapError .malformed

/-- Reads both shaders, the vertex shader first, so its error is the one reported if both are
`malformed`. -/
def parse (vertex fragment : String) : Except CompileError Program := do
  let vertex ← parseStage .vertex vertex
  let fragment ← parseStage .fragment fragment
  return ⟨some vertex, some fragment⟩

/-- The canonical text of a stage, `Shader.emit` of the shader there, or the error `noShader`. -/
def emit (program : Program) (stage : Stage) : Except CompileError String := do
  return (← program.shader stage).emit

end Program

end ShaderMinifier
