import ShaderMinifier.Declaration.Basic
import ShaderMinifier.Text.Location

/-
  What can go wrong with a shader program.
-/

namespace ShaderMinifier

/-- Why a program cannot be compiled. Only `malformed` comes from a text, the others say that a pass
was given what it cannot work with. -/
inductive CompileError where
  /-- The text of a stage is not a shader, with the error of `Shader.parse`. -/
  | malformed (e : SyntaxError)
  /-- The program lacks a stage that a pass or `Program.emit` asks for. -/
  | noShader (stage : Stage)
  /-- Nothing is known of the variables of a stage in the `BindingTable`. -/
  | noBindings (stage : Stage)
  /-- A stage does not define `main`, so `Program.removeDeadFunctions` would drop everything. -/
  | noMain (stage : Stage)
  /-- A shader has not as many variable sites as were resolved, which `Shader.checkSites` finds out
  before it renames. -/
  | siteCount (found expected : Nat)
deriving DecidableEq

namespace CompileError

/-- The error in words, without its kind. For `malformed` it is the message of the syntax error,
without the place. -/
def message : CompileError → String
  | malformed e => e.message
  | noShader stage => "shader program has no " ++ stage.name ++ " shader"
  | noBindings stage => "no bindings collected for the " ++ stage.name ++ " shader"
  | noMain stage => stage.name ++ " shader has no main function"
  | siteCount found expected =>
    "renamer visited " ++ found.repr ++ " name sites, expected " ++ expected.repr

/-- The error as a sentence: `SyntaxError.display` with the place, or the `message` behind the name
of the kind. -/
def display : CompileError → String
  | malformed e => e.display
  | e => "Structural invariant violated: " ++ e.message

end CompileError

end ShaderMinifier
