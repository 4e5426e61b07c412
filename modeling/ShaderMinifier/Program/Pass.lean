import ShaderMinifier.Function.Live
import ShaderMinifier.Function.Rename
import ShaderMinifier.Item.Merge
import ShaderMinifier.Variable.Allocation

/-
  The passes: transformations of a whole program. Each goes through the vertex stage first and
  needs both stages.
-/

namespace ShaderMinifier

namespace Program

/-- Transforms the vertex shader, then the fragment shader, by `f`. A missing fragment shader is
found only after `f` has told about the vertex shader. -/
def mapStages (f : Stage → Shader → Logged Shader) (program : Program) :
    Logged Program := do
  let vertex ← Logged.ofResult (program.shader .vertex)
  let vertex ← f .vertex vertex
  let fragment ← Logged.ofResult (program.shader .fragment)
  let fragment ← f .fragment fragment
  return ⟨some vertex, some fragment⟩

/-- Drops the functions that cannot be reached in each stage (`Shader.removeDead`). A stage without
`main` fails with `noMain`. -/
def removeDeadFunctions : Program → Logged Program :=
  mapStages fun stage shader =>
    if (CallGraph.ofShader shader).hasMain then do
      Logged.tell (shader.deadFunctions.map (.removed stage))
      return shader.removeDead
    else Logged.ofResult (.error (.noMain stage))

/-- Merges neighbouring declarations in each stage and tells how many declarations
`Shader.mergeDeclarations` has saved. -/
def mergeDeclarations : Program → Logged Program :=
  mapStages fun stage shader => do
    let merged := shader.mergeDeclarations
    Logged.tell [.merged stage (shader.declarationCount - merged.declarationCount)]
    return merged

/-- Gives the variables of both stages short names. The `BindingTable` is built over both stages
first, so a variable that links them gets the same name in each. -/
def renameVariables (program : Program) : Logged Program := do
  let table ← BindingTable.build program
  Logged.tell (table.keptEntries ++ table.renameEntries)
  let names := table.newNames
  mapStages (fun stage shader => do
    let bindings ← Logged.ofResult (table.stage stage)
    Logged.ofResult (shader.checkSites bindings.sites)
    return shader.renameVariables bindings.sites names) program

/-- Gives the functions of each stage short names, each stage by its own `newFunctionNames`. They
are told in the order of the old names. -/
def renameFunctions : Program → Logged Program :=
  mapStages fun stage shader => do
    let names := shader.newFunctionNames
    let listed := Sorting.sort (fun a b => decide (a.1 < b.1)) names
    Logged.tell (listed.map fun entry => .renamedFunction stage entry.1 entry.2)
    return shader.renameFunctions names

end Program

/-- A renamed variable: where it lives, and its names before and after `Program.renameVariables`. -/
structure RenameEntry where
  stage : Stage
  extent : Extent
  old : String
  new : String
deriving DecidableEq

/-- The renamed variables of a program, in the order of their declarations. `ofProgram` computes it
without changing the program. -/
structure RenamePlan where
  entries : List RenameEntry
deriving DecidableEq

namespace RenamePlan

/-- The new name of a global, if it is renamed: what an application looks up for its uniforms and
attributes. Locals of the name are not looked at. -/
def global (plan : RenamePlan) (stage : Stage) (old : String) : Option String :=
  (plan.entries.find? fun e => e.stage = stage && e.extent = .global && e.old = old).map
    RenameEntry.new

/-- The renamed variables of a stage, in the order of `entries`. -/
def ofStage (plan : RenamePlan) (stage : Stage) : List RenameEntry :=
  plan.entries.filter fun e => e.stage = stage

/-- The plan that a table of bindings leads to: an entry for each binding to which `newNames` gives
a name. -/
def ofTable (table : BindingTable) : RenamePlan :=
  ⟨(table.bindings.zip table.newNames).filterMap fun entry =>
    entry.2.map fun new => ⟨entry.1.stage, entry.1.extent, entry.1.name, new⟩⟩

/-- The renames that `Program.renameVariables` would perform. It tells the same and fails in the
same cases, up to the renaming itself. -/
def ofProgram (program : Program) : Logged RenamePlan := do
  let table ← BindingTable.build program
  Logged.tell (table.keptEntries ++ table.renameEntries)
  return ofTable table

end RenamePlan

/-- A transformation of a program, as a value that a `Compiler` can hold and compare. -/
inductive Pass where
  | removeDeadFunctions
  | mergeDeclarations
  | renameVariables
  | renameFunctions
deriving DecidableEq

namespace Pass

def all : List Pass := [removeDeadFunctions, mergeDeclarations, renameVariables, renameFunctions]

/-- The pass's name in messages. `ofName?` goes the other way. -/
def name : Pass → String
  | removeDeadFunctions => "DeadFunctionRemover"
  | mergeDeclarations => "DeclarationConsolidation"
  | renameVariables => "VariableMinifier"
  | renameFunctions => "FunctionMinifier"

/-- The pass of this `name`, if there is one. -/
def ofName? (text : String) : Option Pass := all.find? fun pass => pass.name == text

/-- Runs the pass on a program, each as the function of `Program` of the same name. -/
def run : Pass → Program → Logged Program
  | removeDeadFunctions => Program.removeDeadFunctions
  | mergeDeclarations => Program.mergeDeclarations
  | renameVariables => Program.renameVariables
  | renameFunctions => Program.renameFunctions

end Pass

end ShaderMinifier
