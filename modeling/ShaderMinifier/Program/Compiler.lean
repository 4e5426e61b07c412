import ShaderMinifier.Program.Pass

/-
  Running passes in order: phase by phase, and in a phase in the order in which they were
  registered. `minify` is the whole way from two texts to two shorter ones.
-/

namespace ShaderMinifier

/-- Passes with the phase in which they run, in the order in which they were registered. `schedule`
says in which order they run. -/
structure Compiler where
  steps : List (Phase × Pass)
deriving DecidableEq

namespace Compiler

/-- The passes of a `phase` in the order in which they were registered. -/
def passes (compiler : Compiler) (phase : Phase) : List Pass :=
  compiler.steps.filterMap fun step => if step.1 = phase then some step.2 else none

/-- All passes with their phases, in the order in which they run: by `Phase.all`, and in a phase as
`passes` lists them. -/
def schedule (compiler : Compiler) : List (Phase × Pass) :=
  Phase.all.flatMap fun phase => (compiler.passes phase).map fun pass => (phase, pass)

/-- The passes that make a program short. Dead functions go first so that they claim no names, and
declarations are merged before `renameVariables`. -/
def minifier : Compiler := ⟨Pass.all.map fun pass => (.minification, pass)⟩

/-- Runs a pass after telling so with `Log.Entry.running`, which stays in the log even if the pass
fails. -/
def runStep (program : Program) (step : Phase × Pass) : Logged Program := do
  Logged.tell [.running step.1 step.2.name]
  step.2.run program

/-- Runs passes one after the other with `runStep`. The first that fails ends the run, and what was
told until then stays. -/
def runSteps (program : Program) : List (Phase × Pass) → Logged Program
  | [] => return program
  | step :: steps => do
    let program ← runStep program step
    runSteps program steps

/-- Runs all passes of the compiler in the order of its `schedule`. -/
def compile (compiler : Compiler) (program : Program) : Logged Program :=
  runSteps program compiler.schedule

/-- The program after each pass that succeeds, up to the first that does not. These are the states
that `runSteps` goes through. -/
def snapshots (program : Program) : List (Phase × Pass) → List (Pass × Program)
  | [] => []
  | step :: steps =>
    match (runStep program step).result with
    | .ok program => (step.2, program) :: snapshots program steps
    | .error _ => []

end Compiler

/-- Reads two shaders, makes them short with the passes of `Compiler.minifier` and writes them. -/
def minify (vertex fragment : String) : Except CompileError (String × String) := do
  let program ← Program.parse vertex fragment
  let program ← (Compiler.minifier.compile program).result
  return (← program.emit .vertex, ← program.emit .fragment)

end ShaderMinifier
