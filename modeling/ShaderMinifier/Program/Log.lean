import ShaderMinifier.Function.CallGraph
import ShaderMinifier.Program.Error

/-
  What is told about a compilation while it runs. A computation that fails keeps what it has
  told until then.
-/

namespace ShaderMinifier

/-- A group of passes. The groups run in the order of `Phase.all`, whatever the order of
registration. -/
inductive Phase where
  | optimization
  | minification
deriving DecidableEq

namespace Phase

def all : List Phase := [optimization, minification]

/-- The phase's name as `Entry.running` shows it. -/
def name : Phase → String
  | optimization => "optimization"
  | minification => "minification"

end Phase

/-- Where a variable lives. Two variables of different functions may have one name, which is what
`Slot.meets` decides by it. -/
inductive Extent where
  | global
  /-- A parameter or a local variable of a function. Functions count from zero in each stage, in the
  order in which `Resolver.enter` meets them. -/
  | inFunction (index : Nat)
deriving DecidableEq

/-- The extent as `Entry.text` shows it, for bindings and for renamed variables. -/
def Extent.text : Extent → String
  | global => "Global"
  | inFunction index => "Local \x7b function: " ++ index.repr ++ " \x7d"

namespace Log

/-- How closely one has to look to see an entry. `debug` is for whole passes and their effect,
`trace` for single names. -/
inductive Level where
  | debug
  | trace
deriving DecidableEq

/-- Something that happened, in the words of `Entry.text`. -/
inductive Entry where
  | running (phase : Phase) (pass : String)
  | merged (stage : Stage) (count : Nat)
  | removed (stage : Stage) (key : FunctionKey)
  | keeping (stage : Stage) (name : String)
  | binding (stage : Stage) (name : String) (extent : Extent)
  | renamed (stage : Stage) (extent : Extent) (old new : String)
  | renamedFunction (stage : Stage) (old new : String)
deriving DecidableEq

namespace Entry

/-- The level of an entry: single bindings and renames are at `trace`, everything else is at
`debug`. -/
def level : Entry → Level
  | running _ _ | merged _ _ | removed _ _ | keeping _ _ => .debug
  | binding _ _ _ | renamed _ _ _ _ | renamedFunction _ _ _ => .trace

/-- The entry in words, with the stage's name first where it belongs to one. -/
def text : Entry → String
  | running phase pass => "running " ++ phase.name ++ " pass " ++ pass
  | merged stage count => stage.name ++ " shader: merged " ++ count.repr ++ " declarations"
  | removed stage key => stage.name ++ " shader: removed dead function " ++ key.text
  | keeping stage name => stage.name ++ " shader: keeping " ++ name
  | binding stage name extent => stage.name ++ " binding " ++ name ++ " " ++ extent.text
  | renamed stage extent old new =>
    stage.name ++ " shader: " ++ extent.text ++ " " ++ old ++ " -> " ++ new
  | renamedFunction stage old new =>
    stage.name ++ " shader: function " ++ old ++ " -> " ++ new

end Entry

end Log

/-- A result, or an error, with what was told on the way to it. In contrast to a state, the `log`
survives the error. -/
structure Logged (α : Type) where
  log : List Log.Entry
  result : Except CompileError α

namespace Logged

variable {α β : Type}

/-- A value about which there is nothing to tell; the unit of `Logged.bind`. -/
protected def pure (value : α) : Logged α := ⟨[], .ok value⟩

/-- Goes on with a value and appends what `next` tells. After an error nothing more happens, but the
`log` of `first` stays. -/
protected def bind (first : Logged α) (next : α → Logged β) : Logged β :=
  match first.result with
  | .ok value =>
    let second := next value
    ⟨first.log ++ second.log, second.result⟩
  | .error e => ⟨first.log, .error e⟩

instance : Monad Logged where
  pure := Logged.pure
  bind := Logged.bind

/-- A result, or an error, about which there is nothing to tell. -/
def ofResult (result : Except CompileError α) : Logged α := ⟨[], result⟩

/-- Tells these entries. There is no result but `()`, so it is used for its `log` alone. -/
def tell (entries : List Log.Entry) : Logged Unit := ⟨entries, .ok ()⟩

end Logged

end ShaderMinifier
