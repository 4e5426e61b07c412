import ShaderMinifier.Function.CallGraph
import ShaderMinifier.ShortName
import ShaderMinifier.Site.DirectiveWord
import ShaderMinifier.Site.Relabel

/-
  Short names for functions. The overloads of a function keep sharing one name. `main`, functions
  named like built-in ones and functions that the preprocessor can see keep their names. The more
  often a function is named, the shorter is its new name.
-/

namespace ShaderMinifier

/-- Old names of functions with their new names, looked up by `Shader.renameFunctions`. -/
abbrev FunctionNames : Type := List (String × String)

/-- Gives each function the first name that is not taken (`ShortName.firstFree`), in order. A name
that was given is taken for the functions after it. -/
def nameFunctions (taken : List String) : List String → FunctionNames
  | [] => []
  | name :: names =>
    let new := ShortName.firstFree taken
    (name, new) :: nameFunctions (new :: taken) names

namespace Shader

/-- The names of the functions that a shader declares, prototypes included, each once and in the
order of their first declarations. -/
def functionNames (shader : Shader) : List String :=
  (shader.sites.filterMap fun
    | ⟨.function _, name⟩ => some name
    | _ => none).eraseDups

/-- Whether the function keeps its name: `main`, a name of a built-in function, and one of the
`words` that the preprocessor can see. -/
def isFixedFunction (words : List String) (name : String) : Bool :=
  name == "main" || Word.isBuiltinFunction name || words.contains name

/-- How often a function is declared or called, over all overloads of its name. `renamedFunctions`
sorts by it. -/
def functionWeight (shader : Shader) (name : String) : Nat :=
  shader.sites.countP fun site => site.role.isFunction && site.name == name

/-- The names that are not those of functions of the shader: of variables, parameters, types and
whatever else is called. None of them may become the name of a function, see `takenByOthers`. -/
def otherNames (shader : Shader) : List String :=
  let functions := shader.functionNames
  shader.sites.filterMap fun site =>
    match site.role with
    | .declared _ _ _ | .parameter | .use | .type => some site.name
    | .callee _ => if functions.contains site.name then none else some site.name
    | .function _ | .field => none

/-- The functions that get a new name, the most often named first. `Sorting.sort` keeps functions of
one weight in the order of `functionNames`. -/
def renamedFunctions (shader : Shader) : List String :=
  let words := shader.directiveWords
  let free := shader.functionNames.filter fun name => !isFixedFunction words name
  let weighted := free.map fun name => (shader.functionWeight name, name)
  (Sorting.sort (fun a b => decide (b.1 < a.1)) weighted).map Prod.snd

/-- The names that no function may get: the `otherNames`, the functions that keep theirs, and the
words of the directives. -/
def takenByOthers (shader : Shader) : List String :=
  let words := shader.directiveWords
  (shader.otherNames ++ shader.functionNames.filter (isFixedFunction words) ++ words).eraseDups

/-- The new names of the functions, given by `nameFunctions` in the order of `renamedFunctions`. -/
def newFunctionNames (shader : Shader) : FunctionNames :=
  nameFunctions shader.takenByOthers shader.renamedFunctions

/-- The shader with new names for its functions, where they are declared and called. Sites with
another role keep their names even if they are spelled alike. -/
def renameFunctions (names : FunctionNames) (shader : Shader) : Shader :=
  shader.mapNames fun site =>
    if site.role.isFunction then (names.lookup site.name).getD site.name else site.name

end Shader

end ShaderMinifier
