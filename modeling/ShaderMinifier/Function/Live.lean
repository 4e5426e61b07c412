import ShaderMinifier.Function.CallGraph
import ShaderMinifier.Site.DirectiveWord
import ShaderMinifier.Word

/-
  Dropping functions that no run can reach. What can be reached is found once, before anything is
  dropped, so a function called only by dropped ones is dropped too, and prototypes go with their
  function. Every branch of a conditional counts, and a function that the preprocessor can see is
  kept, since a macro may call it.
-/

namespace ShaderMinifier

namespace Item

mutual

/-- The items in a row without the functions and prototypes that `keep` refuses. Those in the
branches of a conditional go as well, the conditional itself stays. -/
def retainList (keep : FunctionKey → Bool) : List Item → List Item
  | [] => []
  | conditional kind condition body rest :: items =>
    conditional kind condition (retainList keep body) (retainBranches keep rest) ::
      retainList keep items
  | item :: items =>
    if item.signature?.all fun signature => keep (.ofPrototype signature) then
      item :: retainList keep items
    else retainList keep items

/-- What follows a branch of a conditional, with `retainList` applied to the items of each further
branch. -/
def retainBranches (keep : FunctionKey → Bool) : Branches → Branches
  | .done => .done
  | .otherwise body => .otherwise (retainList keep body)
  | .elif condition body rest =>
    .elif condition (retainList keep body) (retainBranches keep rest)

end

end Item

namespace Shader

/-- The functions that can be reached, where those whose name is one of the `directiveWords` count
as called, since a macro may call them. -/
def liveFunctions (shader : Shader) : List FunctionKey :=
  ((CallGraph.ofShader shader).pin shader.directiveWords).reachable

/-- Whether the function is one of the `live` ones, or overloads a built-in one
(`isBuiltinFunction`), which is kept without a call. -/
def isKept (live : List FunctionKey) (key : FunctionKey) : Bool :=
  live.contains key || Word.isBuiltinFunction key.name

/-- The shader without the functions that cannot be reached. The `liveFunctions` are found once,
before anything is dropped. -/
def removeDead (shader : Shader) : Shader :=
  let live := shader.liveFunctions
  ⟨Item.retainList (isKept live) shader.items⟩

/-- The functions that `removeDead` drops, each once and in order, as the log lists them. -/
def deadFunctions (shader : Shader) : List FunctionKey :=
  let live := shader.liveFunctions
  let keys := shader.leaves.filterMap fun item => item.signature?.map FunctionKey.ofPrototype
  FunctionKey.distinct (keys.filter fun key => !isKept live key)

end Shader

end ShaderMinifier
