import ShaderMinifier.Item.Leaves
import ShaderMinifier.Site.Event

/-
  Which functions of a shader call which, over all branches of its conditionals, and which can
  be reached at all. Calls tell functions apart by name and number of parameters: overloads that
  differ only in the types of their parameters have one key. Keys are listed in order and without
  repetition, by a sort in which elements that the order does not tell apart keep their places.
-/

namespace ShaderMinifier

/-! ## Sorting -/

namespace Sorting

variable {α : Type}

/-- Puts `x` behind the elements that have to stand before it by `before`, in front of the first one
that need not. -/
def insert (before : α → α → Bool) (x : α) : List α → List α
  | [] => [x]
  | y :: ys => if before y x then y :: insert before x ys else x :: y :: ys

/-- The list in the order `before`, which says what has to stand before what. This is insertion
sort, and elements that `before` does not tell apart keep their places. -/
def sort (before : α → α → Bool) (xs : List α) : List α := xs.foldr (insert before) []

/-- The members of a list, each once, in the order `before`: `sort` after repetitions are erased. -/
def distinct [DecidableEq α] (before : α → α → Bool) (xs : List α) : List α :=
  sort before xs.eraseDups

/-- Texts, each once, in the order of their code points; `distinct` for strings. -/
def distinctTexts (texts : List String) : List String :=
  distinct (fun a b => decide (a < b)) texts

end Sorting

/-! ## Keys of functions -/

/-- A function, identified by its name and its number of parameters. Overloads that differ only in
the types of their parameters have one `FunctionKey`. -/
structure FunctionKey where
  name : String
  arity : Nat
deriving DecidableEq

namespace FunctionKey

/-- The key of the function that the signature `p` declares. -/
def ofPrototype (p : Prototype) : FunctionKey := ⟨p.name, p.arity⟩

/-- The key as the log shows it, such as `f/2`. -/
def text (key : FunctionKey) : String := key.name ++ "/" ++ key.arity.repr

/-- The order of keys: by name, then by number of parameters. `distinct` lists keys in it. -/
def before (a b : FunctionKey) : Bool :=
  decide (a.name < b.name) || (a.name == b.name && decide (a.arity < b.arity))

/-- Keys, each once, in the order `before`. -/
def distinct (keys : List FunctionKey) : List FunctionKey := Sorting.distinct before keys

end FunctionKey

/-! ## Calls -/

/-- The calls in a shader, in all branches of its conditionals. `ofShader` collects them and
`reachable` follows them. -/
structure CallGraph where
  /-- Each function with a body, and what is called in its definition. A key may occur more than
  once, since `FunctionKey` does not see types; `calls` joins them. -/
  definitions : List (FunctionKey × List FunctionKey)
  /-- What is called outside every function, in the initial values of globals. Every run makes these
  calls, so they are among the `roots`. -/
  globalCalls : List FunctionKey
  /-- Functions that are kept whether or not they are called. `pin` adds those that the preprocessor
  can see. -/
  pinned : List FunctionKey

namespace CallGraph

/-- The functions that an item calls, read off the sites of its `events` with the role `callee`. -/
def callees (item : Item) : List FunctionKey :=
  item.events.filterMap fun
    | .site ⟨.callee arity, name⟩ => some ⟨name, arity⟩
    | _ => none

/-- The function that an item defines, and what it calls. A prototype defines nothing, so its key is
not in `definitions`. -/
def definition? (item : Item) : Option (FunctionKey × List FunctionKey) :=
  match item with
  | .function signature _ => some (.ofPrototype signature, callees item)
  | _ => none

/-- What an item calls outside every function, the contribution of an item to `globalCalls`. -/
def outerCallees (item : Item) : List FunctionKey :=
  match item with
  | .function _ _ => []
  | _ => callees item

/-- The call graph of a shader over all its `leaves`. Nothing is pinned yet. -/
def ofShader (shader : Shader) : CallGraph where
  definitions := shader.leaves.filterMap definition?
  globalCalls := shader.leaves.flatMap outerCallees
  pinned := []

/-- The functions with a body, the keys of `definitions`. A key is repeated for each definition. -/
def defined (graph : CallGraph) : List FunctionKey := graph.definitions.map Prod.fst

/-- What the definitions of a function call, all those in `definitions` under this key taken
together. -/
def calls (graph : CallGraph) (key : FunctionKey) : List FunctionKey :=
  (graph.definitions.filter fun definition => definition.1 == key).flatMap Prod.snd

/-- Whether a function named `main` has a body, with any number of parameters. A program without one
is refused (`noMain`). -/
def hasMain (graph : CallGraph) : Bool := graph.defined.any fun key => key.name == "main"

/-- Also keeps the functions with a body that have one of these names, by adding them to `pinned`.
Without parameters to go by, every overload is kept. -/
def pin (names : List String) (graph : CallGraph) : CallGraph :=
  { graph with
    pinned := graph.pinned ++ graph.defined.filter fun key => names.contains key.name }

/-- Where every run can start: the definitions of `main`, the `globalCalls`, and what is
`pinned`. -/
def roots (graph : CallGraph) : List FunctionKey :=
  (graph.defined.filter fun key => key.name == "main") ++ graph.globalCalls ++ graph.pinned

/-- The functions other than this one. `length_without_lt` is what makes `closure` terminate. -/
def without (key : FunctionKey) (keys : List FunctionKey) : List FunctionKey :=
  keys.filter fun other => other ≠ key

theorem length_without_lt {key : FunctionKey} {keys : List FunctionKey} (member : key ∈ keys) :
    (without key keys).length < keys.length :=
  List.length_filter_lt_length_iff_exists.2 ⟨key, member, by simp⟩

/-- The functions of `unseen` that can be reached from `pending` along `next`. A function is
followed once, when it leaves `unseen`. -/
def closure (next : FunctionKey → List FunctionKey) (unseen pending : List FunctionKey) :
    List FunctionKey :=
  match pending with
  | [] => []
  | key :: pending =>
    if key ∈ unseen then key :: closure next (without key unseen) (next key ++ pending)
    else closure next unseen pending
termination_by (unseen.length, pending.length)
decreasing_by
  · exact Prod.Lex.left _ _ (length_without_lt (by assumption))
  · exact Prod.Lex.right _ (by simp)

/-- The functions that can be reached from the `roots`. Everything that is called anywhere is
`unseen` at first, so `closure` stops only where there is nothing new. -/
def reachable (graph : CallGraph) : List FunctionKey :=
  closure graph.calls (graph.roots ++ graph.definitions.flatMap Prod.snd) graph.roots

end CallGraph

end ShaderMinifier
