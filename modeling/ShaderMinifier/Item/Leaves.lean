import ShaderMinifier.Item.Basic

/-
  The items of a shader with its conditionals opened: those of every branch, in order.
-/

namespace ShaderMinifier

namespace Item

mutual

/-- The items that an item stands for: itself, or those in all branches of a conditional, however
deep. No leaf is a `conditional`. -/
def leaves : Item → List Item
  | conditional _ _ body rest => listLeaves body ++ branchLeaves rest
  | directive line => [.directive line]
  | precision level type => [.precision level type]
  | invariant names => [.invariant names]
  | declaration decl => [.declaration decl]
  | prototype signature => [.prototype signature]
  | function signature body => [.function signature body]

/-- The `leaves` of items in a row, in the order of the text. -/
def listLeaves : List Item → List Item
  | [] => []
  | item :: items => leaves item ++ listLeaves items

/-- The `leaves` of what follows a branch of a conditional, of all its further branches. -/
def branchLeaves : Branches → List Item
  | .done => []
  | .otherwise body => listLeaves body
  | .elif _ body rest => listLeaves body ++ branchLeaves rest

end

/-- The signature of a function or prototype, for what treats the two alike, such as
`retainList`. -/
def signature? : Item → Option Prototype
  | prototype signature | function signature _ => some signature
  | _ => none

end Item

namespace Shader

/-- The items of a shader in every branch. What `CallGraph.ofShader` and the passes see of the
conditionals is only this list. -/
def leaves (shader : Shader) : List Item := Item.listLeaves shader.items

end Shader

end ShaderMinifier
