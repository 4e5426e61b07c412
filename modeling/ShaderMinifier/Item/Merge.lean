import ShaderMinifier.Item.Basic

/-
  Merging declarations: variables of one type that are declared next to each other are declared
  together. Only neighbours in one list are merged, at top level, in a branch of a conditional
  and in a block; a declaration that spells out a struct stays alone.
-/

namespace ShaderMinifier

namespace Declaration

/-- Whether the declarations can be written as one: they have the same type, which is not a struct
spelled out (`isStruct`), and both declare variables. -/
def canMerge (first second : Declaration) : Bool :=
  !first.type.specifier.isStruct && first.type == second.type &&
    !first.declarators.isEmpty && !second.declarators.isEmpty

/-- The variables of both declarations, with the type of the first, which is that of the second too
where `canMerge` holds. -/
def merge (first second : Declaration) : Declaration :=
  ⟨first.type, first.declarators ++ second.declarators⟩

end Declaration

section Runs

variable {α : Type}

/-- The element `x` before a list whose own neighbours are merged. If `x` and the first element are
declarations with `canMerge`, they become one. -/
def mergeInto (declaration? : α → Option Declaration) (ofDeclaration : Declaration → α) (x : α) :
    List α → List α
  | [] => [x]
  | y :: ys =>
    match declaration? x, declaration? y with
    | some first, some second =>
      if first.canMerge second then ofDeclaration (first.merge second) :: ys else x :: y :: ys
    | _, _ => x :: y :: ys

/-- The list with neighbouring declarations merged, from its end on by `mergeInto`. Statements and
items share it, each with its own `declaration?`. -/
def mergeRuns (declaration? : α → Option Declaration) (ofDeclaration : Declaration → α)
    (xs : List α) : List α :=
  xs.foldr (mergeInto declaration? ofDeclaration) []

end Runs

namespace Statement

/-- The declaration that a statement is, if it is one; the head of a `for` loop is no statement of
its own. -/
def declaration? : Statement → Option Declaration
  | simple (.declaration decl) => some decl
  | _ => none

mutual

/-- The statement with the declarations in its blocks merged by `mergeRuns`. A statement that is no
block has no neighbours. -/
def merge : Statement → Statement
  | block body => block (mergeRuns declaration? declaration (mergeEach body))
  | simple stmt => simple stmt
  | ifThen condition body => ifThen condition (merge body)
  | ifElse condition whenTrue whenFalse => ifElse condition (merge whenTrue) (merge whenFalse)
  | whileLoop condition body => whileLoop condition (merge body)
  | doWhile body condition => doWhile (merge body) condition
  | forLoop init condition step body => forLoop init condition step (merge body)
  | continueLoop => continueLoop
  | breakLoop => breakLoop
  | returnValue value => returnValue value
  | discard => discard

/-- The statements, each merged inside by `merge`, but not yet with each other. -/
def mergeEach : List Statement → List Statement
  | [] => []
  | stmt :: body => merge stmt :: mergeEach body

end

/-- The statements of a block, merged inside by `mergeEach` and with each other by `mergeRuns`. -/
def mergeList (body : List Statement) : List Statement :=
  mergeRuns declaration? declaration (mergeEach body)

mutual

/-- The number of declarations in a statement, blocks included. The head of a `for` loop is not
counted, since `merge` leaves it alone. -/
def declarationCount : Statement → Nat
  | block body => listDeclarationCount body
  | simple (.declaration _) => 1
  | simple (.expression _) => 0
  | ifThen _ body => declarationCount body
  | ifElse _ whenTrue whenFalse => declarationCount whenTrue + declarationCount whenFalse
  | whileLoop _ body => declarationCount body
  | doWhile body _ => declarationCount body
  | forLoop _ _ _ body => declarationCount body
  | continueLoop | breakLoop | returnValue _ | discard => 0

/-- The number of declarations in statements, the sum of their `declarationCount`. -/
def listDeclarationCount : List Statement → Nat
  | [] => 0
  | stmt :: body => declarationCount stmt + listDeclarationCount body

end

end Statement

namespace Item

/-- The declaration that an item is, if it is one. -/
def declaration? : Item → Option Declaration
  | declaration decl => some decl
  | _ => none

mutual

/-- The item with the declarations in its blocks and branches merged. A branch is a list of its own,
so nothing merges across a preprocessor line. -/
def merge : Item → Item
  | conditional kind condition body rest =>
    conditional kind condition (mergeRuns declaration? declaration (mergeEach body))
      (mergeBranches rest)
  | function signature body => function signature (Statement.mergeList body)
  | directive line => directive line
  | precision level type => precision level type
  | invariant names => invariant names
  | declaration decl => declaration decl
  | prototype signature => prototype signature

/-- The items, each merged inside by `merge`, but not yet with each other. -/
def mergeEach : List Item → List Item
  | [] => []
  | item :: items => merge item :: mergeEach items

/-- What follows a branch of a conditional, with the declarations of each further branch merged by
`mergeRuns`. -/
def mergeBranches : Branches → Branches
  | .done => .done
  | .otherwise body => .otherwise (mergeRuns declaration? declaration (mergeEach body))
  | .elif condition body rest =>
    .elif condition (mergeRuns declaration? declaration (mergeEach body)) (mergeBranches rest)

end

/-- Items in a row, merged inside by `mergeEach` and with each other by `mergeRuns`. -/
def mergeList (items : List Item) : List Item :=
  mergeRuns declaration? declaration (mergeEach items)

mutual

/-- The number of declarations in an item, those in bodies and in all branches included
(`Statement.declarationCount`). -/
def declarationCount : Item → Nat
  | conditional _ _ body rest => listDeclarationCount body + branchDeclarationCount rest
  | function _ body => Statement.listDeclarationCount body
  | declaration _ => 1
  | directive _ | precision _ _ | invariant _ | prototype _ => 0

/-- The number of declarations in items, the sum of their `declarationCount`. -/
def listDeclarationCount : List Item → Nat
  | [] => 0
  | item :: items => declarationCount item + listDeclarationCount items

/-- The number of declarations in what follows a branch of a conditional, in all further
branches. -/
def branchDeclarationCount : Branches → Nat
  | .done => 0
  | .otherwise body => listDeclarationCount body
  | .elif _ body rest => listDeclarationCount body + branchDeclarationCount rest

end

end Item

namespace Shader

/-- The shader with neighbouring declarations merged, at top level, in branches and in bodies
(`Item.mergeList`). -/
def mergeDeclarations (shader : Shader) : Shader := ⟨Item.mergeList shader.items⟩

/-- The number of declarations in a shader, those in the head of a `for` loop apart. The log says by
how many `mergeDeclarations` lowers it. -/
def declarationCount (shader : Shader) : Nat := Item.listDeclarationCount shader.items

end Shader

end ShaderMinifier
