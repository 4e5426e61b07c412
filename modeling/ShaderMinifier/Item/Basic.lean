import ShaderMinifier.Statement.Basic

/-
  Top-level items and whole shaders. Preprocessor conditionals are part of the tree: their
  conditions are kept as text and every branch is kept.
-/

namespace ShaderMinifier

/-- A preprocessor line other than a conditional: `#define A 1` has the name `define` and the value
`A 1`. -/
structure Directive where
  name : String
  value : String
deriving DecidableEq

namespace Directive

/-- The directives that are kept as they are. `Parser.directiveItem` refuses any other name that
opens or ends no branch. -/
def plainNames : List String :=
  ["define", "undef", "pragma", "version", "error", "extension", "line"]

end Directive

/-- How a conditional opens. The condition of all three is kept as text and never evaluated. -/
inductive ConditionalKind where
  | ifTrue
  | ifDefined
  | ifNotDefined
deriving DecidableEq

namespace ConditionalKind

def all : List ConditionalKind := [ifTrue, ifDefined, ifNotDefined]

/-- The opening directive's name as it stands behind the `#`. `ofKeyword?` goes the other way. -/
def keyword : ConditionalKind → String
  | ifTrue => "if"
  | ifDefined => "ifdef"
  | ifNotDefined => "ifndef"

/-- The conditional that a directive of this name opens, if it opens one. -/
def ofKeyword? (word : String) : Option ConditionalKind := all.find? fun k => k.keyword == word

end ConditionalKind

mutual

/-- A top-level item. Conditionals contain items, so the tree of a `Shader` has the shape of its
preprocessor lines. -/
inductive Item where
  | directive (line : Directive)
  /-- An `#if`, `#ifdef` or `#ifndef` with its first branch, and what follows that branch as
  `Branches`. -/
  | conditional (kind : ConditionalKind) (condition : String) (body : List Item) (rest : Branches)
  /-- The default precision of a type, a statement of its own at top level. See
  `Parser.precisionItem`. -/
  | precision (level : Precision) (type : String)
  /-- Variables declared earlier that must not vary between shaders. In a declaration
  `TypeQualifier.invariantVarying` says the same. -/
  | invariant (names : List String)
  | declaration (decl : Declaration)
  | prototype (signature : Prototype)
  | function (signature : Prototype) (body : List Statement)

/-- What follows a branch of a conditional. Every chain of `elif` ends in `otherwise` or `done`, so
an `#else` is always the last branch. -/
inductive Branches where
  | done
  | otherwise (body : List Item)
  | elif (condition : String) (body : List Item) (rest : Branches)

end

namespace Item

mutual

/-- Whether the two items have the same constructors and the same parts. `same_iff` proves that this
is equality. -/
def same : Item → Item → Bool
  | directive x, directive y => x == y
  | conditional k c x r, conditional k' c' x' r' =>
    k == k' && c == c' && sameList x x' && sameBranches r r'
  | precision p t, precision p' t' => p == p' && t == t'
  | invariant xs, invariant ys => xs == ys
  | declaration x, declaration y => x == y
  | prototype x, prototype y => x == y
  | function p x, function p' x' => p == p' && x == x'
  | _, _ => false

/-- Whether the two lists have the same length and, by `same`, the same items. -/
def sameList : List Item → List Item → Bool
  | [], [] => true
  | x :: xs, y :: ys => same x y && sameList xs ys
  | _, _ => false

/-- Whether the two conditionals go on in the same way, with the same conditions and, by `sameList`,
the same items. -/
def sameBranches : Branches → Branches → Bool
  | .done, .done => true
  | .otherwise x, .otherwise y => sameList x y
  | .elif c x r, .elif c' x' r' => c == c' && sameList x x' && sameBranches r r'
  | _, _ => false

end

mutual

theorem same_iff (x y : Item) : same x y = true ↔ x = y := by
  cases x <;> cases y <;>
    simp [same, sameList_iff, sameBranches_iff, and_assoc]

theorem sameList_iff (xs ys : List Item) : sameList xs ys = true ↔ xs = ys := by
  cases xs <;> cases ys <;> simp [sameList, same_iff, sameList_iff]

theorem sameBranches_iff (x y : Branches) : sameBranches x y = true ↔ x = y := by
  cases x <;> cases y <;>
    simp [sameBranches, sameList_iff, sameBranches_iff, and_assoc]

end

instance : DecidableEq Item := fun x y => decidable_of_iff (same x y = true) (same_iff x y)

end Item

/-- A whole shader, the items of one stage. `Program` has one for each `Stage`. -/
structure Shader where
  items : List Item
deriving DecidableEq

end ShaderMinifier
