import ShaderMinifier.Declaration.Basic

/-
  Statements and their decidable equality.
-/

namespace ShaderMinifier

/-- A statement without statements inside, all that may stand first in the head of a `forLoop`. -/
inductive SimpleStatement where
  | declaration (decl : Declaration)
  | expression (value : Option Expr)
deriving DecidableEq

/-- A statement. `ifThen` and `ifElse` are apart, so that the writer sees where an `else` could be
taken by the wrong `if`. -/
inductive Statement where
  | block (body : List Statement)
  | simple (stmt : SimpleStatement)
  | ifThen (condition : Expr) (body : Statement)
  | ifElse (condition : Expr) (whenTrue whenFalse : Statement)
  | whileLoop (condition : Expr) (body : Statement)
  | doWhile (body : Statement) (condition : Expr)
  | forLoop (init : SimpleStatement) (condition step : Option Expr) (body : Statement)
  | continueLoop
  | breakLoop
  | returnValue (value : Option Expr)
  | discard

namespace Statement

/-- A declaration as a statement, short for `simple`; `mergeRuns` builds merged declarations with
it. -/
def declaration (decl : Declaration) : Statement := .simple (.declaration decl)

mutual

/-- Whether the two statements have the same constructors and the same parts. `same_iff` proves that
this is equality. -/
def same : Statement → Statement → Bool
  | block xs, block ys => sameList xs ys
  | simple x, simple y => x == y
  | ifThen c x, ifThen c' x' => c == c' && same x x'
  | ifElse c x y, ifElse c' x' y' => c == c' && same x x' && same y y'
  | whileLoop c x, whileLoop c' x' => c == c' && same x x'
  | doWhile x c, doWhile x' c' => same x x' && c == c'
  | forLoop i c s x, forLoop i' c' s' x' => i == i' && c == c' && s == s' && same x x'
  | continueLoop, continueLoop => true
  | breakLoop, breakLoop => true
  | returnValue v, returnValue v' => v == v'
  | discard, discard => true
  | _, _ => false

/-- Whether the two lists have the same length and, by `same`, the same statements. -/
def sameList : List Statement → List Statement → Bool
  | [], [] => true
  | x :: xs, y :: ys => same x y && sameList xs ys
  | _, _ => false

end

mutual

theorem same_iff (x y : Statement) : same x y = true ↔ x = y := by
  cases x <;> cases y <;> simp [same, same_iff, sameList_iff, and_assoc]

theorem sameList_iff (xs ys : List Statement) : sameList xs ys = true ↔ xs = ys := by
  cases xs <;> cases ys <;> simp [sameList, same_iff, sameList_iff]

end

instance : DecidableEq Statement := fun x y =>
  decidable_of_iff (same x y = true) (same_iff x y)

end Statement

end ShaderMinifier
