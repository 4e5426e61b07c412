import ShaderMinifier.Expr.Basic

/-
  Equality of expressions is decidable. `same` compares two trees constructor by constructor;
  `same_iff` says that it answers equality.
-/

namespace ShaderMinifier

namespace Expr

mutual

/-- Whether the two trees have the same constructors and the same leaves. `same_iff` proves that
this is equality. -/
def same : Expr → Expr → Bool
  | identifier x, identifier y => x == y
  | int x, int y => x == y
  | float x, float y => x == y
  | bool x, bool y => x == y
  | unary op x, unary op' y => op == op' && same x y
  | step op x, step op' y => op == op' && same x y
  | binary op x y, binary op' x' y' => op == op' && same x x' && same y y'
  | assign op x y, assign op' x' y' => op == op' && same x x' && same y y'
  | ternary x y z, ternary x' y' z' => same x x' && same y y' && same z z'
  | index x y, index x' y' => same x x' && same y y'
  | field x name, field x' name' => same x x' && name == name'
  | call f args, call f' args' => f == f' && sameList args args'
  | sequence items, sequence items' => sameList items items'
  | _, _ => false

/-- Whether the two lists have the same length and, by `same`, the same trees. -/
def sameList : List Expr → List Expr → Bool
  | [], [] => true
  | x :: xs, y :: ys => same x y && sameList xs ys
  | _, _ => false

end

mutual

theorem same_iff (x y : Expr) : same x y = true ↔ x = y := by
  cases x <;> cases y <;>
    simp [same, same_iff, sameList_iff, and_assoc]

theorem sameList_iff (xs ys : List Expr) : sameList xs ys = true ↔ xs = ys := by
  cases xs <;> cases ys <;> simp [sameList, same_iff, sameList_iff]

end

instance : DecidableEq Expr := fun x y => decidable_of_iff (same x y = true) (same_iff x y)

end Expr

end ShaderMinifier
