import ShaderMinifier.Expr.Printer
import ShaderMinifier.Proofs.Grammar.Number

/-
  Which expressions a text can give, and how much nesting reading them takes. An expression is
  `WellFormed` when its names, literals and operands are such as the grammar allows; its `depth`
  is the number of levels that reading its canonical text opens below itself. What a place costs
  on top of that depends only on the expression's precedence there: brackets where it binds looser
  than the place asks, and one level for each unary expression and each assignment around it.
-/

namespace ShaderMinifier

/-! ## Levels of binding -/

namespace Precedence

theorem lt_iff {a b : Precedence} : a < b ↔ a.rank < b.rank := Iff.rfl

theorem le_iff {a b : Precedence} : a ≤ b ↔ a.rank ≤ b.rank := Iff.rfl

theorem not_lt {a b : Precedence} : ¬ a < b ↔ b ≤ a := Nat.not_lt

theorem not_le {a b : Precedence} : ¬ a ≤ b ↔ b < a := Nat.not_le

theorem rank_assignment : rank .assignment = 1 := rfl

theorem rank_unary : rank .unary = 14 := rfl

theorem rank_suffixed : rank .suffixed = 15 := rfl

end Precedence

namespace BinaryOp

theorem rank_bounds (op : BinaryOp) :
    3 ≤ op.precedence.rank ∧ op.precedence.rank ≤ 13 ∧
      op.precedence.tighter.rank = op.precedence.rank + 1 := by
  cases op <;> decide

end BinaryOp

namespace Nesting

/-- Levels to read an expression of precedence `p` and a depth where commas are allowed: those that
`expression` spends on the way down to its operator. -/
def enclosed (p : Precedence) (depth : Nat) : Nat :=
  if p < .assignment then depth else if p < .unary then depth + 1 else depth + 2

/-- Levels to read it before a suffix, where anything looser than `suffixed` is in brackets. -/
def suffixed (p : Precedence) (depth : Nat) : Nat :=
  if p < .suffixed then enclosed p depth else depth

/-- Levels to read it behind a unary operator, where anything looser than `unary` is in brackets. -/
def unary (p : Precedence) (depth : Nat) : Nat :=
  1 + if p < .unary then enclosed p depth else depth

/-- Levels to read it where an operator asks for a level of binding. Inside a chain the rules spend
no level. -/
def operand (level p : Precedence) (depth : Nat) : Nat :=
  if level ≤ p ∧ p < .unary then depth else unary p depth

/-- Levels to read it where commas are not allowed, by the rule `assignment`. -/
def assignment (p : Precedence) (depth : Nat) : Nat := 1 + operand .assignment p depth

theorem suffixed_le_enclosed (p : Precedence) (d : Nat) : suffixed p d ≤ enclosed p d := by
  simp only [suffixed, enclosed, Precedence.lt_iff, Precedence.rank_assignment,
    Precedence.rank_unary, Precedence.rank_suffixed]
  split_ifs <;> omega

theorem unary_le_suffixed (p : Precedence) (d : Nat) : unary p d ≤ suffixed p d + 1 := by
  simp only [unary, suffixed, enclosed, Precedence.lt_iff, Precedence.rank_assignment,
    Precedence.rank_unary, Precedence.rank_suffixed]
  split_ifs <;> omega

theorem operand_le_unary (level p : Precedence) (d : Nat) : operand level p d ≤ unary p d := by
  simp only [operand, unary, enclosed, Precedence.lt_iff, Precedence.rank_assignment,
    Precedence.rank_unary]
  split_ifs <;> omega

theorem operand_le_of_le {a b : Precedence} (hab : a ≤ b) (p : Precedence) (d : Nat) :
    operand a p d ≤ operand b p d := by
  simp only [operand, unary, enclosed, Precedence.lt_iff, Precedence.le_iff,
    Precedence.rank_assignment, Precedence.rank_unary] at *
  split_ifs <;> omega

theorem enclosed_le_assignment (p : Precedence) (d : Nat) : enclosed p d ≤ assignment p d := by
  simp only [assignment, operand, unary, enclosed, Precedence.lt_iff, Precedence.le_iff,
    Precedence.rank_assignment, Precedence.rank_unary]
  split_ifs <;> omega

end Nesting

namespace Expr

/-! ## Induction on expressions -/

/-- Induction on expressions with one hypothesis for each member of a list of expressions, the form
in which all proofs about `Expr` go. -/
@[elab_as_elim, induction_eliminator]
theorem inductionOn {motive : Expr → Prop}
    (identifier : ∀ name, motive (.identifier name))
    (int : ∀ value, motive (.int value))
    (float : ∀ value, motive (.float value))
    (bool : ∀ value, motive (.bool value))
    (unary : ∀ op operand, motive operand → motive (.unary op operand))
    (step : ∀ op operand, motive operand → motive (.step op operand))
    (binary : ∀ op left right, motive left → motive right → motive (.binary op left right))
    (assign : ∀ op left right, motive left → motive right → motive (.assign op left right))
    (ternary : ∀ condition whenTrue whenFalse, motive condition → motive whenTrue →
      motive whenFalse → motive (.ternary condition whenTrue whenFalse))
    (index : ∀ base position, motive base → motive position → motive (.index base position))
    (field : ∀ base name, motive base → motive (.field base name))
    (call : ∀ callee args, (∀ x ∈ args, motive x) → motive (.call callee args))
    (sequence : ∀ items, (∀ x ∈ items, motive x) → motive (.sequence items))
    (e : Expr) : motive e := by
  refine @Expr.rec motive (fun xs => ∀ x ∈ xs, motive x) identifier int float bool unary step
    binary assign ternary index field call sequence (by simp) ?_ e
  intro x xs hx hxs y hy
  rcases List.mem_cons.1 hy with rfl | hy
  · exact hx
  · exact hxs y hy

/-! ## Well-formed expressions -/

mutual

/-- The expression is one that a text can give: its names are words of the right kind, its literals
`Proper`, its assignments have a target, and its sequences two items. -/
def WellFormed : Expr → Prop
  | identifier name => Word.isWord name = true ∧ Word.isReserved name = false
  | int _ | bool _ => True
  | float value => value.Proper
  | unary _ x | step _ x => x.WellFormed
  | binary _ x y => x.WellFormed ∧ y.WellFormed
  | assign _ x y => .unary ≤ x.precedence ∧ x.WellFormed ∧ y.WellFormed
  | ternary x y z => x.WellFormed ∧ y.WellFormed ∧ z.WellFormed
  | index x y => x.WellFormed ∧ y.WellFormed
  | field x name => Word.isWord name = true ∧ x.WellFormed
  | call callee args =>
    Word.isWord callee = true ∧ Word.isTypeName callee = true ∧ AllWellFormed args
  | sequence items => 2 ≤ items.length ∧ AllWellFormed items

def AllWellFormed : List Expr → Prop
  | [] => True
  | x :: xs => x.WellFormed ∧ AllWellFormed xs

end

theorem exists_cons_cons {xs : List Expr} (h : 2 ≤ xs.length) :
    ∃ x y others, xs = x :: y :: others := by
  obtain ⟨x, rest, rfl⟩ := List.exists_cons_of_length_pos (by omega : 0 < xs.length)
  rw [List.length_cons] at h
  obtain ⟨y, others, rfl⟩ := List.exists_cons_of_length_pos (by omega : 0 < rest.length)
  exact ⟨x, y, others, rfl⟩

theorem allWellFormed_iff {xs : List Expr} : AllWellFormed xs ↔ ∀ x ∈ xs, x.WellFormed := by
  induction xs with
  | nil => simp [AllWellFormed]
  | cons x xs ih => simp [AllWellFormed, ih]

/-! ## Depth -/

mutual

/-- The levels of nesting below the expression's own operator, counted for its operands by
`Nesting`. -/
def depth : Expr → Nat
  | identifier _ | int _ | float _ | bool _ => 0
  | unary _ x => Nesting.unary x.precedence x.depth
  | step _ x =>
    if x.isStep then Nesting.enclosed x.precedence x.depth
    else Nesting.suffixed x.precedence x.depth
  | binary op x y =>
    max (Nesting.operand op.precedence x.precedence x.depth)
      (Nesting.operand op.precedence.tighter y.precedence y.depth)
  | assign _ x y =>
    max (Nesting.unary x.precedence x.depth) (Nesting.assignment y.precedence y.depth)
  | ternary x y z =>
    max (Nesting.operand .logicalOr x.precedence x.depth)
      (max (Nesting.enclosed y.precedence y.depth) (Nesting.assignment z.precedence z.depth))
  | index x y =>
    max (Nesting.suffixed x.precedence x.depth) (Nesting.enclosed y.precedence y.depth)
  | field x _ => Nesting.suffixed x.precedence x.depth
  | call _ args => listDepth args
  | sequence items => listDepth items

/-- The levels of nesting in a list that commas separate, the largest one that an item needs as an
assignment (`Nesting.assignment`). -/
def listDepth : List Expr → Nat
  | [] => 0
  | x :: xs => max (Nesting.assignment x.precedence x.depth) (listDepth xs)

end

/-- Levels to read the expression where commas are allowed, as between brackets or in
`Expr.parse`. -/
def enclosedDepth (e : Expr) : Nat := Nesting.enclosed e.precedence e.depth

/-- Levels to read the expression before a suffix (`Nesting.suffixed`). -/
def suffixedDepth (e : Expr) : Nat := Nesting.suffixed e.precedence e.depth

/-- Levels to read the expression behind a unary operator (`Nesting.unary`). -/
def unaryDepth (e : Expr) : Nat := Nesting.unary e.precedence e.depth

/-- Levels to read the expression where an operator asks for a level of binding
(`Nesting.operand`). -/
def operandDepth (level : Precedence) (e : Expr) : Nat :=
  Nesting.operand level e.precedence e.depth

/-- Levels to read the expression where commas are not allowed (`Nesting.assignment`). -/
def assignmentDepth (e : Expr) : Nat := Nesting.assignment e.precedence e.depth

theorem depth_unary (op : UnaryOp) (x : Expr) : (Expr.unary op x).depth = x.unaryDepth := rfl

theorem depth_step (op : StepOp) (x : Expr) :
    (Expr.step op x).depth = if x.isStep then x.enclosedDepth else x.suffixedDepth := rfl

theorem depth_binary (op : BinaryOp) (x y : Expr) :
    (Expr.binary op x y).depth =
      max (x.operandDepth op.precedence) (y.operandDepth op.precedence.tighter) := rfl

theorem depth_assign (op : AssignOp) (x y : Expr) :
    (Expr.assign op x y).depth = max x.unaryDepth y.assignmentDepth := rfl

theorem depth_ternary (x y z : Expr) :
    (Expr.ternary x y z).depth =
      max (x.operandDepth .logicalOr) (max y.enclosedDepth z.assignmentDepth) := rfl

theorem depth_index (x y : Expr) :
    (Expr.index x y).depth = max x.suffixedDepth y.enclosedDepth := rfl

theorem depth_field (x : Expr) (name : String) : (Expr.field x name).depth = x.suffixedDepth := rfl

theorem depth_call (callee : String) (args : List Expr) :
    (Expr.call callee args).depth = listDepth args := rfl

theorem depth_sequence (items : List Expr) : (Expr.sequence items).depth = listDepth items := rfl

theorem listDepth_le_iff {xs : List Expr} {room : Nat} :
    listDepth xs ≤ room ↔ ∀ x ∈ xs, x.assignmentDepth ≤ room := by
  induction xs with
  | nil => simp [listDepth]
  | cons x xs ih => simp [listDepth, ih, assignmentDepth]

theorem itemPieces_eq_map (xs : List Expr) : itemPieces xs = xs.map (piecesAt .assignment) := by
  induction xs with
  | nil => rfl
  | cons x xs ih => rw [itemPieces, ih, List.map_cons, piecesAt]

/-! ## Pieces, place by place -/

theorem pieces_unary (op : UnaryOp) (x : Expr) :
    (Expr.unary op x).pieces = .token op.token :: x.piecesAt .unary := by
  rw [pieces, piecesAt]

theorem pieces_binary (op : BinaryOp) (x y : Expr) :
    (Expr.binary op x y).pieces =
      x.piecesAt op.precedence ++ .token op.token :: y.piecesAt op.precedence.tighter := by
  rw [pieces, piecesAt, piecesAt]

theorem pieces_assign (op : AssignOp) (x y : Expr) :
    (Expr.assign op x y).pieces =
      x.piecesAt .unary ++ .token op.token :: y.piecesAt .assignment := by
  rw [pieces, piecesAt, piecesAt]

theorem pieces_ternary (x y z : Expr) :
    (Expr.ternary x y z).pieces = x.piecesAt .logicalOr ++ .token "?" ::
      (y.pieces ++ .token ":" :: z.piecesAt .assignment) := by
  simp [pieces, piecesAt]

theorem pieces_index (x y : Expr) :
    (Expr.index x y).pieces =
      x.piecesAt .suffixed ++ .token "[" :: (y.pieces ++ [Piece.token "]"]) := by
  simp [pieces, piecesAt]

theorem pieces_field (x : Expr) (name : String) :
    (Expr.field x name).pieces = x.piecesAt .suffixed ++ [Piece.token ".", .token name] := by
  rw [pieces, piecesAt]

theorem pieces_sequence (items : List Expr) :
    (Expr.sequence items).pieces = Piece.commaSeparated (items.map (piecesAt .assignment)) := by
  rw [pieces, itemPieces_eq_map]

theorem piecesAt_of_le {level : Precedence} {e : Expr} (h : level ≤ e.precedence) :
    e.piecesAt level = e.pieces := by
  rw [piecesAt, slotted, if_neg]
  rw [Precedence.le_iff] at h
  rw [Precedence.lt_iff]
  omega

theorem piecesAt_of_lt {level : Precedence} {e : Expr} (h : e.precedence < level) :
    e.piecesAt level = Piece.parenthesized e.pieces := by
  rw [piecesAt, slotted, if_pos h]

end Expr

end ShaderMinifier
