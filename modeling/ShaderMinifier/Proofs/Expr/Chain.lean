import ShaderMinifier.Expr.Chain
import ShaderMinifier.Proofs.Expr.Shape

/-
  What holds of the tree of a chain. Left operands wait on a stack, and their operators bind tighter
  towards its top (`Waits`); settling the stack gives each operator a right operand of the level
  that it asks for. So a property that the operands have at every level, and that each operator
  passes on from its two operands, holds of the tree (`Composes.ofChain`). The property may speak
  of what stands at the place of the expression, such as its text: at the place of the tree stand
  the operands and the operators in their order.
-/

namespace ShaderMinifier

theorem BinaryOp.precedence_le_unary (op : BinaryOp) : op.precedence ≤ .unary := by
  cases op <;> decide

namespace Expr

theorem logicalOr_le_precedence (op : BinaryOp) : Precedence.logicalOr ≤ op.precedence := by
  cases op <;> decide

/-- The level that the operator on top of the stack asks of its right operand, or `logicalOr` where
no operator waits. -/
def Pending.level : Pending → Precedence
  | [] => .logicalOr
  | (_, op) :: _ => op.precedence.tighter

variable {β : Type} {mark : BinaryOp → List β} {P : Precedence → Expr → List β → Prop}

/-- A property of an expression, of the level of binding that its place asks for and of what stands
at the place, that binary operators pass on. `mark` is what an operator itself contributes. -/
structure Composes (mark : BinaryOp → List β) (P : Precedence → Expr → List β → Prop) : Prop where
  mono : ∀ {a b : Precedence} {e : Expr} {ls : List β}, a ≤ b → P b e ls → P a e ls
  binary : ∀ {op : BinaryOp} {x y : Expr} {ls ms : List β}, P op.precedence x ls →
    P op.precedence.tighter y ms → P op.precedence (.binary op x y) (ls ++ (mark op ++ ms))

/-- Left operands at the levels of their operators, which bind tighter towards the top, and all that
stands there: `P` for the stack of `extendChain`. -/
inductive Waits (mark : BinaryOp → List β) (P : Precedence → Expr → List β → Prop) :
    Pending → List β → Prop
  | nil : Waits mark P [] []
  | cons {left : Expr} {op : BinaryOp} {pending : Pending} {ks ls : List β}
      (hleft : P op.precedence left ls)
      (hbelow : ∀ below ∈ pending.head?, below.2.precedence < op.precedence)
      (hpending : Waits mark P pending ks) :
      Waits mark P ((left, op) :: pending) (ks ++ (ls ++ mark op))

/-- Operators with operands for every level that an operator asks for, and all that stands there:
`P` for what `extendChain` has still to read. -/
inductive Links (mark : BinaryOp → List β) (P : Precedence → Expr → List β → Prop) :
    List (BinaryOp × Expr) → List β → Prop
  | nil : Links mark P [] []
  | cons {op : BinaryOp} {next : Expr} {others : List (BinaryOp × Expr)} {ls ms : List β}
      (hnext : ∀ level, level ≤ .unary → P level next ls) (hothers : Links mark P others ms) :
      Links mark P ((op, next) :: others) (mark op ++ (ls ++ ms))

/-- The operand that a stack without its top waits for (`Pending.level`) may be one with the top's
operator. -/
theorem Pending.level_le {op : BinaryOp} {pending : Pending}
    (h : ∀ below ∈ pending.head?, below.2.precedence < op.precedence) :
    Pending.level pending ≤ op.precedence := by
  cases pending with
  | nil => exact logicalOr_le_precedence op
  | cons below pending =>
    have hlt := h below (by simp)
    have hrank := below.2.rank_bounds
    rw [Precedence.lt_iff] at hlt
    rw [Pending.level, Precedence.le_iff]
    omega

theorem Pending.level_le_unary (pending : Pending) : pending.level ≤ .unary := by
  cases pending with
  | nil => decide
  | cons top pending =>
    have hrank := top.2.rank_bounds
    rw [Pending.level, Precedence.le_iff, Precedence.rank_unary]
    omega

namespace Composes

theorem settleAll (h : Composes mark P) {pending : Pending} {e : Expr} {ks ls : List β}
    (hp : Waits mark P pending ks) (he : P (Pending.level pending) e ls) :
    P .logicalOr (Expr.settleAll pending e) (ks ++ ls) := by
  induction hp generalizing e ls with
  | nil => exact he
  | cons hleft hbelow _ ih =>
    have hbinary := h.mono (Pending.level_le hbelow) (h.binary hleft he)
    rw [List.append_assoc, List.append_assoc]
    exact ih hbinary

/-- `Expr.settle` keeps the stack, gives an operand for the level, and leaves looser operators. -/
theorem settle (h : Composes mark P) {level : Precedence} {pending : Pending} {e : Expr}
    {ks ls : List β} (hp : Waits mark P pending ks) (he : P (Pending.level pending) e ls)
    (hlevel : P level e ls) :
    ∃ ks' ls', ks ++ ls = ks' ++ ls' ∧ Waits mark P (Expr.settle level pending e).1 ks' ∧
      P level (Expr.settle level pending e).2 ls' ∧
      ∀ below ∈ (Expr.settle level pending e).1.head?, below.2.precedence < level := by
  induction hp generalizing e ls with
  | nil => exact ⟨[], ls, rfl, .nil, hlevel, by simp [Expr.settle]⟩
  | @cons left op pending ks ms hleft hbelow hpending ih =>
    rw [Expr.settle]
    split
    · next hle =>
      have hbinary := h.binary hleft he
      obtain ⟨ks', ls', heq, hrest⟩ :=
        ih (h.mono (Pending.level_le hbelow) hbinary) (h.mono hle hbinary)
      refine ⟨ks', ls', ?_, hrest⟩
      rw [← heq, List.append_assoc, List.append_assoc]
    · next hnot =>
      refine ⟨_, ls, rfl, .cons hleft hbelow hpending, hlevel, fun below hin => ?_⟩
      obtain rfl : (left, op) = below := by simpa using hin
      exact Precedence.not_le.1 hnot

theorem extendChain (h : Composes mark P) {others : List (BinaryOp × Expr)} {pending : Pending}
    {e : Expr} {ks ls ms : List β} (hp : Waits mark P pending ks)
    (he : ∀ level, level ≤ .unary → P level e ls) (hothers : Links mark P others ms) :
    P .logicalOr (Expr.extendChain pending e others) (ks ++ (ls ++ ms)) := by
  induction hothers generalizing pending e ks ls with
  | nil =>
    rw [List.append_nil]
    exact h.settleAll hp (he _ pending.level_le_unary)
  | @cons op next others ns ms hnext _ ih =>
    obtain ⟨ks', ls', heq, hstack, hleft, hbelow⟩ := h.settle hp (he _ pending.level_le_unary)
      (he op.precedence op.precedence_le_unary)
    have hstep := ih (.cons hleft hbelow hstack) hnext
    rw [List.append_assoc, List.append_assoc, ← List.append_assoc ks', ← heq,
      List.append_assoc] at hstep
    exact hstep

/-- The property of the operands at all levels is the property of the tree that `Expr.ofChain`
builds of them. -/
theorem ofChain (h : Composes mark P) {first : Expr} {others : List (BinaryOp × Expr)}
    {ls ms : List β} (hfirst : ∀ level, level ≤ .unary → P level first ls)
    (hothers : Links mark P others ms) : P .logicalOr (Expr.ofChain first others) (ls ++ ms) :=
  h.extendChain .nil hfirst hothers

end Composes

end Expr

end ShaderMinifier
