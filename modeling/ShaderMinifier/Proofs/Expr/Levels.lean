import ShaderMinifier.Proofs.Expr.Climbing
import ShaderMinifier.Proofs.Statement.Progress

/-
  Reading by levels. A chain of operands and binary operators is read flat, and a stack gives it its
  tree. The same reply is come to by climbing the levels: at a level an operand is read and then,
  for as long as there is an operator that binds at least as tightly, a right operand one level
  further up (`ByLevels`). Neither the loop at a level nor the climbing is bounded; each operator
  and each operand shortens what is left, so that both end on every input (`exists_byLevels`), and
  the loosest level comes to the reply of the chain (`byLevels_iff`).
-/

namespace ShaderMinifier

/-! ## The stack -/

namespace Expr

variable {pending : Pending} {op : BinaryOp} {left right current next : Expr}
  {others : List (BinaryOp × Expr)}

theorem settle_of_level_le {level : Precedence} (h : Pending.level pending ≤ level) :
    settle level pending current = (pending, current) := by
  cases pending with
  | nil => rfl
  | cons top pending =>
    have hlt : top.2.precedence < level := top.2.tighter_le_iff.1 h
    rw [Precedence.lt_iff] at hlt
    rw [settle, if_neg (by rw [Precedence.le_iff]; omega)]

theorem extendChain_push (h : Pending.level pending ≤ op.precedence) :
    extendChain pending current ((op, next) :: others) =
      extendChain ((current, op) :: pending) next others := by
  rw [extendChain, settle_of_level_le h]

/-- In front of an operator that binds no tighter, the top of the stack has its right operand, and
`extendChain` may pop it at once. -/
theorem extendChain_pop (h : ∀ link ∈ others.head?, link.1.precedence ≤ op.precedence) :
    extendChain ((left, op) :: pending) right others =
      extendChain pending (.binary op left right) others := by
  cases others with
  | nil => rfl
  | cons link others => rw [extendChain, extendChain, settle, if_pos (h link rfl)]

end Expr

namespace Parser

open ShaderMinifier.Expr

/-! ## The chain, link by link -/

/-- An operator and its right operand, which must follow; the body of the loop in `chainOf`. -/
def chainLink (u : Parser Expr) : Parser (BinaryOp × Expr) := do
  let op ← symbolWhere BinaryOp.ofToken?
  let right ← commit u
  return (op, right)

/-- What follows the operand `current` of a chain, with these operands `pending`; the state in which
`extendChain` is. -/
def chainRest (u : Parser Expr) (pending : Pending) (current : Expr) : Parser Expr := do
  let others ← many (chainLink u)
  return extendChain pending current others

theorem symbolWhere_eq_mismatch {α : Type} {choose : String → Option α} {input : List Char}
    (h : ∀ v mid, symbolWhere choose input ≠ .matched v mid) :
    ∃ fault, symbolWhere choose input = .mismatch fault := by
  revert h
  unfold symbolWhere
  split
  · split
    · exact fun h => absurd rfl (h _ _)
    · exact fun _ => ⟨_, rfl⟩
  · exact fun _ => ⟨_, rfl⟩

theorem commit_ne_mismatch {α : Type} {p : Parser α} {input : List Char} {fault : Fault} :
    commit p input ≠ .mismatch fault := by
  unfold commit
  split
  · simp
  · next hp => exact hp fault

theorem takes_chainLink {u : Parser Expr} (hu : Takes u) : Takes (chainLink u) := takes_chainPart hu

section Chain

variable {u : Parser Expr} (hu : Takes u) {pending : Pending} {op : BinaryOp}
  {left right : Expr} (current : Expr) {input mid rest : List Char}

include hu

theorem head_of_many_chainLink {others : List (BinaryOp × Expr)}
    (h : many (chainLink u) input = .matched others rest) :
    ∀ link ∈ others.head?, ∃ mid, symbolWhere BinaryOp.ofToken? input = .matched link.1 mid := by
  rw [(takes_chainLink hu).many_eq] at h
  cases hlink : chainLink u input with
  | matched link mid =>
    obtain ⟨op, afterOp, hop, hright⟩ := matched_bind.1 hlink
    obtain ⟨right, afterRight, -, hpure⟩ := matched_bind.1 hright
    obtain ⟨rfl, -⟩ := matched_pure.1 hpure
    rw [hlink] at h
    dsimp only at h
    cases hmany : many (chainLink u) mid with
    | matched more last =>
      simp only [hmany, Reply.matched.injEq] at h
      obtain ⟨rfl, -⟩ := h
      rintro link ⟨⟩
      exact ⟨afterOp, hop⟩
    | mismatch fault => simp [hmany] at h
    | failure fault => simp [hmany] at h
  | mismatch fault =>
    simp only [hlink, Reply.matched.injEq] at h
    obtain ⟨rfl, -⟩ := h
    simp
  | failure fault => simp [hlink] at h

theorem chainRest_done
    (h : ∀ op mid, symbolWhere BinaryOp.ofToken? input ≠ .matched op mid) :
    chainRest u [] current input = .matched current input := by
  obtain ⟨fault, hop⟩ := symbolWhere_eq_mismatch h
  have hlink : chainLink u input = .mismatch fault := bind_of_mismatch hop
  have hmany : many (chainLink u) input = .matched [] input := by
    simp only [(takes_chainLink hu).many_eq, hlink]
  rw [chainRest, bind_of_matched hmany]
  rfl

theorem chainRest_push (hop : symbolWhere BinaryOp.ofToken? input = .matched op mid)
    (hlevel : Pending.level pending ≤ op.precedence) :
    chainRest u pending current input =
      (commit u >>= chainRest u ((current, op) :: pending)) mid := by
  have hmany := (takes_chainLink hu).many_eq input
  cases hright : commit u mid with
  | matched next rest =>
    have hlink : chainLink u input = .matched (op, next) rest := by
      rw [chainLink, bind_of_matched hop, bind_of_matched hright, pure_apply]
    rw [bind_of_matched hright]
    rw [hlink] at hmany
    dsimp only at hmany
    cases hothers : many (chainLink u) rest with
    | matched others last =>
      rw [hothers] at hmany
      rw [chainRest, chainRest, bind_of_matched hmany, bind_of_matched hothers, pure_apply,
        pure_apply, extendChain_push hlevel]
    | mismatch fault =>
      rw [hothers] at hmany
      rw [chainRest, chainRest, bind_of_mismatch hmany, bind_of_mismatch hothers]
    | failure fault =>
      rw [hothers] at hmany
      rw [chainRest, chainRest, bind_of_failure hmany, bind_of_failure hothers]
  | mismatch fault => exact absurd hright commit_ne_mismatch
  | failure fault =>
    have hlink : chainLink u input = .failure fault := by
      rw [chainLink, bind_of_matched hop, bind_of_failure hright]
    rw [hlink] at hmany
    rw [chainRest, bind_of_failure hmany, bind_of_failure hright]

theorem chainRest_pop
    (h : ∀ next mid, symbolWhere BinaryOp.ofToken? input = .matched next mid →
      next.precedence ≤ op.precedence) :
    chainRest u ((left, op) :: pending) right input =
      chainRest u pending (.binary op left right) input := by
  rw [chainRest, chainRest]
  cases hmany : many (chainLink u) input with
  | matched others last =>
    have hhead : ∀ link ∈ others.head?, link.1.precedence ≤ op.precedence := by
      intro link hlink
      obtain ⟨mid, hop⟩ := head_of_many_chainLink hu hmany link hlink
      exact h _ _ hop
    rw [bind_of_matched hmany, bind_of_matched hmany, pure_apply, pure_apply, extendChain_pop hhead]
  | mismatch fault => rw [bind_of_mismatch hmany, bind_of_mismatch hmany]
  | failure fault => rw [bind_of_failure hmany, bind_of_failure hmany]

end Chain

/-! ## Levels -/

/-- Reading at a level, without a stack. If there is no left operand one is read first; behind a
left operand, an operator that binds at least as tightly as the level takes a right operand, which
is read `ByLevels` at the next tighter level, and the two are the left operand of what follows. -/
inductive ByLevels (u : Parser Expr) : Precedence → Option Expr → List Char → Reply Expr → Prop
  | operand {level : Precedence} {input rest : List Char} {left : Expr} {reply : Reply Expr}
      (h : u input = .matched left rest) (others : ByLevels u level (some left) rest reply) :
    ByLevels u level none input reply
  | noOperand {level : Precedence} {input : List Char} {fault : Fault}
      (h : u input = .mismatch fault) : ByLevels u level none input (.mismatch fault)
  | badOperand {level : Precedence} {input : List Char} {fault : Fault}
      (h : u input = .failure fault) : ByLevels u level none input (.failure fault)
  | done {level : Precedence} {input : List Char} {left : Expr}
      (h : ∀ op mid, symbolWhere BinaryOp.ofToken? input = .matched op mid →
        op.precedence < level) : ByLevels u level (some left) input (.matched left input)
  | operator {level : Precedence} {input mid rest : List Char} {op : BinaryOp} {left right : Expr}
      {reply : Reply Expr} (hop : symbolWhere BinaryOp.ofToken? input = .matched op mid)
      (hlevel : level ≤ op.precedence)
      (operand : ByLevels u op.precedence.tighter none mid (.matched right rest))
      (others : ByLevels u level (some (.binary op left right)) rest reply) :
    ByLevels u level (some left) input reply
  | noRight {level : Precedence} {input mid : List Char} {op : BinaryOp} {left : Expr}
      {fault : Fault} (hop : symbolWhere BinaryOp.ofToken? input = .matched op mid)
      (hlevel : level ≤ op.precedence)
      (operand : ByLevels u op.precedence.tighter none mid (.mismatch fault)) :
    ByLevels u level (some left) input (.failure fault)
  | badRight {level : Precedence} {input mid : List Char} {op : BinaryOp} {left : Expr}
      {fault : Fault} (hop : symbolWhere BinaryOp.ofToken? input = .matched op mid)
      (hlevel : level ≤ op.precedence)
      (operand : ByLevels u op.precedence.tighter none mid (.failure fault)) :
    ByLevels u level (some left) input (.failure fault)

/-- The operand that a reading `ByLevels` starts with: the one given, or else the one that `u`
reads. -/
def startingWith (u : Parser Expr) : Option Expr → Parser Expr
  | none => u
  | some left => pure left

namespace ByLevels

variable {u : Parser Expr} {level : Precedence} {left : Option Expr} {input rest : List Char}
  {reply : Reply Expr} {e : Expr}

theorem looser (h : ByLevels u level left input reply) (hreply : reply = .matched e rest) :
    ∀ op mid, symbolWhere BinaryOp.ofToken? rest = .matched op mid → op.precedence < level := by
  induction h generalizing e rest with
  | operand _ _ ih => exact ih hreply
  | done h =>
    obtain ⟨rfl, rfl⟩ := Reply.matched.inj hreply
    exact h
  | operator _ _ _ _ _ ih => exact ih hreply
  | noOperand | badOperand | noRight | badRight => cases hreply

theorem ne_mismatch {e : Expr} {fault : Fault} (h : ByLevels u level (some e) input reply) :
    reply ≠ .mismatch fault := by
  generalize hleft : some e = left at h
  induction h generalizing e with
  | operand | noOperand | badOperand => cases hleft
  | done | noRight | badRight => simp
  | operator _ _ _ _ _ ih => exact ih rfl

theorem suffix (hu : Takes u) (h : ByLevels u level left input reply)
    (hreply : reply = .matched e rest) :
    rest <:+ input ∧ (left = none → rest.length < input.length) := by
  induction h generalizing e rest with
  | operand h _ ih =>
    have hfirst := hu _ _ _ h
    have hothers := (ih hreply).1
    exact ⟨hothers.trans hfirst.1, fun _ => hothers.length_le.trans_lt hfirst.2⟩
  | done h =>
    obtain ⟨rfl, rfl⟩ := Reply.matched.inj hreply
    exact ⟨List.suffix_refl _, by simp⟩
  | operator hop _ _ _ ihoperand ihothers =>
    have hop := (takes_symbolWhere _ _ _ _ hop).1
    exact ⟨(ihothers hreply).1.trans ((ihoperand rfl).1.trans hop), by simp⟩
  | noOperand | badOperand | noRight | badRight => cases hreply

/-- Going on with `chainRest` where a reading at a level has stopped is going on from its start, if
the operators that wait ask for an operand of this level. -/
theorem bind_chainRest (hu : Takes u) (h : ByLevels u level left input reply) (pending : Pending)
    (hlevel : Pending.level pending = level) :
    (startingWith u left >>= chainRest u pending) input =
      ((fun _ => reply : Parser Expr) >>= chainRest u pending) input := by
  induction h generalizing pending with
  | operand h _ ih =>
    rw [startingWith, bind_of_matched h]
    exact ih pending hlevel
  | noOperand h =>
    rw [startingWith, bind_of_mismatch h]
    rfl
  | badOperand h =>
    rw [startingWith, bind_of_failure h]
    rfl
  | done => rfl
  | @operator level input mid rest op left right reply hop hle hoperand _ ihoperand ihothers =>
    have hpush := chainRest_push hu left hop (hlevel ▸ hle)
    have hright := ihoperand ((left, op) :: pending) rfl
    have hpop : chainRest u ((left, op) :: pending) right rest =
        chainRest u pending (.binary op left right) rest := by
      -- The right operand was read at the level above that of `op`, so what follows is looser.
      refine chainRest_pop hu fun next mid hnext => ?_
      have hlt := hoperand.looser rfl _ _ hnext
      have hrank := op.rank_bounds
      rw [Precedence.lt_iff] at hlt
      rw [Precedence.le_iff]
      omega
    have hcommit : (commit u >>= chainRest u ((left, op) :: pending)) mid =
        (u >>= chainRest u ((left, op) :: pending)) mid := by
      -- The operand matched, so the commitment changes nothing.
      cases hoperand with
      | operand hfirst _ => rw [bind_of_matched hfirst, bind_of_matched (commit_of_matched hfirst)]
    calc chainRest u pending left input
      _ = (u >>= chainRest u ((left, op) :: pending)) mid := hpush.trans hcommit
      _ = chainRest u ((left, op) :: pending) right rest := hright
      _ = chainRest u pending (.binary op left right) rest := hpop
      _ = ((fun _ => reply : Parser Expr) >>= chainRest u pending) rest := ihothers pending hlevel
      _ = ((fun _ => reply : Parser Expr) >>= chainRest u pending) input := by
        cases reply <;> rfl
  | @noRight level input mid op left fault hop hle hoperand _ =>
    have hpush := chainRest_push hu left hop (hlevel ▸ hle)
    have hcommit : commit u mid = .failure fault := by
      cases hoperand with
      | operand _ hothers => exact absurd rfl hothers.ne_mismatch
      | noOperand hfirst => simp only [commit, hfirst]
    exact hpush.trans (bind_of_failure hcommit)
  | @badRight level input mid op left fault hop hle hoperand ihoperand =>
    have hpush := chainRest_push hu left hop (hlevel ▸ hle)
    have hright := ihoperand ((left, op) :: pending) rfl
    refine hpush.trans (Eq.trans ?_ hright)
    cases hoperand with
    | operand hfirst _ =>
      exact (bind_of_matched (commit_of_matched hfirst)).trans (bind_of_matched hfirst).symm
    | badOperand hfirst =>
      have hcommit : commit u mid = .failure fault := by simp only [commit, hfirst]
      exact (bind_of_failure hcommit).trans (bind_of_failure hfirst).symm

end ByLevels

section Levels

variable {u : Parser Expr} (hu : Takes u)

include hu

/-- Reading `ByLevels` ends on every input. By induction on what is left: every operand and every
operator shortens it. -/
theorem exists_byLevels (level : Precedence) (left : Option Expr) (input : List Char) :
    ∃ reply, ByLevels u level left input reply := by
  induction hn : input.length using Nat.strong_induction_on generalizing level left input with
  | _ n ih =>
    subst hn
    cases left with
    | none =>
      cases hfirst : u input with
      | matched e rest =>
        obtain ⟨reply, hothers⟩ := ih _ (hu _ _ _ hfirst).2 level (some e) rest rfl
        exact ⟨reply, .operand hfirst hothers⟩
      | mismatch fault => exact ⟨_, .noOperand hfirst⟩
      | failure fault => exact ⟨_, .badOperand hfirst⟩
    | some e =>
      by_cases hmore : ∃ op mid, symbolWhere BinaryOp.ofToken? input = .matched op mid ∧
          level ≤ op.precedence
      · obtain ⟨op, mid, hop, hlevel⟩ := hmore
        have hmid := (takes_symbolWhere _ _ _ _ hop).2
        obtain ⟨reply, hoperand⟩ := ih _ hmid op.precedence.tighter none mid rfl
        cases reply with
        | matched right rest =>
          have hrest := (hoperand.suffix hu rfl).2 rfl
          obtain ⟨reply, hothers⟩ :=
            ih _ (hrest.trans hmid) level (some (.binary op e right)) rest rfl
          exact ⟨reply, .operator hop hlevel hoperand hothers⟩
        | mismatch fault => exact ⟨_, .noRight hop hlevel hoperand⟩
        | failure fault => exact ⟨_, .badRight hop hlevel hoperand⟩
      · refine ⟨_, .done fun op mid hop => Precedence.not_le.1 fun hlevel => ?_⟩
        exact hmore ⟨op, mid, hop, hlevel⟩

/-- At `logicalOr`, the loosest level of an operator, reading `ByLevels` comes to what `chainOf`
reads. -/
theorem byLevels_iff {input : List Char} {reply : Reply Expr} :
    ByLevels u .logicalOr none input reply ↔ reply = chainOf u input := by
  have hforward : ∀ {reply}, ByLevels u .logicalOr none input reply → reply = chainOf u input := by
    intro reply h
    have hchain : chainOf u input = ((fun _ => reply : Parser Expr) >>= chainRest u []) input :=
      h.bind_chainRest hu [] rfl
    rw [hchain]
    cases reply with
    | matched e rest =>
      refine (chainRest_done hu e fun op mid hop => ?_).symm
      have hlt := h.looser rfl _ _ hop
      have hle := logicalOr_le_precedence op
      rw [Precedence.lt_iff] at hlt
      rw [Precedence.le_iff] at hle
      omega
    | mismatch fault => rfl
    | failure fault => rfl
  refine ⟨hforward, ?_⟩
  rintro rfl
  obtain ⟨reply, h⟩ := exists_byLevels hu .logicalOr none input
  exact hforward h ▸ h

end Levels

end Parser

end ShaderMinifier
