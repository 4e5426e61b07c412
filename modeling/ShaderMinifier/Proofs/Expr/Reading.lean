import ShaderMinifier.Proofs.Expr.Operand

/-
  Every well-formed expression is read back from its pieces at every place that has enough room.
  An expression is read without brackets at the level of its own operator, and looser levels pass it
  on (`ReadableBare`). Where a place asks for more, the brackets lead back to the loosest level: so
  from `ReadableBare` come all places (`Readable`), one lemma for each. `readable_of_suffixed` to
  `readable_of_sequence` start from the one level an expression is read at, and `readable` is the
  induction.
-/

namespace ShaderMinifier

open Piece

namespace Expr

/-! ## Chains -/

/-- Whatever waits before it and follows behind it, the chain that starts with `first` comes to the
same tree as one in which `e` stands for its first operands. What is `pending` must bind looser than
the level, what follows no tighter. -/
def ChainsTo (e : Expr) (level : Precedence) (first : Expr) (others : List (BinaryOp × Expr)) :
    Prop :=
  ∀ pending tail, (∀ left ∈ pending.head?, left.2.precedence < level) →
    (∀ link ∈ tail.head?, link.1.precedence ≤ level) →
    extendChain pending first (others ++ tail) = extendChain pending e tail

theorem ChainsTo.mono {a b : Precedence} (hab : a ≤ b) {e first : Expr}
    {others : List (BinaryOp × Expr)} (h : e.ChainsTo b first others) :
    e.ChainsTo a first others := by
  rw [Precedence.le_iff] at hab
  refine fun pending tail hp ht => h pending tail (fun l hl => ?_) (fun l hl => ?_)
  · have := hp l hl
    rw [Precedence.lt_iff] at this ⊢
    omega
  · have := ht l hl
    rw [Precedence.le_iff] at this ⊢
    omega

theorem chainsTo_self (level : Precedence) (e : Expr) : e.ChainsTo level e [] :=
  fun _ _ _ _ => rfl

theorem ChainsTo.ofChain {level : Precedence} {e first : Expr} {others : List (BinaryOp × Expr)}
    (h : e.ChainsTo level first others) : Expr.ofChain first others = e := by
  have := h [] [] (by simp) (by simp)
  rwa [List.append_nil] at this

theorem chainsTo_binary {op : BinaryOp} {x y firstX firstY : Expr}
    {othersX othersY : List (BinaryOp × Expr)}
    (hx : x.ChainsTo op.precedence firstX othersX)
    (hy : y.ChainsTo op.precedence.tighter firstY othersY) :
    (Expr.binary op x y).ChainsTo op.precedence firstX (othersX ++ (op, firstY) :: othersY) := by
  intro pending tail hp ht
  have hrank := op.rank_bounds
  -- nothing that waits takes `x`, since it binds looser
  have hsettle : settle op.precedence pending x = (pending, x) := by
    cases pending with
    | nil => rfl
    | cons left pending =>
      obtain ⟨l, lop⟩ := left
      have : lop.precedence < op.precedence := hp (l, lop) (by simp)
      rw [settle, if_neg]
      rw [Precedence.lt_iff] at this
      rw [Precedence.le_iff]
      omega
  calc extendChain pending firstX ((othersX ++ (op, firstY) :: othersY) ++ tail)
      = extendChain pending firstX (othersX ++ (op, firstY) :: (othersY ++ tail)) := by simp
    _ = extendChain pending x ((op, firstY) :: (othersY ++ tail)) :=
        hx _ _ hp (by simp [Precedence.le_iff])
    _ = extendChain ((x, op) :: pending) firstY (othersY ++ tail) := by
        rw [extendChain, hsettle]
    _ = extendChain ((x, op) :: pending) y tail := by
        refine hy _ _ ?_ ?_
        · intro left hleft
          obtain rfl : (x, op) = left := by simpa using hleft
          show op.precedence.rank < op.precedence.tighter.rank
          omega
        · intro link hlink
          have := ht link hlink
          rw [Precedence.le_iff] at this ⊢
          omega
    _ = extendChain pending (.binary op x y) tail := by
        cases tail with
        | nil => rfl
        | cons link tail =>
          obtain ⟨lop, next⟩ := link
          have hle : lop.precedence ≤ op.precedence := ht (lop, next) (by simp)
          rw [extendChain, extendChain, settle, if_pos hle]

end Expr

namespace Parser

/-- An operator of a chain and the operand behind it, the body of the loop in `chainOf`. -/
def link (unary : Parser Expr) : Parser (BinaryOp × Expr) := do
  let op ← symbolWhere BinaryOp.ofToken?
  let right ← commit unary
  return (op, right)

/-! ## From level to level -/

/-- The pieces are read as an operand of `primaryOf` with suffixes, to which more suffixes may be
added. A step may not stand directly behind a step. -/
def ReadsSuffixed (room : Nat) (ps : List Piece) (e : Expr) : Prop :=
  ∀ k, Clean (ps ++ k) → headSymbol? k ≠ some "(" →
    (e.isStep = true → (headSymbol? k).bind StepOp.ofToken? = none) →
    ∃ base suffixes mid, primaryOf (assignment room) (spell (ps ++ k)) = .matched base mid ∧
      Steps (suffixOf (assignment room)) mid suffixes (spell k) ∧
      suffixes.foldl Suffix.attach base = e

/-- The pieces are read as operands with operators between them, to which more may be added;
together they make `e` in the sense of `ChainsTo`. -/
def ReadsChain (room : Nat) (level : Precedence) (ps : List Piece) (e : Expr) : Prop :=
  ∀ k, Clean (ps ++ k) → Stops .unary k →
    ∃ first others mid, unary room (spell (ps ++ k)) = .matched first mid ∧
      mid.length ≤ (spell (ps ++ k)).length ∧
      Steps (link (unary room)) mid others (spell k) ∧ e.ChainsTo level first others

variable {room : Nat} {ps : List Piece} {e : Expr} {level : Precedence}

theorem readsSuffixed_of_primary
    (h : ∀ k, Clean (ps ++ k) → headSymbol? k ≠ some "(" →
      primaryOf (assignment room) (spell (ps ++ k)) = .matched e (spell k)) :
    ReadsSuffixed room ps e :=
  fun k hk hcall _ => ⟨e, [], spell k, h k hk hcall, .nil, rfl⟩

/-- One more suffix: what `ReadsSuffixed` the pieces in front is read with the suffix `qs` behind
them. -/
theorem ReadsSuffixed.attach (h : ReadsSuffixed room ps e) {qs k : List Piece} {suffix : Suffix}
    (hk : Clean (ps ++ (qs ++ k))) (hne : qs ≠ []) (hcall : headSymbol? (qs ++ k) ≠ some "(")
    (hstep : e.isStep = true → (headSymbol? (qs ++ k)).bind StepOp.ofToken? = none)
    (hs : suffixOf (assignment room) (spell (qs ++ k)) = .matched suffix (spell k)) :
    ∃ base suffixes mid,
      primaryOf (assignment room) (spell (ps ++ (qs ++ k))) = .matched base mid ∧
      Steps (suffixOf (assignment room)) mid suffixes (spell k) ∧
      suffixes.foldl Suffix.attach base = suffix.attach e := by
  obtain ⟨base, suffixes, mid, hbase, hsteps, hfold⟩ := h (qs ++ k) hk hcall hstep
  refine ⟨base, suffixes ++ [suffix], mid, hbase, ?_, ?_⟩
  · exact hsteps.append (.one hs (spell_length_lt hne hk.right))
  · rw [List.foldl_append, hfold]
    rfl

theorem readsUnary_of_suffixed (h : ReadsSuffixed room ps e)
    (hop : ∀ k, (headSymbol? (ps ++ k)).bind UnaryOp.ofToken? = none) :
    Reads (unary (room + 1)) ps e (Stops .unary) := by
  intro k hk hstop
  have hstop' : Stops .suffixed k := hstop.mono (by decide)
  have hcall : headSymbol? k ≠ some "(" := by
    intro heq
    exact hstop'.not_suffix (by simp [heq])
  obtain ⟨base, suffixes, mid, hbase, hsteps, hfold⟩ := h k hk hcall (fun _ => hstop'.not_step)
  obtain ⟨fault, hnone⟩ : ∃ fault, suffixOf (assignment room) (spell k) = .mismatch fault :=
    suffixOf_mismatch hk.right hstop'
  have hsuffixed : suffixedOf (assignment room) (spell (ps ++ k)) = .matched e (spell k) := by
    simp only [suffixedOf, bind_of_matched hbase, bind_of_matched (hsteps.many hnone), pure_apply,
      hfold]
  simp only [unary, unaryOf,
    bind_of_matched (optional_of_mismatch (symbolWhere_mismatch hk (hop k))), hsuffixed]

theorem readsChain_of_unary (h : Reads (unary room) ps e (Stops .unary)) :
    ReadsChain room level ps e :=
  fun k hk hstop =>
    ⟨e, [], spell k, h k hk hstop, spell_length_le hk, .nil, Expr.chainsTo_self level e⟩

theorem link_mismatch {k : List Piece} {unary : Parser Expr} (hk : Clean k)
    (hstop : Stops .logicalOr k) : link unary (spell k) = .mismatch ⟨spell k, .unexpected⟩ :=
  bind_of_mismatch (symbolWhere_mismatch hk hstop.not_binary)

theorem chainOf_of_readsChain (h : ReadsChain room level ps e) :
    Reads (chainOf (unary room)) ps e (Stops .logicalOr) := by
  intro k hk hstop
  obtain ⟨first, others, mid, hfirst, -, hsteps, hchain⟩ := h k hk (hstop.mono (by decide))
  have hmany : many (link (unary room)) mid = .matched others (spell k) :=
    hsteps.many (link_mismatch hk.right hstop)
  have hchainOf : chainOf (unary room) = (do
      let first ← unary room
      let others ← many (link (unary room))
      return Expr.ofChain first others) := rfl
  rw [hchainOf, bind_of_matched hfirst, bind_of_matched hmany, pure_apply, hchain.ofChain]

theorem readsConditional_of_chain (h : ReadsChain room level ps e) :
    Reads (conditional room) ps e (Stops .conditional) := by
  intro k hk hstop
  have hchain := chainOf_of_readsChain h k hk (hstop.mono (by decide))
  simp only [conditional, conditionalOf, bind_of_matched hchain,
    bind_of_matched (optional_of_mismatch (symbol_mismatch hk.right hstop.not_question)),
    pure_apply]

theorem readsAssignment_of_conditional (h : Reads (conditional room) ps e (Stops .assignment)) :
    Reads (assignment (room + 1)) ps e (Stops .assignment) := by
  intro k hk hstop
  have hleft : conditionalOf (assignment room) (unary room) (spell (ps ++ k)) =
      .matched e (spell k) := h k hk hstop
  have hnone := optional_of_mismatch (symbolWhere_mismatch hk.right hstop.not_assign)
  simp only [assignment, assignmentOf, bind_of_matched hleft, here_bind, bind_of_matched hnone,
    pure_apply]

theorem readsConditional_of_unary (h : Reads (unary room) ps e (Stops .unary)) :
    Reads (conditional room) ps e (Stops .assignment) := by
  have hchain : ReadsChain room .logicalOr ps e := readsChain_of_unary h
  exact (readsConditional_of_chain hchain).mono fun k hk => hk.mono (by decide)

theorem readsExpression_of_assignment (h : Reads (assignment room) ps e (Stops .assignment)) :
    Reads (expression room) ps e (Stops .sequence) := by
  intro k hk hstop
  have hfirst := h k hk (hstop.mono (by decide))
  have hlist : commaList (symbol ",") (assignment room) (spell (ps ++ k)) =
      .matched [e] (spell k) := by
    rw [commaList, bind_of_matched hfirst, bind_of_matched
      (Steps.nil.many (mismatch_behind_comma hk.right hstop.not_comma)), pure_apply]
  simp only [expression, expressionOf, bind_of_matched hlist, pure_apply]

end Parser

namespace Expr

open ShaderMinifier.Parser

/-! ## All places -/

/-- The expression is read back at every place with enough room: before suffixes, behind unary
operators, in chains, as a `conditional`, as an `assignment` and where commas are allowed. -/
structure Readable (e : Expr) : Prop where
  suffixed : ∀ room, e.suffixedDepth ≤ room → ReadsSuffixed room (e.piecesAt .suffixed) e
  unary : ∀ room, e.unaryDepth ≤ room →
    Reads (Parser.unary room) (e.piecesAt .unary) e (Stops .unary)
  operand : ∀ room level, .logicalOr ≤ level → level ≤ .unary → e.operandDepth level ≤ room →
    ReadsChain room level (e.piecesAt level) e
  conditional : ∀ room, e.operandDepth .conditional ≤ room →
    Reads (Parser.conditional room) (e.piecesAt .conditional) e (Stops .assignment)
  assignment : ∀ room, e.assignmentDepth ≤ room →
    Reads (Parser.assignment room) (e.piecesAt .assignment) e (Stops .assignment)
  expression : ∀ room, e.enclosedDepth ≤ room →
    Reads (Parser.expression room) e.pieces e (Stops .sequence)

variable {e : Expr}

theorem readsSuffixed_parenthesized {room : Nat}
    (h : Reads (Parser.expression room) e.pieces e (Stops .sequence)) :
    ReadsSuffixed room (Piece.parenthesized e.pieces) e :=
  readsSuffixed_of_primary fun _ hk _ => primaryOf_parenthesized h hk

theorem readsUnary_parenthesized {room : Nat}
    (h : Reads (Parser.expression room) e.pieces e (Stops .sequence)) :
    Reads (Parser.unary (room + 1)) (Piece.parenthesized e.pieces) e (Stops .unary) := by
  refine readsUnary_of_suffixed (readsSuffixed_parenthesized h) fun k => ?_
  rw [Piece.parenthesized, List.cons_append, List.cons_append, headSymbol?_symbol (by decide)]
  decide

/-- At a place that takes the expression as it is or in brackets, as a unary operator does, its
`piecesAt` are those behind a unary operator. -/
theorem piecesAt_eq_piecesAt_unary {level : Precedence} (hlevel : level ≤ .unary)
    (hnot : ¬(level ≤ e.precedence ∧ e.precedence < .unary)) :
    e.piecesAt level = e.piecesAt .unary := by
  rw [Precedence.le_iff] at hlevel
  by_cases h : e.precedence < .unary
  · have hlt : e.precedence < level := Precedence.not_le.1 fun hle => hnot ⟨hle, h⟩
    rw [piecesAt_of_lt h, piecesAt_of_lt hlt]
  · have hle := Precedence.not_lt.1 h
    rw [Precedence.le_iff] at hle
    rw [piecesAt_of_le (Precedence.not_lt.1 h), piecesAt_of_le]
    rw [Precedence.le_iff]
    omega

/-- The expression is read back without brackets, at the places that its `precedence` allows. Each
field is about the rule for one of these places. -/
structure ReadableBare (e : Expr) : Prop where
  suffixed : .suffixed ≤ e.precedence → ∀ room, e.depth ≤ room → ReadsSuffixed room e.pieces e
  unary : .unary ≤ e.precedence → ∀ room, e.depth ≤ room →
    Reads (Parser.unary (room + 1)) e.pieces e (Stops .unary)
  chain : e.precedence < .unary → .logicalOr ≤ e.precedence → ∀ room, e.depth ≤ room →
    ReadsChain room e.precedence e.pieces e
  conditional : e.precedence < .unary → .conditional ≤ e.precedence → ∀ room, e.depth ≤ room →
    Reads (Parser.conditional room) e.pieces e (Stops .assignment)
  assignment : e.precedence < .unary → .assignment ≤ e.precedence → ∀ room, e.depth ≤ room →
    Reads (Parser.assignment (room + 1)) e.pieces e (Stops .assignment)
  sequence : e.precedence < .assignment → ∀ room, e.depth ≤ room →
    Reads (Parser.expression room) e.pieces e (Stops .sequence)

namespace ReadableBare

variable {room : Nat}

theorem enclosed (h : e.ReadableBare) (hroom : e.enclosedDepth ≤ room) :
    Reads (Parser.expression room) e.pieces e (Stops .sequence) := by
  rw [enclosedDepth, Nesting.enclosed] at hroom
  by_cases h1 : e.precedence < .assignment
  · rw [if_pos h1] at hroom
    exact h.sequence h1 room hroom
  · rw [if_neg h1] at hroom
    by_cases h2 : e.precedence < .unary
    · rw [if_pos h2] at hroom
      obtain ⟨r, rfl⟩ : ∃ r, room = r + 1 := ⟨room - 1, by omega⟩
      exact readsExpression_of_assignment (h.assignment h2 (Precedence.not_lt.1 h1) r (by omega))
    · rw [if_neg h2] at hroom
      obtain ⟨r, rfl⟩ : ∃ r, room = r + 1 + 1 := ⟨room - 2, by omega⟩
      exact readsExpression_of_assignment (readsAssignment_of_conditional
        (readsConditional_of_unary (h.unary (Precedence.not_lt.1 h2) r (by omega))))

theorem behindUnary (h : e.ReadableBare) (hroom : e.unaryDepth ≤ room) :
    Reads (Parser.unary room) (e.piecesAt .unary) e (Stops .unary) := by
  rw [unaryDepth, Nesting.unary] at hroom
  obtain ⟨r, rfl⟩ : ∃ r, room = r + 1 := ⟨room - 1, by omega⟩
  by_cases hlt : e.precedence < .unary
  · rw [if_pos hlt] at hroom
    rw [piecesAt_of_lt hlt]
    exact readsUnary_parenthesized (h.enclosed (by rw [enclosedDepth]; omega))
  · rw [if_neg hlt] at hroom
    rw [piecesAt_of_le (Precedence.not_lt.1 hlt)]
    exact h.unary (Precedence.not_lt.1 hlt) r (by omega)

theorem beforeSuffix (h : e.ReadableBare) (hroom : e.suffixedDepth ≤ room) :
    ReadsSuffixed room (e.piecesAt .suffixed) e := by
  rw [suffixedDepth, Nesting.suffixed] at hroom
  by_cases hlt : e.precedence < .suffixed
  · rw [if_pos hlt] at hroom
    rw [piecesAt_of_lt hlt]
    exact readsSuffixed_parenthesized (h.enclosed hroom)
  · rw [if_neg hlt] at hroom
    rw [piecesAt_of_le (Precedence.not_lt.1 hlt)]
    exact h.suffixed (Precedence.not_lt.1 hlt) room hroom

theorem inChain (h : e.ReadableBare) {level : Precedence} (hlow : .logicalOr ≤ level)
    (hhigh : level ≤ .unary) (hroom : e.operandDepth level ≤ room) :
    ReadsChain room level (e.piecesAt level) e := by
  rw [operandDepth, Nesting.operand] at hroom
  by_cases hbare : level ≤ e.precedence ∧ e.precedence < .unary
  · rw [if_pos hbare] at hroom
    rw [piecesAt_of_le hbare.1]
    have hlow' : .logicalOr ≤ e.precedence := by
      have := hbare.1
      rw [Precedence.le_iff] at this hlow ⊢
      omega
    intro k hk hstop
    obtain ⟨first, others, mid, hfirst, hlen, hsteps, hchain⟩ :=
      h.chain hbare.2 hlow' room hroom k hk hstop
    exact ⟨first, others, mid, hfirst, hlen, hsteps, hchain.mono hbare.1⟩
  · rw [if_neg hbare] at hroom
    rw [piecesAt_eq_piecesAt_unary hhigh hbare]
    exact readsChain_of_unary (h.behindUnary hroom)

theorem asConditional (h : e.ReadableBare) (hroom : e.operandDepth .conditional ≤ room) :
    Reads (Parser.conditional room) (e.piecesAt .conditional) e (Stops .assignment) := by
  rw [operandDepth, Nesting.operand] at hroom
  by_cases hbare : .conditional ≤ e.precedence ∧ e.precedence < .unary
  · rw [if_pos hbare] at hroom
    rw [piecesAt_of_le hbare.1]
    exact h.conditional hbare.2 hbare.1 room hroom
  · rw [if_neg hbare] at hroom
    rw [piecesAt_eq_piecesAt_unary (by decide) hbare]
    exact readsConditional_of_unary (h.behindUnary hroom)

theorem asAssignment (h : e.ReadableBare) (hroom : e.assignmentDepth ≤ room) :
    Reads (Parser.assignment room) (e.piecesAt .assignment) e (Stops .assignment) := by
  rw [assignmentDepth, Nesting.assignment, Nesting.operand] at hroom
  obtain ⟨r, rfl⟩ : ∃ r, room = r + 1 := ⟨room - 1, by omega⟩
  by_cases hbare : .assignment ≤ e.precedence ∧ e.precedence < .unary
  · rw [if_pos hbare] at hroom
    rw [piecesAt_of_le hbare.1]
    exact h.assignment hbare.2 hbare.1 r (by omega)
  · rw [if_neg hbare] at hroom
    rw [piecesAt_eq_piecesAt_unary (by decide) hbare]
    exact readsAssignment_of_conditional
      (readsConditional_of_unary (h.behindUnary (by rw [unaryDepth]; omega)))

/-- What is `ReadableBare` where it may stand without brackets is read with them at the tighter
places, so it is `Readable`. -/
theorem readable (h : e.ReadableBare) : e.Readable where
  suffixed _ := h.beforeSuffix
  unary _ := h.behindUnary
  operand _ _ := h.inChain
  conditional _ := h.asConditional
  assignment _ := h.asAssignment
  expression _ := h.enclosed

end ReadableBare

theorem readable_of_suffixed (hp : .suffixed ≤ e.precedence)
    (hop : ∀ k, (headSymbol? (e.pieces ++ k)).bind UnaryOp.ofToken? = none)
    (hs : ∀ room, e.depth ≤ room → ReadsSuffixed room e.pieces e) : e.Readable := by
  have hnot : ∀ {p : Precedence}, p ≤ .suffixed → ¬ e.precedence < p := by
    intro p hle
    rw [Precedence.le_iff] at hp hle
    rw [Precedence.lt_iff]
    omega
  refine ReadableBare.readable ⟨fun _ => hs,
    fun _ room hroom => readsUnary_of_suffixed (hs room hroom) hop, ?_, ?_, ?_, ?_⟩
  all_goals exact fun h => absurd h (hnot (by decide))

theorem readable_of_unary (hp : e.precedence = .unary)
    (hu : ∀ room, e.depth ≤ room →
      Reads (Parser.unary (room + 1)) e.pieces e (Stops .unary)) : e.Readable := by
  refine ReadableBare.readable ⟨?_, fun _ => hu, ?_, ?_, ?_, ?_⟩
  all_goals exact fun h => absurd h (by rw [hp]; decide)

theorem readable_of_conditional (hlow : .conditional ≤ e.precedence)
    (hhigh : e.precedence < .unary)
    (hc : .logicalOr ≤ e.precedence → ∀ room, e.depth ≤ room →
      ReadsChain room e.precedence e.pieces e)
    (hq : ∀ room, e.depth ≤ room →
      Reads (Parser.conditional room) e.pieces e (Stops .assignment)) : e.Readable := by
  have hrank : Precedence.rank .unary = 14 ∧ Precedence.rank .suffixed = 15 ∧
    Precedence.rank .conditional = 2 ∧ Precedence.rank .assignment = 1 := ⟨rfl, rfl, rfl, rfl⟩
  rw [Precedence.le_iff] at hlow
  have hhigh' := Precedence.lt_iff.1 hhigh
  refine ReadableBare.readable ⟨fun h => ?_, fun h => ?_, fun _ => hc, fun _ _ => hq,
    fun _ _ room hroom => readsAssignment_of_conditional (hq room hroom), fun h => ?_⟩
  · rw [Precedence.le_iff] at h
    omega
  · rw [Precedence.le_iff] at h
    omega
  · rw [Precedence.lt_iff] at h
    omega

theorem readable_of_assignment (hp : e.precedence = .assignment)
    (ha : ∀ room, e.depth ≤ room →
      Reads (Parser.assignment (room + 1)) e.pieces e (Stops .assignment)) : e.Readable := by
  refine ReadableBare.readable ⟨fun h => ?_, fun h => ?_, fun _ h => ?_, fun _ h => ?_,
    fun _ _ => ha, fun h => ?_⟩
  all_goals exact absurd h (by rw [hp]; decide)

theorem readable_of_sequence (hp : e.precedence = .sequence)
    (he : ∀ room, e.depth ≤ room →
      Reads (Parser.expression room) e.pieces e (Stops .sequence)) : e.Readable := by
  refine ReadableBare.readable ⟨fun h => ?_, fun h => ?_, fun _ h => ?_, fun _ h => ?_,
    fun _ h => ?_, fun _ => he⟩
  all_goals exact absurd h (by rw [hp]; decide)

/-! ## Each kind of expression -/

theorem headSymbol?_suffixed (he : e.WellFormed) (hp : .suffixed ≤ e.precedence)
    (k : List Piece) : (headSymbol? (e.pieces ++ k)).bind UnaryOp.ofToken? = none := by
  have hslot : ∀ {x : Expr} {k : List Piece}, (.suffixed ≤ x.precedence →
      (headSymbol? (x.pieces ++ k)).bind UnaryOp.ofToken? = none) →
      (headSymbol? (x.piecesAt .suffixed ++ k)).bind UnaryOp.ofToken? = none := by
    intro x k hx
    by_cases h : x.precedence < .suffixed
    · rw [piecesAt_of_lt h, Piece.parenthesized, List.cons_append, List.cons_append,
        headSymbol?_symbol (by decide)]
      decide
    · rw [piecesAt_of_le (Precedence.not_lt.1 h)]
      exact hx (Precedence.not_lt.1 h)
  induction e generalizing k with
  | identifier name => rw [pieces, List.singleton_append, headSymbol?_word he.1]; rfl
  | int value =>
    rw [pieces, List.singleton_append, headSymbol?]
    split
    · decide
    · rfl
  | float value =>
    rw [pieces, List.singleton_append, headSymbol?]
    split
    · decide
    · rfl
  | bool value =>
    rw [pieces, List.singleton_append, headSymbol?_word (by cases value <;> decide)]
    rfl
  | call callee args _ => rw [pieces, List.cons_append, headSymbol?_word he.1]; rfl
  | step op x ih =>
    rw [pieces, stepped, List.append_assoc]
    split
    · rw [Piece.parenthesized, List.cons_append, List.cons_append, headSymbol?_symbol (by decide)]
      decide
    · exact hslot fun hx => ih he hx _
  | index x y ih _ =>
    rw [pieces, List.append_assoc, List.append_assoc]
    exact hslot fun hx => ih he.1 hx _
  | field x name ih =>
    rw [pieces, List.append_assoc]
    exact hslot fun hx => ih he.2 hx _
  | unary op x _ => exact absurd hp (by decide : ¬ Precedence.suffixed ≤ .unary)
  | binary op x y _ _ =>
    have := op.rank_bounds
    rw [precedence, Precedence.le_iff] at hp
    have hrank : Precedence.rank .suffixed = 15 := rfl
    omega
  | assign op x y _ _ => exact absurd hp (by decide : ¬ Precedence.suffixed ≤ .assignment)
  | ternary x y z _ _ _ => exact absurd hp (by decide : ¬ Precedence.suffixed ≤ .conditional)
  | sequence items _ => exact absurd hp (by decide : ¬ Precedence.suffixed ≤ .sequence)

theorem readable_step {op : StepOp} {x : Expr} (hwf : x.WellFormed) (hx : x.Readable) :
    (Expr.step op x).Readable := by
  refine readable_of_suffixed (by decide : Precedence.suffixed ≤ .suffixed)
    (headSymbol?_suffixed (e := .step op x) hwf (by decide : Precedence.suffixed ≤ .suffixed)) ?_
  intro room hroom k hk _ hnext
  have hstep := hnext rfl
  have hcall : headSymbol? (.token op.token :: k) ≠ some "(" := by
    rw [headSymbol?_symbol op.token_mem]
    cases op <;> decide
  rw [pieces, List.append_assoc] at hk ⊢
  rw [depth_step] at hroom
  by_cases hx' : x.isStep = true
  · rw [if_pos hx'] at hroom
    rw [stepped, if_pos hx'] at hk ⊢
    -- the operand is a step itself: it stands in brackets
    have hbase := primaryOf_parenthesized (hx.expression room hroom) hk
    exact ⟨x, [.step op], _, hbase, .one (suffixOf_step op hk.right hstep)
      (spell_length_lt_cons hk.right), rfl⟩
  · rw [if_neg hx'] at hroom
    rw [stepped, if_neg hx'] at hk ⊢
    exact (hx.suffixed room hroom).attach hk (by simp) hcall (fun h => absurd h hx')
      (suffixOf_step op hk.right hstep)

theorem readable_index {x y : Expr} (hwf : x.WellFormed ∧ y.WellFormed) (hx : x.Readable)
    (hy : y.Readable) : (Expr.index x y).Readable := by
  refine readable_of_suffixed (by decide : Precedence.suffixed ≤ .suffixed)
    (headSymbol?_suffixed (e := .index x y) hwf (by decide : Precedence.suffixed ≤ .suffixed)) ?_
  intro room hroom k hk _ _
  rw [pieces_index, List.append_assoc] at hk ⊢
  rw [depth_index, max_le_iff] at hroom
  have hhead : headSymbol? ((.token "[" :: (y.pieces ++ [Piece.token "]"])) ++ k) = some "[" :=
    headSymbol?_symbol (by decide)
  have hread : suffixOf (Parser.assignment room)
      (spell ((.token "[" :: (y.pieces ++ [Piece.token "]"])) ++ k)) =
        .matched (.index y) (spell k) := by
    have hright := hk.right
    rw [List.cons_append, List.append_assoc] at hright ⊢
    exact suffixOf_index (hy.expression room hroom.2) hright
  exact (hx.suffixed room hroom.1).attach hk (by simp) (by rw [hhead]; decide)
    (fun _ => by rw [hhead]; decide) hread

theorem readable_field {x : Expr} {name : String} (hwf : Word.isWord name = true ∧ x.WellFormed)
    (hx : x.Readable) : (Expr.field x name).Readable := by
  refine readable_of_suffixed (by decide : Precedence.suffixed ≤ .suffixed)
    (headSymbol?_suffixed (e := .field x name) hwf
      (by decide : Precedence.suffixed ≤ .suffixed)) ?_
  intro room hroom k hk _ _
  rw [pieces_field, List.append_assoc] at hk ⊢
  rw [depth_field] at hroom
  have hhead : headSymbol? ([Piece.token ".", .token name] ++ k) = some "." :=
    headSymbol?_symbol (by decide)
  exact (hx.suffixed room hroom).attach hk (by simp) (by rw [hhead]; decide)
    (fun _ => by rw [hhead]; decide) (suffixOf_field hwf.1 hk.right)

theorem readable_unary {op : UnaryOp} {x : Expr} (hx : x.Readable) :
    (Expr.unary op x).Readable := by
  refine readable_of_unary rfl fun room hroom k hk hstop => ?_
  rw [pieces_unary, List.cons_append] at hk ⊢
  rw [depth_unary] at hroom
  have hop := optional_of_matched (symbolWhere_spell op.token_mem hk op.ofToken?_token)
  have hread := commit_of_matched (hx.unary room hroom k hk.tail hstop)
  simp only [Parser.unary, unaryOf, bind_of_matched hop, bind_of_matched hread, pure_apply]

theorem readable_binary {op : BinaryOp} {x y : Expr} (hx : x.Readable) (hy : y.Readable) :
    (Expr.binary op x y).Readable := by
  have hrank := op.rank_bounds
  have hor : Precedence.rank .logicalOr = 3 ∧ Precedence.rank .unary = 14 ∧
    Precedence.rank .conditional = 2 := ⟨rfl, rfl, rfl⟩
  have hchain : ∀ room, (Expr.binary op x y).depth ≤ room →
      ReadsChain room op.precedence (Expr.binary op x y).pieces (.binary op x y) := by
    intro room hroom k hk hstop
    rw [pieces_binary, List.append_assoc, List.cons_append] at hk ⊢
    rw [depth_binary, max_le_iff] at hroom
    have hstopOp : Stops .unary (.token op.token :: (y.piecesAt op.precedence.tighter ++ k)) := by
      refine Stops.symbol op.token_mem ?_
      cases op <;> decide
    obtain ⟨firstX, othersX, midX, hfirstX, hlenX, hstepsX, hchainX⟩ :=
      hx.operand room op.precedence (by rw [Precedence.le_iff]; omega)
        (by rw [Precedence.le_iff]; omega) hroom.1 _ hk hstopOp
    have hkop := hk.right
    obtain ⟨firstY, othersY, midY, hfirstY, hlenY, hstepsY, hchainY⟩ :=
      hy.operand room op.precedence.tighter (by rw [Precedence.le_iff]; omega)
        (by rw [Precedence.le_iff]; omega) hroom.2 k hkop.tail hstop
    have hop := symbolWhere_spell op.token_mem hkop op.ofToken?_token
    have hlink : link (Parser.unary room)
        (spell (.token op.token :: (y.piecesAt op.precedence.tighter ++ k))) =
          .matched (op, firstY) midY := by
      rw [link, bind_of_matched hop, bind_of_matched (commit_of_matched hfirstY), pure_apply]
    have hlt := spell_length_lt_cons hkop
    exact ⟨firstX, othersX ++ (op, firstY) :: othersY, midX, hfirstX, hlenX,
      hstepsX.append (.cons hlink (by omega) hstepsY), chainsTo_binary hchainX hchainY⟩
  refine readable_of_conditional ?_ ?_ (fun _ => hchain) fun room hroom => ?_
  · rw [precedence, Precedence.le_iff]
    omega
  · rw [precedence, Precedence.lt_iff]
    omega
  · exact (readsConditional_of_chain (hchain room hroom)).mono fun k hk => hk.mono (by decide)

theorem readable_assign {op : AssignOp} {x y : Expr} (hp : .unary ≤ x.precedence)
    (hx : x.Readable) (hy : y.Readable) : (Expr.assign op x y).Readable := by
  refine readable_of_assignment rfl fun room hroom k hk hstop => ?_
  rw [pieces_assign, List.append_assoc, List.cons_append] at hk ⊢
  rw [depth_assign, max_le_iff] at hroom
  have hstopOp : Stops .conditional (.token op.token :: (y.piecesAt .assignment ++ k)) := by
    refine Stops.symbol op.token_mem ?_
    cases op <;> decide
  have hchain : ReadsChain room .logicalOr (x.piecesAt .unary) x :=
    readsChain_of_unary (hx.unary room hroom.1)
  have hleft : conditionalOf (Parser.assignment room) (Parser.unary room)
      (spell (x.piecesAt .unary ++ .token op.token :: (y.piecesAt .assignment ++ k))) =
        .matched x (spell (.token op.token :: (y.piecesAt .assignment ++ k))) :=
    readsConditional_of_chain hchain _ hk hstopOp
  have hop := optional_of_matched (symbolWhere_spell op.token_mem hk.right op.ofToken?_token)
  have hright := commit_of_matched (hy.assignment room hroom.2 k hk.right.tail hstop)
  simp only [Parser.assignment, assignmentOf, bind_of_matched hleft, here_bind,
    bind_of_matched hop, if_neg (Precedence.not_lt.2 hp), bind_of_matched hright, pure_apply]

theorem readable_ternary {x y z : Expr} (hx : x.Readable) (hy : y.Readable) (hz : z.Readable) :
    (Expr.ternary x y z).Readable := by
  refine readable_of_conditional (by decide : Precedence.conditional ≤ .conditional)
    (by decide : Precedence.conditional < .unary)
    (fun h => absurd h (by decide : ¬ Precedence.logicalOr ≤ .conditional))
    fun room hroom k hk hstop => ?_
  rw [pieces_ternary, List.append_assoc, List.cons_append, List.append_assoc,
    List.cons_append] at hk ⊢
  rw [depth_ternary, max_le_iff, max_le_iff] at hroom
  have hcond := chainOf_of_readsChain
    (hx.operand room .logicalOr (by decide) (by decide) hroom.1) _ hk
    (Stops.symbol (by decide) (by decide))
  have hmark := optional_of_matched (symbol_spell (by decide) hk.right)
  have htrue : commit (expressionOf (Parser.assignment room)) (spell (y.pieces ++
      .token ":" :: (z.piecesAt .assignment ++ k))) = .matched y _ :=
    commit_of_matched (hy.expression room hroom.2.1 _ hk.right.tail
      (Stops.symbol (by decide) (by decide)))
  have hcolon := commit_of_matched (symbol_spell (by decide) hk.right.tail.right)
  have hfalse := commit_of_matched
    (hz.assignment room hroom.2.2 k hk.right.tail.right.tail hstop)
  simp only [Parser.conditional, conditionalOf, bind_of_matched hcond, bind_of_matched hmark,
    bind_of_matched htrue, bind_of_matched hcolon, bind_of_matched hfalse, pure_apply]

theorem readable_call {callee : String} {args : List Expr}
    (hwf : (Expr.call callee args).WellFormed) (hargs : ∀ x ∈ args, x.Readable) :
    (Expr.call callee args).Readable := by
  refine readable_of_suffixed (by decide : Precedence.suffixed ≤ .primary)
    (headSymbol?_suffixed hwf (by decide : Precedence.suffixed ≤ .primary)) fun room hroom => ?_
  rw [depth_call, listDepth_le_iff] at hroom
  exact readsSuffixed_of_primary fun k hk _ => primaryOf_call hwf.1 hwf.2.1
    (fun x hx => (hargs x hx).assignment room (hroom x hx)) (allWellFormed_iff.1 hwf.2.2) hk

theorem readable_sequence {items : List Expr} (hlen : 2 ≤ items.length)
    (hitems : ∀ x ∈ items, x.Readable) : (Expr.sequence items).Readable := by
  refine readable_of_sequence rfl fun room hroom k hk hstop => ?_
  rw [pieces_sequence] at hk ⊢
  rw [depth_sequence, listDepth_le_iff] at hroom
  obtain ⟨x, y, others, rfl⟩ := exists_cons_cons hlen
  have hlist := commaList_spell
    (fun z hz => (hitems z hz).assignment room (hroom z hz))
    (fun l => Stops.symbol (by decide) (by decide)) hk (hstop.mono (by decide)) hstop.not_comma
  simp only [Parser.expression, expressionOf, bind_of_matched hlist, pure_apply]

/-- Every `WellFormed` expression is read back at every place with enough room. By induction on the
expression, with `ReadableBare` for its own operator. -/
theorem readable (he : e.WellFormed) : e.Readable := by
  induction e with
  | identifier name =>
    refine readable_of_suffixed (by decide : Precedence.suffixed ≤ .primary)
      (headSymbol?_suffixed he (by decide : Precedence.suffixed ≤ .primary)) fun room _ => ?_
    exact readsSuffixed_of_primary fun k hk hcall => primaryOf_identifier he.1 he.2 hk hcall
  | int value =>
    refine readable_of_suffixed (by decide : Precedence.suffixed ≤ .primary)
      (headSymbol?_suffixed he (by decide : Precedence.suffixed ≤ .primary)) fun room _ => ?_
    exact readsSuffixed_of_primary fun k hk _ => primaryOf_int value hk
  | float value =>
    refine readable_of_suffixed (by decide : Precedence.suffixed ≤ .primary)
      (headSymbol?_suffixed he (by decide : Precedence.suffixed ≤ .primary)) fun room _ => ?_
    exact readsSuffixed_of_primary fun k hk _ => primaryOf_float he hk
  | bool value =>
    refine readable_of_suffixed (by decide : Precedence.suffixed ≤ .primary)
      (headSymbol?_suffixed he (by decide : Precedence.suffixed ≤ .primary)) fun room _ => ?_
    exact readsSuffixed_of_primary fun k hk _ => primaryOf_bool value hk
  | unary op x ih => exact readable_unary (ih he)
  | step op x ih => exact readable_step he (ih he)
  | binary op x y ihx ihy => exact readable_binary (ihx he.1) (ihy he.2)
  | assign op x y ihx ihy => exact readable_assign he.1 (ihx he.2.1) (ihy he.2.2)
  | ternary x y z ihx ihy ihz => exact readable_ternary (ihx he.1) (ihy he.2.1) (ihz he.2.2)
  | index x y ihx ihy => exact readable_index he (ihx he.1) (ihy he.2)
  | field x name ih => exact readable_field he (ih he.2)
  | call callee args ih =>
    exact readable_call he fun x hx => ih x hx (allWellFormed_iff.1 he.2.2 x hx)
  | sequence items ih =>
    exact readable_sequence he.1 fun x hx => ih x hx (allWellFormed_iff.1 he.2 x hx)

end Expr

end ShaderMinifier
