import ShaderMinifier.Proofs.Expr.Chain
import ShaderMinifier.Proofs.Expr.Operand

/-
  What the expression parsers give is well-formed and needs no more room to be read than they had.
  In a chain the operands fit at every level, and an operator fits where its two operands fit at
  the levels that it asks for.
-/

namespace ShaderMinifier

namespace Expr

/-! ## Chains -/

/-- The expression is `WellFormed` and fits, with this room, behind an operator that asks for the
level (`operandDepth`). -/
def Fits (room : Nat) (level : Precedence) (e : Expr) : Prop :=
  e.WellFormed ∧ e.operandDepth level ≤ room

theorem Fits.mono {room : Nat} {a b : Precedence} (hab : a ≤ b) {e : Expr} (h : e.Fits room b) :
    e.Fits room a :=
  ⟨h.1, (Nesting.operand_le_of_le hab _ _).trans h.2⟩

theorem fits_binary {room : Nat} {op : BinaryOp} {x y : Expr} (hx : x.Fits room op.precedence)
    (hy : y.Fits room op.precedence.tighter) : (Expr.binary op x y).Fits room op.precedence := by
  have hrank := op.rank_bounds
  have hunary : Precedence.rank .unary = 14 := rfl
  refine ⟨⟨hx.1, hy.1⟩, ?_⟩
  have hdepth : (Expr.binary op x y).operandDepth op.precedence = (Expr.binary op x y).depth := by
    rw [operandDepth, Nesting.operand, if_pos]
    refine ⟨Nat.le_refl _, ?_⟩
    rw [precedence, Precedence.lt_iff]
    omega
  rw [hdepth, depth_binary]
  exact max_le hx.2 hy.2

theorem composes_fits (room : Nat) :
    Composes (fun _ => ([] : List Unit)) fun level e _ => e.Fits room level :=
  ⟨fun hab h => h.mono hab, fits_binary⟩

/-- The tree of `ofChain` fits where its operands fit at every level, so a chain costs no more room
than its operands. -/
theorem ofChain_fits {room : Nat} {first : Expr} {others : List (BinaryOp × Expr)}
    (hfirst : ∀ level, first.Fits room level)
    (hothers : ∀ link ∈ others, ∀ level, link.2.Fits room level) :
    (ofChain first others).Fits room .logicalOr := by
  have hlinks : Links (fun _ => ([] : List Unit)) (fun level e _ => e.Fits room level) others
      [] := by
    induction others with
    | nil => exact .nil
    | cons link others ih =>
      exact @Links.cons _ _ _ link.1 link.2 others [] []
        (fun level _ => hothers link (by simp) level)
        (ih fun l hl => hothers l (by simp [hl]))
  exact @Composes.ofChain _ _ _ (composes_fits room) first others [] []
    (fun level _ => hfirst level) hlinks

end Expr

namespace Parser

variable {room : Nat} {assignment unary : Parser Expr}

/-- The parser gives `WellFormed` expressions that the rule for assignments reads with this room
(`assignmentDepth`). -/
def YieldsAssignment (room : Nat) (p : Parser Expr) : Prop :=
  Yields p fun e => e.WellFormed ∧ e.assignmentDepth ≤ room

/-- The parser gives `WellFormed` expressions that the rule for unary expressions reads with this
room (`unaryDepth`). -/
def YieldsUnary (room : Nat) (p : Parser Expr) : Prop :=
  Yields p fun e => e.WellFormed ∧ e.unaryDepth ≤ room

/-- The parser gives `WellFormed` expressions that are read between brackets with this room
(`enclosedDepth`). -/
def YieldsExpression (room : Nat) (p : Parser Expr) : Prop :=
  Yields p fun e => e.WellFormed ∧ e.enclosedDepth ≤ room

theorem yields_expressionOf (ha : YieldsAssignment room assignment) :
    YieldsExpression room (expressionOf assignment) := by
  refine Yields.bind (Yields.commaList ha) fun items hitems => ?_
  obtain ⟨hne, hall⟩ := hitems
  obtain ⟨x, others, rfl⟩ := List.exists_cons_of_ne_nil hne
  cases others with
  | nil =>
    obtain ⟨hwf, hdepth⟩ := hall x (by simp)
    exact Yields.pure ⟨hwf, (Nesting.enclosed_le_assignment _ _).trans hdepth⟩
  | cons y items =>
    refine Yields.pure ⟨⟨by simp, Expr.allWellFormed_iff.2 fun e he => (hall e he).1⟩, ?_⟩
    show Expr.listDepth (x :: y :: items) ≤ room
    exact Expr.listDepth_le_iff.2 fun e he => (hall e he).2

theorem yields_chainOf (hu : YieldsUnary room unary) :
    Yields (chainOf unary) (Expr.Fits room .logicalOr) := by
  have hfits : ∀ {e : Expr}, (e.WellFormed ∧ e.unaryDepth ≤ room) → ∀ level, e.Fits room level :=
    fun h level => ⟨h.1, (Nesting.operand_le_unary level _ _).trans h.2⟩
  refine Yields.bind hu fun first hfirst => ?_
  refine Yields.bind (P := fun others => ∀ link ∈ others, ∀ level, Expr.Fits room level link.2)
    (Yields.many ?_) fun others hothers => ?_
  · exact Yields.skip fun op => Yields.bind (Yields.commit hu) fun right hright =>
      Yields.pure (hfits hright)
  · exact Yields.pure (Expr.ofChain_fits (hfits hfirst) hothers)

theorem yields_conditionalOf (ha : YieldsAssignment room assignment)
    (hu : YieldsUnary room unary) :
    Yields (conditionalOf assignment unary) (Expr.Fits room .conditional) := by
  refine Yields.bind (yields_chainOf hu) fun condition hcondition => Yields.skip fun mark => ?_
  cases mark with
  | none => exact Yields.pure (hcondition.mono (by decide))
  | some _ =>
    refine Yields.bind (yields_expressionOf ha).commit fun whenTrue htrue =>
      Yields.skip fun _ => Yields.bind (Yields.commit ha) fun whenFalse hfalse => Yields.pure ?_
    refine ⟨⟨hcondition.1, htrue.1, hfalse.1⟩, ?_⟩
    show (Expr.ternary condition whenTrue whenFalse).depth ≤ room
    rw [Expr.depth_ternary]
    exact max_le hcondition.2 (max_le htrue.2 hfalse.2)

theorem yields_assignmentOf (ha : YieldsAssignment room assignment)
    (hu : YieldsUnary room unary) :
    YieldsAssignment (room + 1) (assignmentOf assignment unary) := by
  refine Yields.bind (yields_conditionalOf ha hu) fun left hleft => Yields.skip fun place =>
    Yields.skip fun mark => ?_
  cases mark with
  | none =>
    have hle := (hleft.mono (by decide : Precedence.assignment ≤ .conditional)).2
    refine Yields.pure ⟨hleft.1, ?_⟩
    rw [Expr.assignmentDepth, Nesting.assignment]
    rw [Expr.operandDepth] at hle
    omega
  | some op =>
    simp only
    split
    · exact Yields.failAt _ _
    · next hp =>
      refine Yields.bind (Yields.commit ha) fun right hright => Yields.pure ?_
      refine ⟨⟨Precedence.not_lt.1 hp, hleft.1, hright.1⟩, ?_⟩
      -- a target that binds tightly needs no brackets before the operator
      have hunary : left.unaryDepth ≤ room := by
        have hdepth := hleft.2
        rw [Expr.operandDepth, Nesting.operand, if_neg fun h => hp h.2] at hdepth
        exact hdepth
      have hdepth : (Expr.assign op left right).depth ≤ room := by
        rw [Expr.depth_assign]
        exact max_le hunary hright.2
      show 1 + (Expr.assign op left right).depth ≤ room + 1
      omega

theorem yields_argumentsOf (ha : YieldsAssignment room assignment) :
    Yields (argumentsOf assignment) fun args =>
      ∀ x ∈ args, x.WellFormed ∧ x.assignmentDepth ≤ room := by
  refine Yields.skip fun empty => ?_
  cases empty with
  | some _ => exact Yields.pure (by simp)
  | none =>
    exact Yields.bind (Yields.sepBy1 ha) fun args hargs =>
      Yields.skip fun _ => Yields.pure hargs.2

/-- What an operand needs before suffixes (`suffixedDepth`); a step needs brackets there. -/
def FitsSuffix (room : Nat) (e : Expr) : Prop :=
  e.WellFormed ∧ e.suffixedDepth ≤ room ∧ (e.isStep = true → e.enclosedDepth ≤ room)

theorem fitsSuffix_of_primary {e : Expr} (hwf : e.WellFormed) (hp : e.precedence = .primary)
    (hdepth : e.depth ≤ room) : FitsSuffix room e := by
  refine ⟨hwf, ?_, fun hstep => ?_⟩
  · rw [Expr.suffixedDepth, Nesting.suffixed, hp]
    exact hdepth
  · cases e <;> simp [Expr.isStep, Expr.precedence] at hstep hp

theorem yields_callOf (ha : YieldsAssignment room assignment) :
    Yields (callOf assignment) (FitsSuffix room) := by
  refine Yields.bind yields_nextWord fun word hword => ?_
  cases word with
  | none => exact Yields.mismatch _
  | some callee =>
    simp only
    split
    · next hn =>
      refine Yields.skip fun _ => Yields.skip fun _ =>
        Yields.bind (yields_argumentsOf ha).commit fun args hargs => Yields.pure ?_
      refine fitsSuffix_of_primary ⟨hword callee rfl, hn,
        Expr.allWellFormed_iff.2 fun x hx => (hargs x hx).1⟩ rfl ?_
      rw [Expr.depth_call]
      exact Expr.listDepth_le_iff.2 fun x hx => (hargs x hx).2
    · exact Yields.mismatch _

theorem yields_variableName : Yields variableName (FitsSuffix room) := by
  refine Yields.bind yields_nextWord fun word hword => ?_
  cases word with
  | none => exact Yields.mismatch _
  | some name =>
    simp only
    split
    · exact Yields.mismatch _
    · next hr =>
      refine Yields.skip fun _ => Yields.pure (fitsSuffix_of_primary ?_ rfl (Nat.zero_le _))
      exact ⟨hword name rfl, by simpa using hr⟩

theorem yields_parenthesizedOf (ha : YieldsAssignment room assignment) :
    Yields (parenthesizedOf assignment) (FitsSuffix room) :=
  Yields.skip fun _ => Yields.bind (yields_expressionOf ha).commit fun _ he =>
    Yields.skip fun _ => Yields.pure
      ⟨he.1, (Nesting.suffixed_le_enclosed _ _).trans he.2, fun _ => he.2⟩

theorem yields_primaryOf (ha : YieldsAssignment room assignment) :
    Yields (primaryOf assignment) (FitsSuffix room) := by
  refine Yields.orElse ?_ (Yields.orElse ?_ (Yields.orElse ?_ (Yields.orElse ?_
    (Yields.orElse ?_ yields_variableName))))
  · exact Yields.bind yields_floatLiteral fun f hf =>
      Yields.pure (fitsSuffix_of_primary hf rfl (Nat.zero_le _))
  · exact Yields.skip fun value =>
      Yields.pure (fitsSuffix_of_primary trivial rfl (Nat.zero_le _))
  · exact Yields.skip fun value =>
      Yields.pure (fitsSuffix_of_primary trivial rfl (Nat.zero_le _))
  · exact yields_parenthesizedOf ha
  · exact yields_callOf ha

/-! ## Suffixes -/

/-- No step stands here: no `StepOp` is the symbol at the head. -/
def NoStep (input : List Char) : Prop :=
  ∀ op rest, symbolWhere StepOp.ofToken? input ≠ .matched op rest

/-- An operand before an input: a step that is not in brackets has no step behind it (`NoStep`). -/
def FitsBefore (room : Nat) (input : List Char) (e : Expr) : Prop :=
  e.WellFormed ∧ e.suffixedDepth ≤ room ∧
    (e.isStep = true → e.enclosedDepth ≤ room ∨ NoStep input)

/-- What a suffix holds is `WellFormed` and read with this room. -/
def SuffixFits (room : Nat) : Suffix → Prop
  | .index position => position.WellFormed ∧ position.enclosedDepth ≤ room
  | .field name => Word.isWord name = true
  | .step _ => True

theorem yields_suffixOf (ha : YieldsAssignment room assignment) :
    Yields (suffixOf assignment) (SuffixFits room) := by
  refine Yields.skip fun token => ?_
  split
  · exact Yields.bind (yields_expressionOf ha).commit fun position hposition =>
      Yields.skip fun _ => Yields.pure hposition
  · exact Yields.bind yields_anyWord.commit fun name hname => Yields.pure hname
  · split
    · exact Yields.mismatch _
    · refine Yields.skip fun ahead => ?_
      split
      · exact Yields.fail _
      · exact Yields.pure trivial

theorem noStep_of_suffixOf {input rest : List Char} {op : StepOp}
    (h : suffixOf assignment input = .matched (.step op) rest) : ¬ NoStep input ∧ NoStep rest := by
  obtain ⟨token, mid, htoken, h⟩ := matched_bind.1 h
  split at h
  · obtain ⟨position, _, -, h⟩ := matched_bind.1 h
    obtain ⟨_, _, -, h⟩ := matched_bind.1 h
    cases (matched_pure.1 h).1
  · obtain ⟨name, _, -, h⟩ := matched_bind.1 h
    cases (matched_pure.1 h).1
  · cases hop : StepOp.ofToken? token with
    | none =>
      rw [hop] at h
      cases h
    | some found =>
      rw [hop] at h
      obtain ⟨ahead, _, hahead, h⟩ := matched_bind.1 h
      obtain ⟨rfl, hiff⟩ := matched_lookingAt.1 hahead
      cases ahead with
      | true => cases h
      | false =>
        obtain ⟨-, rfl⟩ := matched_pure.1 h
        refine ⟨fun hnone => ?_, fun op' rest' hm => by cases hiff.2 ⟨op', rest', hm⟩⟩
        simp only [symbolWhere] at htoken
        split at htoken
        · next text tail hhead =>
          obtain ⟨rfl, -⟩ := Reply.matched.inj htoken
          exact hnone found (Blank.skip tail) (by simp only [symbolWhere, hhead, hop])
        · cases htoken

/-- What a suffix adds to an operand: `FitsBefore` goes from the operand to the operand with the
suffix, behind which the input is now. -/
theorem suffixOf_fits (ha : YieldsAssignment room assignment) {input rest : List Char}
    {suffix : Suffix} (h : suffixOf assignment input = .matched suffix rest) {e : Expr}
    (he : FitsBefore room input e) : FitsBefore room rest (suffix.attach e) := by
  obtain ⟨hwf, hdepth, hstep⟩ := he
  cases suffix with
  | index position =>
    obtain ⟨hpwf, hpdepth⟩ := yields_suffixOf ha _ _ _ h
    refine ⟨⟨hwf, hpwf⟩, ?_, fun h => Bool.noConfusion h⟩
    show (Expr.index e position).depth ≤ room
    rw [Expr.depth_index]
    exact max_le hdepth hpdepth
  | field name =>
    refine ⟨⟨yields_suffixOf ha _ _ _ h, hwf⟩, ?_, fun h => Bool.noConfusion h⟩
    show (Expr.field e name).depth ≤ room
    rw [Expr.depth_field]
    exact hdepth
  | step op =>
    obtain ⟨hhere, hbehind⟩ := noStep_of_suffixOf h
    refine ⟨hwf, ?_, fun _ => .inr hbehind⟩
    show (Expr.step op e).depth ≤ room
    rw [Expr.depth_step]
    split
    · next hstep' =>
      -- a step stands here, so the operand was in brackets
      exact (hstep hstep').resolve_right hhere
    · exact hdepth

theorem yields_suffixedOf (ha : YieldsAssignment room assignment) :
    Yields (suffixedOf assignment) fun e => e.WellFormed ∧ e.suffixedDepth ≤ room := by
  intro input e rest h
  obtain ⟨base, mid, hbase, h⟩ := matched_bind.1 h
  obtain ⟨suffixes, last, hsuffixes, h⟩ := matched_bind.1 h
  obtain ⟨rfl, rfl⟩ := matched_pure.1 h
  obtain ⟨hwf, hdepth, hstep⟩ := yields_primaryOf ha _ _ _ hbase
  have hall : FitsBefore room last (suffixes.foldl Suffix.attach base) := by
    refine many_invariant (I := fun vs input => FitsBefore room input (vs.foldl Suffix.attach base))
      ?_ ⟨hwf, hdepth, fun hs => .inl (hstep hs)⟩ hsuffixes
    intro vs input v rest hinv hv
    rw [List.foldl_append]
    exact suffixOf_fits ha hv hinv
  exact ⟨hall.1, hall.2.1⟩

theorem yields_unaryOf (ha : YieldsAssignment room assignment) (hu : YieldsUnary room unary) :
    YieldsUnary (room + 1) (unaryOf assignment unary) := by
  refine Yields.skip fun mark => ?_
  cases mark with
  | some op =>
    refine Yields.bind (Yields.commit hu) fun e he => Yields.pure ⟨he.1, ?_⟩
    have hdepth : (Expr.unary op e).depth ≤ room := by
      rw [Expr.depth_unary]
      exact he.2
    show 1 + (Expr.unary op e).depth ≤ room + 1
    omega
  | none =>
    refine (yields_suffixedOf ha).mono fun e he => ⟨he.1, ?_⟩
    have hle := Nesting.unary_le_suffixed e.precedence e.depth
    have hdepth := he.2
    rw [Expr.suffixedDepth] at hdepth
    rw [Expr.unaryDepth]
    omega

/-- What `Parser.assignment` and `Parser.unary`, the two rules that nest, give fits the room they
had. By induction on the room. -/
theorem yields_rules (room : Nat) :
    YieldsAssignment room (Parser.assignment room) ∧ YieldsUnary room (Parser.unary room) := by
  induction room with
  | zero =>
    refine ⟨fun input e rest h => ?_, fun input e rest h => ?_⟩
    · rw [Parser.assignment] at h
      cases h
    · rw [Parser.unary] at h
      cases h
  | succ room ih =>
    refine ⟨fun input e rest h => ?_, fun input e rest h => ?_⟩
    · rw [Parser.assignment] at h
      exact yields_assignmentOf ih.1 ih.2 _ _ _ h
    · rw [Parser.unary] at h
      exact yields_unaryOf ih.1 ih.2 _ _ _ h

theorem yields_assignment (room : Nat) : YieldsAssignment room (Parser.assignment room) :=
  (yields_rules room).1

theorem yields_expression (room : Nat) : YieldsExpression room (Parser.expression room) :=
  yields_expressionOf (yields_assignment room)

theorem yields_conditional (room : Nat) :
    Yields (Parser.conditional room) (Expr.Fits room .conditional) :=
  yields_conditionalOf (yields_rules room).1 (yields_rules room).2

end Parser

end ShaderMinifier
