import ShaderMinifier.Proofs.Declaration.Parsed
import ShaderMinifier.Proofs.Statement.Shape

/-
  What the statement parsers give fits into the room they had, and a statement that ends in an
  `if` without `else` is given only where no `else` follows.
-/

namespace ShaderMinifier

namespace Parser

variable {room : Nat} {statement : Parser Statement}

/-- No `else` stands here that `selectionOf` could still take. -/
def NoElse (input : List Char) : Prop := ∀ v rest, keyword "else" input ≠ .matched v rest

/-- The parser gives statements that are read with this room (`Fits`), an open one only before
something other than `else`. -/
def YieldsStatement (room : Nat) (p : Parser Statement) : Prop :=
  ∀ input s rest, p input = .matched s rest → s.Fits room ∧ (s.endsOpen = true → NoElse rest)

/-- A parser of statements that are never open (`endsOpen`) satisfies `YieldsStatement` whatever
stands behind them. -/
theorem yieldsStatement_of_closed {p : Parser Statement}
    (h : Yields p fun s => s.Fits room ∧ s.endsOpen = false) : YieldsStatement room p := by
  intro input s rest hm
  obtain ⟨hfits, hclosed⟩ := h _ _ _ hm
  refine ⟨hfits, fun hopen => ?_⟩
  rw [hclosed] at hopen
  cases hopen

theorem YieldsStatement.yields {p : Parser Statement} (h : YieldsStatement room p) :
    Yields p fun s => s.Fits room :=
  fun _ _ _ hm => (h _ _ _ hm).1

theorem yields_expressionStatement (room : Nat) :
    Yields (expressionStatement room) (SimpleStatement.Fits room) := by
  refine Yields.skip fun mark => ?_
  cases mark with
  | some _ => exact Yields.pure (by simp [SimpleStatement.Fits])
  | none =>
    refine Yields.bind (yields_expression room) fun e he => Yields.skip fun _ =>
      Yields.pure fun v hv => ?_
    obtain rfl := Option.some.inj hv
    exact he

theorem yields_simpleStatement (room : Nat) :
    Yields (simpleStatement room) (SimpleStatement.Fits room) := by
  refine Yields.bind (yields_localDeclaration room).optional fun decl hdecl => ?_
  cases decl with
  | some d => exact Yields.pure (hdecl d rfl)
  | none => exact yields_expressionStatement room

theorem yields_condition (room : Nat) : Yields (condition room) (Expr.FitsEnclosed room) :=
  Yields.skip fun _ => Yields.bind (Yields.commit (yields_expression room)) fun _ he =>
    Yields.skip fun _ => Yields.pure he

theorem yields_expressionBefore (room : Nat) (closing : String) :
    Yields (expressionBefore room closing) fun v => ∀ e ∈ v, e.FitsEnclosed room := by
  refine Yields.skip fun missing => ?_
  dsimp only
  split
  · exact Yields.bind (P := fun v => ∀ e ∈ v, e.FitsEnclosed room) (Yields.pure (by simp))
      fun v hv => Yields.skip fun _ => Yields.pure hv
  · refine Yields.bind (P := fun v => ∀ e ∈ v, e.FitsEnclosed room)
      (Yields.map (Yields.commit (yields_expression room)) fun e he v hv => ?_)
      fun v hv => Yields.skip fun _ => Yields.pure hv
    obtain rfl := Option.some.inj hv
    exact he

theorem yields_blockOf (hs : Yields statement fun s => s.Fits room) :
    Yields (blockOf statement) fun body => ∀ s ∈ body, s.Fits room := by
  refine Yields.skip fun _ => Yields.bind (Yields.many ?_) fun body hbody =>
    Yields.skip fun _ => Yields.pure hbody
  refine Yields.skip fun closing => ?_
  cases closing with
  | true => exact Yields.mismatch _
  | false => exact hs.commit

theorem yieldsStatement_selectionOf (hs : YieldsStatement room statement) :
    YieldsStatement (room + 1) (selectionOf room statement) := by
  intro input s rest h
  obtain ⟨_, _, -, h⟩ := matched_bind.1 h
  obtain ⟨test, _, htest, h⟩ := matched_bind.1 h
  obtain ⟨whenTrue, mid, hwhen, h⟩ := matched_bind.1 h
  obtain ⟨mark, after, hmark, hrest⟩ := matched_bind.1 h
  have hcond := yields_condition room _ _ _ htest
  obtain ⟨htrue, hopen⟩ := hs _ _ _ (matched_commit.1 hwhen)
  rcases matched_optional.1 hmark with ⟨u, rfl, helse⟩ | ⟨rfl, rfl, fault, hnone⟩
  · obtain ⟨whenFalse, _, hfalse, hrest⟩ := matched_bind.1 hrest
    obtain ⟨rfl, rfl⟩ := matched_pure.1 hrest
    obtain ⟨hf, hfopen⟩ := hs _ _ _ (matched_commit.1 hfalse)
    have hclosed : whenTrue.endsOpen = false := by
      rw [← Bool.not_eq_true]
      exact fun ho => hopen ho u after helse
    exact ⟨⟨by omega, hcond, htrue, hclosed, hf⟩, hfopen⟩
  · obtain ⟨rfl, rfl⟩ := matched_pure.1 hrest
    refine ⟨⟨by omega, hcond, htrue⟩, fun _ v rest hm => ?_⟩
    rw [hnone] at hm
    cases hm

theorem yieldsStatement_whileLoopOf (hs : YieldsStatement room statement) :
    YieldsStatement (room + 1) (whileLoopOf room statement) := by
  intro input s rest h
  obtain ⟨_, _, -, h⟩ := matched_bind.1 h
  obtain ⟨test, _, htest, h⟩ := matched_bind.1 h
  obtain ⟨body, _, hbody, h⟩ := matched_bind.1 h
  obtain ⟨rfl, rfl⟩ := matched_pure.1 h
  obtain ⟨hfits, hopen⟩ := hs _ _ _ (matched_commit.1 hbody)
  exact ⟨⟨by omega, yields_condition room _ _ _ htest, hfits⟩, hopen⟩

theorem yieldsStatement_doWhileOf (hs : YieldsStatement room statement) :
    YieldsStatement (room + 1) (doWhileOf room statement) :=
  yieldsStatement_of_closed <| Yields.skip fun _ => Yields.bind hs.yields.commit fun _ hbody =>
    Yields.skip fun _ => Yields.bind (yields_condition room) fun _ htest =>
      Yields.skip fun _ => Yields.pure ⟨⟨by omega, htest, hbody⟩, rfl⟩

theorem yieldsStatement_forLoopOf (hs : YieldsStatement room statement) :
    YieldsStatement (room + 1) (forLoopOf room statement) := by
  intro input s rest h
  obtain ⟨_, _, -, h⟩ := matched_bind.1 h
  obtain ⟨_, _, -, h⟩ := matched_bind.1 h
  obtain ⟨init, _, hinit, h⟩ := matched_bind.1 h
  obtain ⟨test, _, htest, h⟩ := matched_bind.1 h
  obtain ⟨step, _, hstep, h⟩ := matched_bind.1 h
  obtain ⟨body, _, hbody, h⟩ := matched_bind.1 h
  obtain ⟨rfl, rfl⟩ := matched_pure.1 h
  obtain ⟨hfits, hopen⟩ := hs _ _ _ (matched_commit.1 hbody)
  exact ⟨⟨by omega, (yields_simpleStatement room).commit _ _ _ hinit,
    yields_expressionBefore room _ _ _ _ htest, yields_expressionBefore room _ _ _ _ hstep, hfits⟩,
    hopen⟩

theorem yieldsStatement_jump {word : String} {s : Statement} (hfits : s.Fits room)
    (hclosed : s.endsOpen = false) : YieldsStatement room (jump word s) :=
  yieldsStatement_of_closed <| Yields.skip fun _ => Yields.skip fun _ =>
    Yields.pure ⟨hfits, hclosed⟩

theorem yieldsStatement_returnStatement :
    YieldsStatement (room + 1) (returnStatement room) :=
  yieldsStatement_of_closed <| Yields.skip fun _ =>
    Yields.bind (yields_expressionBefore room ";") fun _ hvalue =>
      Yields.pure ⟨⟨by omega, hvalue⟩, rfl⟩

theorem yieldsStatement_statementOf (hs : YieldsStatement room statement) :
    YieldsStatement (room + 1) (statementOf room statement) := by
  intro input s rest h
  rw [statementOf, here_bind] at h
  split at h
  · cases h
  · obtain ⟨brace, mid, hbrace, h⟩ := matched_bind.1 h
    obtain ⟨rfl, -⟩ := matched_lookingAt.1 hbrace
    cases brace with
    | true =>
      obtain ⟨body, _, hbody, h⟩ := matched_bind.1 h
      obtain ⟨rfl, -⟩ := matched_pure.1 h
      exact ⟨⟨by omega, Statement.allFit_iff.2 (yields_blockOf hs.yields _ _ _ hbody)⟩,
        by simp [Statement.endsOpen]⟩
    | false =>
      obtain ⟨word, _, -, h⟩ := matched_bind.1 h
      split at h
      · exact yieldsStatement_selectionOf hs _ _ _ h
      · exact yieldsStatement_whileLoopOf hs _ _ _ h
      · exact yieldsStatement_doWhileOf hs _ _ _ h
      · exact yieldsStatement_forLoopOf hs _ _ _ h
      · exact yieldsStatement_jump (s := .continueLoop) (Nat.succ_pos room) rfl _ _ _ h
      · exact yieldsStatement_jump (s := .breakLoop) (Nat.succ_pos room) rfl _ _ _ h
      · exact yieldsStatement_jump (s := .discard) (Nat.succ_pos room) rfl _ _ _ h
      · exact yieldsStatement_returnStatement _ _ _ h
      · obtain ⟨stmt, _, hstmt, h⟩ := matched_bind.1 h
        obtain ⟨rfl, -⟩ := matched_pure.1 h
        exact ⟨⟨by omega, yields_simpleStatement room _ _ _ hstmt⟩, by simp [Statement.endsOpen]⟩

theorem yieldsStatement_statement (room : Nat) :
    YieldsStatement room (Parser.statement room) := by
  induction room with
  | zero =>
    intro input s rest h
    rw [Parser.statement] at h
    cases h
  | succ room ih =>
    intro input s rest h
    rw [Parser.statement] at h
    exact yieldsStatement_statementOf ih _ _ _ h

theorem yields_block (room : Nat) :
    Yields (block room) fun body => ∀ s ∈ body, s.Fits room :=
  yields_blockOf (yieldsStatement_statement room).yields

end Parser

end ShaderMinifier
