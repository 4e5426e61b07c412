import ShaderMinifier.Proofs.Expr.Parsed
import ShaderMinifier.Proofs.Grammar.Ledger
import ShaderMinifier.Tree

/-
  An expression is written with lexemes of its source only. Whatever a source says, the pieces
  that the writer puts for the expression that was read stand in the source in the same order
  (`Transcribes`): brackets among them. At a place that asks for a level of binding these are the
  pieces for that level, since a parser of a level reads looser expressions in brackets only.
-/

namespace ShaderMinifier

open scoped List

namespace Expr

theorem piecesAt_sublist {a b : Precedence} (hab : a ≤ b) (e : Expr) :
    e.piecesAt a <+ e.piecesAt b := by
  by_cases ha : e.precedence < a
  · have hb : e.precedence < b := Nat.lt_of_lt_of_le ha hab
    rw [piecesAt_of_lt ha, piecesAt_of_lt hb]
  · rw [piecesAt_of_le (Precedence.not_lt.1 ha), piecesAt, slotted]
    split
    · exact (List.sublist_append_left _ _).cons _
    · exact List.Sublist.refl _

theorem pieces_sublist (level : Precedence) (e : Expr) : e.pieces <+ e.piecesAt level := by
  rw [piecesAt, slotted]
  split
  · exact (List.sublist_append_left _ _).cons _
  · exact List.Sublist.refl _

theorem piecesAt_sublist_parenthesized (level : Precedence) (e : Expr) :
    e.piecesAt level <+ Piece.parenthesized e.pieces := by
  rw [piecesAt, slotted]
  split
  · exact List.Sublist.refl _
  · exact (List.sublist_append_left _ _).cons _

theorem composes_piecesAt :
    Composes (fun op => [Piece.token op.token]) fun level e ls => e.piecesAt level <+ ls where
  mono hab h := (piecesAt_sublist hab _).trans h
  binary := by
    intro op x y ls ms hx hy
    have hplain : (binary op x y).piecesAt op.precedence = (binary op x y).pieces :=
      piecesAt_of_le (Nat.le_refl _)
    rw [hplain, pieces_binary]
    exact hx.append (hy.cons_cons _)

end Expr

/-- The pieces of a suffix, those that `Suffix.attach` adds behind its operand's. -/
def Suffix.pieces : Suffix → List Piece
  | .index position => .token "[" :: (position.pieces ++ [Piece.token "]"])
  | .field name => [.token ".", .token name]
  | .step op => [.token op.token]

namespace Parser

open Piece

variable {L : Ledger} {assignment unary : Parser Expr}

theorem transcribes_expressionOf (ha : Transcribes L [] assignment (Expr.piecesAt .assignment)) :
    Transcribes L [] (expressionOf assignment) Expr.pieces := by
  refine (Transcribes.separated ha ha.commit (transcribes_symbol (by decide))).bind fun items => ?_
  split
  · next item => exact .pure (Expr.pieces_sublist _ item)
  · refine .pure ?_
    rw [Expr.pieces_sequence]

theorem transcribes_chainOf (hu : Transcribes L [] unary (Expr.piecesAt .unary)) :
    Transcribes L [] (chainOf unary) (Expr.piecesAt .logicalOr) := by
  have hop : Transcribes L [] (symbolWhere BinaryOp.ofToken?) fun op => [.token op.token] :=
    transcribes_symbolWhere (by decide) fun text op h => by
      simpa using List.find?_some h
  have hlink : Transcribes L [] (do
      let op ← symbolWhere BinaryOp.ofToken?
      let right ← commit unary
      return (op, right)) fun link => .token link.1.token :: link.2.piecesAt .unary :=
    hop.bind fun op => (hu.commit.behind _).bind fun right => .pure (List.Sublist.refl _)
  refine hu.bind fun first => (hlink.many _).bind fun others => .pure ?_
  have hlevels : ∀ (e : Expr) (level : Precedence), level ≤ .unary →
      e.piecesAt level <+ e.piecesAt .unary := fun e _ hle => Expr.piecesAt_sublist hle e
  refine Expr.composes_piecesAt.ofChain (hlevels first) ?_
  induction others with
  | nil => exact .nil
  | cons link others ih => exact .cons (hlevels link.2) ih

theorem transcribes_conditionalOf (ha : Transcribes L [] assignment (Expr.piecesAt .assignment))
    (hu : Transcribes L [] unary (Expr.piecesAt .unary)) :
    Transcribes L [] (conditionalOf assignment unary) (Expr.piecesAt .conditional) := by
  refine (transcribes_chainOf hu).bind fun condition =>
    ((transcribes_symbol (by decide)).behind _).optional.bind fun mark => ?_
  cases mark with
  | none => exact .pure (Expr.piecesAt_sublist (by decide) condition)
  | some _ =>
    refine ((transcribes_expressionOf ha).commit.behind _).bind fun whenTrue =>
      ((transcribes_symbol (by decide)).commit.behind _).bind fun _ =>
        (ha.commit.behind _).bind fun whenFalse => .pure ?_
    have hplain : (Expr.ternary condition whenTrue whenFalse).piecesAt .conditional =
        (Expr.ternary condition whenTrue whenFalse).pieces := Expr.piecesAt_of_le (Nat.le_refl _)
    rw [hplain, Expr.pieces_ternary]
    simp

theorem transcribes_assignmentOf (ha : Transcribes L [] assignment (Expr.piecesAt .assignment))
    (hu : Transcribes L [] unary (Expr.piecesAt .unary)) :
    Transcribes L [] (assignmentOf assignment unary) (Expr.piecesAt .assignment) := by
  have hop : Transcribes L [] (symbolWhere AssignOp.ofToken?) fun op => [.token op.token] :=
    transcribes_symbolWhere (by decide) fun text op h => by
      simpa using List.find?_some h
  refine (transcribes_conditionalOf ha hu).bind fun left => Transcribes.here.bind fun place =>
    (hop.behind _).optional.bind fun mark => ?_
  cases mark with
  | none => exact .pure (Expr.piecesAt_sublist (by decide) left)
  | some op =>
    simp only
    split
    · exact .failAt _ _
    · next hp =>
      refine (ha.commit.behind _).bind fun right => .pure ?_
      have hplain : (Expr.assign op left right).piecesAt .assignment =
          (Expr.assign op left right).pieces := Expr.piecesAt_of_le (Nat.le_refl _)
      -- a target that binds tightly needs no brackets
      have hle : Precedence.unary ≤ left.precedence := Precedence.not_lt.1 hp
      have hle' : Precedence.conditional ≤ left.precedence := Nat.le_trans (by decide) hle
      rw [hplain, Expr.pieces_assign, Expr.piecesAt_of_le hle, Expr.piecesAt_of_le hle']
      simp

theorem transcribes_emptyList : Transcribes L [] emptyList fun _ => [.token ")"] := by
  have hclose : Transcribes L [] (symbol ")") fun _ => [.token ")"] :=
    transcribes_symbol (by decide)
  exact .orElse hclose ((transcribes_keyword "void").bind fun _ =>
    (hclose.behind _).mono fun _ => List.sublist_append_right _ _)

theorem transcribes_argumentsOf (ha : Transcribes L [] assignment (Expr.piecesAt .assignment)) :
    Transcribes L [] (argumentsOf assignment) fun args =>
      commaSeparated (args.map (Expr.piecesAt .assignment)) ++ [.token ")"] := by
  have hclose : Transcribes L [] (symbol ")") fun _ => [.token ")"] :=
    transcribes_symbol (by decide)
  refine transcribes_emptyList.optional.bind fun empty => ?_
  cases empty with
  | some _ => exact .pure (List.Sublist.refl _)
  | none =>
    refine (Transcribes.separated ha ha (transcribes_symbol (by decide))).bind fun args => ?_
    exact (hclose.behind _).bind fun _ => .pure (List.Sublist.refl _)

theorem transcribes_callOf (ha : Transcribes L [] assignment (Expr.piecesAt .assignment)) :
    Transcribes L [] (callOf assignment) (Expr.piecesAt .primary) := by
  intro lead input e rest hin hm
  obtain ⟨word, mid, hnext, hm⟩ := matched_bind.1 hm
  cases word with
  | none => cases hm
  | some callee =>
    simp only at hm
    split at hm
    · refine Transcribes.ahead ?_ hin hnext hm
      refine ((transcribes_symbol (by decide)).behind _).bind fun _ =>
        ((transcribes_argumentsOf ha).commit.behind _).bind fun args => .pure ?_
      have hplain : (Expr.call callee args).piecesAt .primary = (Expr.call callee args).pieces :=
        Expr.piecesAt_of_le (Nat.le_refl _)
      rw [hplain, Expr.pieces, Expr.itemPieces_eq_map, parenthesized]
      simp
    · cases hm

theorem transcribes_variableName : Transcribes L [] variableName (Expr.piecesAt .primary) := by
  intro lead input e rest hin hm
  obtain ⟨word, mid, hnext, hm⟩ := matched_bind.1 hm
  cases word with
  | none => cases hm
  | some name =>
    simp only at hm
    split at hm
    · cases hm
    · refine Transcribes.ahead (.pure ?_) hin hnext hm
      exact List.Sublist.refl _

theorem transcribes_parenthesizedOf (ha : Transcribes L [] assignment (Expr.piecesAt .assignment)) :
    Transcribes L [] (parenthesizedOf assignment) (Expr.piecesAt .primary) := by
  refine (transcribes_symbol (by decide)).bind fun _ =>
    ((transcribes_expressionOf ha).commit.behind _).bind fun inner =>
      ((transcribes_symbol (by decide)).commit.behind _).bind fun _ => .pure ?_
  exact Expr.piecesAt_sublist_parenthesized _ inner

theorem transcribes_primaryOf (ha : Transcribes L [] assignment (Expr.piecesAt .assignment)) :
    Transcribes L [] (primaryOf assignment) (Expr.piecesAt .primary) := by
  intro lead input e rest hin hm
  rcases matched_orElse_mismatch hm with hm | ⟨⟨fault, hfault⟩, hm⟩
  · exact (transcribes_floatLiteral.bind fun f => .pure (List.Sublist.refl _)) _ _ _ _ hin hm
  · obtain ⟨fault, hfloat⟩ : ∃ fault, floatLiteral input = .mismatch fault := by
      cases hread : floatLiteral input with
      | matched v tail =>
        rw [bind_of_matched hread] at hfault
        cases hfault
      | mismatch fault => exact ⟨fault, rfl⟩
      | failure fault =>
        rw [bind_of_failure hread] at hfault
        cases hfault
    rcases matched_orElse hm with hm | hm
    · obtain ⟨value, mid, hint, hm⟩ := matched_bind.1 hm
      obtain ⟨rfl, rfl⟩ := matched_pure.1 hm
      obtain ⟨tail, rfl, hhead⟩ := atHead_intLiteral hfloat hint
      rw [List.append_nil] at hin
      exact L.add hhead hin
    · refine Transcribes.orElse ?_ (.orElse (transcribes_parenthesizedOf ha)
        (.orElse (transcribes_callOf ha) transcribes_variableName)) _ _ _ _ hin hm
      exact transcribes_boolLiteral.bind fun b => .pure (List.Sublist.refl _)

/-! ## Suffixes -/

theorem transcribes_suffixOf (ha : Transcribes L [] assignment (Expr.piecesAt .assignment)) :
    Transcribes L [] (suffixOf assignment) Suffix.pieces := by
  intro lead input suffix rest hin hm
  rw [List.append_nil] at hin
  obtain ⟨token, mid, htoken, hm⟩ := matched_bind.1 hm
  obtain ⟨tail, hhead, rfl⟩ : ∃ tail, Symbol.atHead? input = some (token, tail) ∧
      mid = Blank.skip tail := by
    simp only [symbolWhere] at htoken
    split at htoken
    · next found tail hhead =>
      obtain ⟨rfl, rfl⟩ := Reply.matched.inj htoken
      exact ⟨tail, hhead, rfl⟩
    · cases htoken
  split at hm
  · have hposition : Transcribes L [.token "["] (do
        let position ← commit (expressionOf assignment)
        commit (symbol "]")
        return Suffix.index position) Suffix.pieces :=
      ((transcribes_expressionOf ha).commit.behind _).bind fun position =>
        ((transcribes_symbol (by decide)).commit.behind _).bind fun _ =>
          .pure (by simp [Suffix.pieces])
    exact hposition _ _ _ _
      (L.add (.symbol hhead (Symbol.lexemeAtHead_error hhead (by decide))) hin) hm
  · obtain ⟨name, _, hname, hm⟩ := matched_bind.1 hm
    obtain ⟨rfl, rfl⟩ := matched_pure.1 hm
    have hword := matched_commit.1 hname
    simp only [anyWord, wordWhere] at hword
    split at hword
    · next found last hfound =>
      obtain ⟨rfl, rfl⟩ := Reply.matched.inj hword
      have hpoint := L.add (.symbol hhead (Symbol.lexemeAtHead_point hhead hfound)) hin
      have hfield := L.add (.word hfound) hpoint
      rwa [List.append_assoc] at hfield
    · cases hword
  · next hpoint =>
    cases hop : StepOp.ofToken? token with
    | none =>
      rw [hop] at hm
      cases hm
    | some op =>
      rw [hop] at hm
      obtain ⟨ahead, _, hahead, hm⟩ := matched_bind.1 hm
      obtain ⟨rfl, -⟩ := matched_lookingAt.1 hahead
      cases ahead with
      | true => cases hm
      | false =>
        obtain ⟨rfl, rfl⟩ := matched_pure.1 hm
        have htext : op.token = token := by simpa using List.find?_some hop
        rw [Suffix.pieces, htext]
        exact L.add (.symbol hhead (Symbol.lexemeAtHead_error hhead hpoint)) hin

/-- The operand before an input is accounted for by the `Ledger`; a step that is not in brackets
there has no step behind it (`NoStep`). -/
def TranscribedBefore (L : Ledger) (lead : List Piece) (input : List Char) (e : Expr) : Prop :=
  L.Holds input (lead ++ e.piecesAt .suffixed) ∧
    (e.isStep = true → L.Holds input (lead ++ parenthesized e.pieces) ∨ NoStep input)

theorem transcribedBefore_attach (ha : Transcribes L [] assignment (Expr.piecesAt .assignment))
    {lead : List Piece} {input rest : List Char} {suffix : Suffix} {e : Expr}
    (h : suffixOf assignment input = .matched suffix rest)
    (he : TranscribedBefore L lead input e) :
    TranscribedBefore L lead rest (suffix.attach e) := by
  obtain ⟨hpieces, hstep⟩ := he
  have hsuffix : ∀ operand, L.Holds input (lead ++ operand) →
      L.Holds rest (lead ++ (operand ++ suffix.pieces)) :=
    fun operand hin => (transcribes_suffixOf ha).behind operand lead input suffix rest hin h
  have hplain : ∀ {x : Expr}, x.precedence = .suffixed → x.piecesAt .suffixed = x.pieces :=
    fun hx => Expr.piecesAt_of_le (by rw [hx]; exact Nat.le_refl _)
  cases suffix with
  | index position =>
    refine ⟨?_, fun h => Bool.noConfusion h⟩
    rw [Suffix.attach, hplain rfl, Expr.pieces_index]
    exact hsuffix _ hpieces
  | field name =>
    refine ⟨?_, fun h => Bool.noConfusion h⟩
    rw [Suffix.attach, hplain rfl, Expr.pieces_field]
    exact hsuffix _ hpieces
  | step op =>
    obtain ⟨hhere, hbehind⟩ := noStep_of_suffixOf h
    refine ⟨?_, fun _ => .inr hbehind⟩
    rw [Suffix.attach, hplain rfl, Expr.pieces, Expr.stepped]
    split
    · next hstep' => exact hsuffix _ ((hstep hstep').resolve_right hhere)
    · exact hsuffix _ hpieces

theorem transcribes_suffixedOf (ha : Transcribes L [] assignment (Expr.piecesAt .assignment)) :
    Transcribes L [] (suffixedOf assignment) (Expr.piecesAt .suffixed) := by
  intro lead input e rest hin hm
  obtain ⟨base, mid, hbase, hm⟩ := matched_bind.1 hm
  obtain ⟨suffixes, last, hsuffixes, hm⟩ := matched_bind.1 hm
  obtain ⟨rfl, rfl⟩ := matched_pure.1 hm
  have hprimary := transcribes_primaryOf ha lead input base mid hin hbase
  have hstart : TranscribedBefore L lead mid base := by
    refine ⟨L.drop hprimary ((Expr.piecesAt_sublist (by decide) base).append_left lead),
      fun hstep => .inl ?_⟩
    have hlt : base.precedence < .primary := by
      cases base with
      | step op x => exact (by decide : Precedence.suffixed < .primary)
      | _ => cases hstep
    rwa [Expr.piecesAt_of_lt hlt] at hprimary
  have hall : TranscribedBefore L lead last (suffixes.foldl Suffix.attach base) := by
    refine many_invariant (I := fun vs place => TranscribedBefore L lead place
      (vs.foldl Suffix.attach base)) ?_ hstart hsuffixes
    intro vs place suffix rest hbefore hsuffix
    rw [List.foldl_append]
    exact transcribedBefore_attach ha hsuffix hbefore
  exact hall.1

/-! ## All levels -/

theorem transcribes_unaryOf (ha : Transcribes L [] assignment (Expr.piecesAt .assignment))
    (hu : Transcribes L [] unary (Expr.piecesAt .unary)) :
    Transcribes L [] (unaryOf assignment unary) (Expr.piecesAt .unary) := by
  have hop : Transcribes L [] (symbolWhere UnaryOp.ofToken?) fun op => [.token op.token] :=
    transcribes_symbolWhere (by decide) fun text op h => by
      simpa using List.find?_some h
  refine hop.optional.bind fun mark => ?_
  cases mark with
  | none => exact (transcribes_suffixedOf ha).mono fun e => Expr.piecesAt_sublist (by decide) e
  | some op =>
    refine (hu.commit.behind _).bind fun operand => .pure ?_
    have hplain : (Expr.unary op operand).piecesAt .unary = (Expr.unary op operand).pieces :=
      Expr.piecesAt_of_le (Nat.le_refl _)
    rw [hplain, Expr.pieces_unary]
    exact List.Sublist.refl _

/-- What is read by `Parser.assignment` and `Parser.unary`, the two rules that nest, is accounted
for as it will be written. By induction on the room. -/
theorem transcribes_rules (room : Nat) :
    Transcribes L [] (Parser.assignment room) (Expr.piecesAt .assignment) ∧
      Transcribes L [] (Parser.unary room) (Expr.piecesAt .unary) := by
  induction room with
  | zero =>
    refine ⟨fun lead input e rest hin hm => ?_, fun lead input e rest hin hm => ?_⟩
    · rw [Parser.assignment] at hm
      cases hm
    · rw [Parser.unary] at hm
      cases hm
  | succ room ih =>
    refine ⟨fun lead input e rest hin hm => ?_, fun lead input e rest hin hm => ?_⟩
    · rw [Parser.assignment] at hm
      exact transcribes_assignmentOf ih.1 ih.2 _ _ _ _ hin hm
    · rw [Parser.unary] at hm
      exact transcribes_unaryOf ih.1 ih.2 _ _ _ _ hin hm

theorem transcribes_assignment (room : Nat) :
    Transcribes L [] (Parser.assignment room) (Expr.piecesAt .assignment) :=
  (transcribes_rules room).1

theorem transcribes_expression (room : Nat) :
    Transcribes L [] (Parser.expression room) Expr.pieces :=
  transcribes_expressionOf (transcribes_assignment room)

theorem transcribes_conditional (room : Nat) :
    Transcribes L [] (Parser.conditional room) (Expr.piecesAt .conditional) :=
  transcribes_conditionalOf (transcribes_rules room).1 (transcribes_rules room).2

end Parser

/-- The pieces of an expression stand in each source of it, in their order: they are a sublist of
what is `Lexed` there. -/
theorem Expr.lexed_of_parse {source : String} {e : Expr} (h : Expr.parse source = .ok e) :
    ∃ ls, Lexed (Blank.skip source.toList) ls [] ∧ e.pieces <+ ls := by
  obtain ⟨_, _, hblank, hread⟩ := Parser.matched_bind.1 (Parser.run_eq_ok.1 h)
  cases hblank
  exact Parser.transcribes_expression Parser.maxNesting [] _ _ _
    (show (Ledger.lexemes (Blank.skip source.toList)).Holds _ [] from
      ⟨[], .nil, List.Sublist.refl _⟩) hread

end ShaderMinifier
