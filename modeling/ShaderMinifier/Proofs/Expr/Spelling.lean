import ShaderMinifier.Proofs.Expr.Shape
import ShaderMinifier.Proofs.Text.Clean

/-
  The pieces of an expression: how they start, what may stand behind them, and that they are
  clean. `Starts` lists the ways a well-formed expression begins; `Phrased` says which pieces
  stand behind which in an expression, and clean pieces are what this comes to for the layout.
-/

namespace ShaderMinifier

open Piece

/-! ## Operators as symbols -/

theorem UnaryOp.token_mem (op : UnaryOp) : op.token ∈ Symbol.all := by cases op <;> decide

theorem StepOp.token_mem (op : StepOp) : op.token ∈ Symbol.all := by cases op <;> decide

theorem StepOp.token_firm (op : StepOp) : op.token ∈ Symbol.firm := by cases op <;> decide

theorem BinaryOp.token_mem (op : BinaryOp) : op.token ∈ Symbol.all := by cases op <;> decide

theorem AssignOp.token_mem (op : AssignOp) : op.token ∈ Symbol.all := by cases op <;> decide

theorem UnaryOp.ofToken?_token (op : UnaryOp) : UnaryOp.ofToken? op.token = some op := by
  cases op <;> decide

theorem StepOp.ofToken?_token (op : StepOp) : StepOp.ofToken? op.token = some op := by
  cases op <;> decide

theorem BinaryOp.ofToken?_token (op : BinaryOp) : BinaryOp.ofToken? op.token = some op := by
  cases op <;> decide

theorem AssignOp.ofToken?_token (op : AssignOp) : AssignOp.ofToken? op.token = some op := by
  cases op <;> decide

/-! ## The start of an expression -/

/-- Pieces that start like an expression: with a name, a truth value, a callee, a number, a bracket
or a `UnaryOp`. -/
inductive Starts : List Piece → Prop
  | name {w : String} {rest : List Piece} (hw : Word.isWord w = true)
      (hr : Word.isReserved w = false) (hrest : headWord? rest = none) : Starts (.token w :: rest)
  | truth {w : String} {rest : List Piece} (hw : w = "true" ∨ w = "false")
      (hrest : headWord? rest = none) : Starts (.token w :: rest)
  | callee {w : String} {rest : List Piece} (hw : Word.isWord w = true)
      (hn : Word.isTypeName w = true) : Starts (.token w :: .token "(" :: rest)
  | number {t : String} {rest : List Piece} : Starts (.number t :: rest)
  | bracket {rest : List Piece} : Starts (.token "(" :: rest)
  | operator (op : UnaryOp) {rest : List Piece} : Starts (.token op.token :: rest)

namespace Starts

variable {k : List Piece}

/-- The symbols that an expression may start with (`Starts`); the point is the start of a number. -/
theorem headSymbol? (h : Starts k) : headSymbol? k ∈ [none, some ".", some "(", some "+",
    some "-", some "++", some "--", some "!", some "~"] := by
  cases h with
  | name hw _ _ => simp [headSymbol?_word hw]
  | @truth w _ hw _ =>
    have hword : Word.isWord w = true := by
      obtain rfl | rfl := hw <;> decide
    simp [headSymbol?_word hword]
  | callee hw _ => simp [headSymbol?_word hw]
  | number =>
    simp only [ShaderMinifier.headSymbol?]
    split <;> simp
  | bracket => simp [headSymbol?_symbol (by decide : "(" ∈ Symbol.all)]
  | operator op =>
    rw [headSymbol?_symbol op.token_mem]
    cases op <;> decide

theorem headSymbol?_ne (h : Starts k) {t : String}
    (ht : t ∉ [".", "(", "+", "-", "++", "--", "!", "~"]) :
    ShaderMinifier.headSymbol? k ≠ some t := by
  intro heq
  have hmem := h.headSymbol?
  rw [heq] at hmem
  simp only [List.mem_cons, Option.some.injEq, reduceCtorEq, false_or, List.not_mem_nil,
    or_false] at hmem ht
  exact ht hmem

theorem isApart_symbol (h : Starts k) {t : String} (ht : t ∈ Symbol.all) :
    ∀ q ∈ k.head?, (Piece.token t).isLexeme = true → q.isLexeme = true →
      (Piece.token t).isApart q = true := by
  -- which first characters do no harm
  have hpart : ∀ {q : Piece} {c : Char}, q.first? = some c → Word.isPart c = true →
      (Piece.token t).isApart q = true := by
    intro q c hq hc
    have hgrow : Symbol.grows t c = false := Symbol.grows_eq_false (by simp [hc]) t
    simp [isApart, hq, hgrow]
  have hmark : ∀ t ∈ Symbol.all, ∀ s ∈ ["(", "+", "-", "++", "--", "!", "~", "."],
      (Piece.token t).isApart (.token s) = true := by decide +kernel
  intro q hq _ hqlex
  cases h with
  | name hw _ _ =>
    obtain rfl := by simpa using hq
    obtain ⟨c, cs, hlist, hc, -⟩ := Word.isWord_iff.1 hw
    exact hpart (by simp [first?, text, hlist]) (Word.isPart_of_isStart hc)
  | truth hw _ =>
    obtain rfl := by simpa using hq
    obtain rfl | rfl := hw
    · exact hpart (c := 't') rfl (by decide)
    · exact hpart (c := 'f') rfl (by decide)
  | callee hw _ =>
    obtain rfl := by simpa using hq
    obtain ⟨c, cs, hlist, hc, -⟩ := Word.isWord_iff.1 hw
    exact hpart (by simp [first?, text, hlist]) (Word.isPart_of_isStart hc)
  | @number n rest =>
    obtain rfl := by simpa using hq
    obtain ⟨c, cs, hlist⟩ := text_ne_nil hqlex
    simp only [text] at hlist
    simp only [isLexeme, hlist, List.head?_cons, Option.any_some, Bool.or_eq_true,
      beq_iff_eq] at hqlex
    rcases hqlex with hd | rfl
    · exact hpart (by simp [first?, text, hlist]) (Word.isPart_of_isDigit hd)
    · have hdot := hmark t ht "." (by decide)
      have hfirst : (Piece.number n).first? = (Piece.token ".").first? := by
        simp [first?, text, hlist]
      simpa only [isApart, hfirst] using hdot
  | bracket =>
    obtain rfl := by simpa using hq
    exact hmark t ht "(" (by decide)
  | operator op =>
    obtain rfl := by simpa using hq
    exact hmark t ht op.token (by cases op <;> decide)

end Starts

theorem Piece.Clean.before_start {t : String} (ht : t ∈ Symbol.all) {k : List Piece}
    (hk : Clean k) (hs : Starts k) : Clean (.token t :: k) := by
  refine Clean.symbol ht hk fun q hq => ?_
  exact hs.isApart_symbol ht q hq (by simp [isLexeme, ht])
    (hk.lexemes q (List.mem_of_mem_head? hq))

namespace Expr

theorem starts_slotted {level : Precedence} {e : Expr} {inner k : List Piece}
    (h : Starts (inner ++ k)) : Starts (e.slotted level inner ++ k) := by
  unfold slotted
  split
  · exact .bracket
  · exact h

theorem starts_stepped {e : Expr} {inner k : List Piece} (h : Starts (inner ++ k)) :
    Starts (e.stepped inner ++ k) := by
  unfold stepped
  split
  · exact .bracket
  · exact starts_slotted h

theorem starts_pieces {e : Expr} (he : e.WellFormed) {k : List Piece} (hk : headWord? k = none) :
    Starts (e.pieces ++ k) := by
  induction e generalizing k with
  | identifier name => exact .name he.1 he.2 hk
  | int value => exact .number
  | float value => exact .number
  | bool value => exact .truth (by cases value <;> simp) hk
  | unary op x ih => exact .operator op
  | step op x ih =>
    rw [pieces, List.append_assoc]
    exact starts_stepped (ih he (headWord?_symbol op.token_mem))
  | binary op x y ihx _ =>
    rw [pieces, List.append_assoc]
    exact starts_slotted (ihx he.1 (headWord?_symbol op.token_mem))
  | assign op x y ihx _ =>
    rw [pieces, List.append_assoc]
    exact starts_slotted (ihx he.2.1 (headWord?_symbol op.token_mem))
  | ternary x y z ihx _ _ =>
    rw [pieces, List.append_assoc, List.append_assoc]
    exact starts_slotted (ihx he.1 (headWord?_symbol (by decide)))
  | index x y ihx _ =>
    rw [pieces, List.append_assoc, List.append_assoc]
    exact starts_slotted (ihx he.1 (headWord?_symbol (by decide)))
  | field x name ihx =>
    rw [pieces, List.append_assoc]
    exact starts_slotted (ihx he.2 (headWord?_symbol (by decide)))
  | call callee args _ => exact .callee he.1 he.2.1
  | sequence items ih =>
    obtain ⟨hlen, hall⟩ := he
    rw [allWellFormed_iff] at hall
    obtain ⟨x, y, others, rfl⟩ := exists_cons_cons hlen
    rw [pieces, itemPieces, commaSeparated_cons _ (by simp [itemPieces]), List.append_assoc]
    exact starts_slotted (ih x (by simp) (hall x (by simp)) (headWord?_symbol (by decide)))

theorem starts_piecesAt {e : Expr} (he : e.WellFormed) (level : Precedence) {k : List Piece}
    (hk : headWord? k = none) : Starts (e.piecesAt level ++ k) :=
  starts_slotted (starts_pieces he hk)

end Expr

/-! ## Pieces in a row -/

/-- Pieces that stand one behind the other as in an expression, up to a tail: words and numbers have
a symbol behind them, a point has a word, and a symbol that could grow has an operand (`Starts`). -/
inductive Phrased (Tail : List Piece → Prop) : List Piece → Prop
  | tail {k : List Piece} (h : Tail k) : Phrased Tail k
  | word {w : String} {k : List Piece} (hw : Word.isWord w = true) (hk : Phrased Tail k)
      (hb : Behind k) : Phrased Tail (.token w :: k)
  | float {f : FloatLiteral} {k : List Piece} (hf : f.Proper) (hk : Phrased Tail k)
      (hb : Behind k) : Phrased Tail (.number f.text :: k)
  | int (value : UInt64) {k : List Piece} (hk : Phrased Tail k) (hb : Behind k) :
    Phrased Tail (.number (String.ofList (Nat.toDigits 10 value.toNat)) :: k)
  | firm {t : String} {k : List Piece} (ht : t ∈ Symbol.firm) (hne : t ≠ ".")
      (hk : Phrased Tail k) : Phrased Tail (.token t :: k)
  | before {t : String} {k : List Piece} (ht : t ∈ Symbol.all) (hne : t ≠ ".")
      (hk : Phrased Tail k) (hs : Starts k) : Phrased Tail (.token t :: k)
  | point {w : String} {k : List Piece} (hw : Word.isWord w = true) (hk : Phrased Tail k)
      (hb : Behind k) : Phrased Tail (.token "." :: .token w :: k)

namespace Phrased

variable {Tail : List Piece → Prop} {ps qs : List Piece}

theorem clean {k : List Piece} (h : Phrased Tail k) (htail : ∀ k, Tail k → Clean k) : Clean k := by
  induction h with
  | tail h => exact htail _ h
  | word hw _ _ ih => exact Clean.word (Word.isWordLike_of_isWord hw) ih
  | float hf _ hb ih => exact Clean.number hf.isLexeme ih hb
  | int value _ hb ih => exact Clean.number (Integer.isLexeme_toDigits _) ih hb
  | firm ht _ _ ih => exact Clean.firm ht ih
  | before ht _ _ hs ih => exact Clean.before_start ht ih hs
  | point hw _ _ ih =>
    exact Clean.firm (by decide) (Clean.word (Word.isWordLike_of_isWord hw) ih)

theorem parenthesized (h : Extends (Phrased Tail) ps) :
    Extends (Phrased Tail) (Piece.parenthesized ps) := by
  refine h.parenthesized fun t ht k hk => .firm ?_ ?_ hk
  · exact (by decide : ∀ t ∈ ["(", ")"], t ∈ Symbol.firm) t ht
  · exact (by decide : ∀ t ∈ ["(", ")"], t ≠ ".") t ht

theorem slotted (h : Extends (Phrased Tail) ps) (level : Precedence) (e : Expr) :
    Extends (Phrased Tail) (e.slotted level ps) := by
  unfold Expr.slotted
  split
  · exact parenthesized h
  · exact h

theorem stepped (h : Extends (Phrased Tail) ps) (e : Expr) :
    Extends (Phrased Tail) (e.stepped ps) := by
  unfold Expr.stepped
  split
  · exact parenthesized h
  · exact slotted h _ e

theorem between (hp : Extends (Phrased Tail) ps) (hq : Extends (Phrased Tail) qs) {t : String}
    (ht : t ∈ Symbol.all) (hne : t ≠ ".") (hs : ∀ k, headWord? k = none → Starts (qs ++ k)) :
    Extends (Phrased Tail) (ps ++ .token t :: qs) := by
  intro k hk hb
  rw [List.append_assoc, List.cons_append]
  exact hp _ (.before ht hne (hq k hk hb) (hs k hb.headWord?)) (behind_symbol ht _)

end Phrased

namespace Expr

theorem phrased_pieces {Tail : List Piece → Prop} {e : Expr} (he : e.WellFormed) :
    Extends (Phrased Tail) e.pieces := by
  induction e with
  | identifier name => exact fun k hk hb => .word he.1 hk hb
  | int value => exact fun k hk hb => .int value hk hb
  | float value => exact fun k hk hb => .float he hk hb
  | bool value =>
    refine fun k hk hb => .word ?_ hk hb
    cases value <;> decide
  | unary op x ih =>
    intro k hk hb
    have hx : x.WellFormed := he
    exact .before op.token_mem (by cases op <;> decide) (Phrased.slotted (ih hx) _ x k hk hb)
      (starts_slotted (starts_pieces hx hb.headWord?))
  | step op x ih =>
    intro k hk _
    rw [pieces, List.append_assoc]
    exact Phrased.stepped (ih he) x _ (.firm op.token_firm (by cases op <;> decide) hk)
      (behind_symbol op.token_mem _)
  | binary op x y ihx ihy =>
    exact Phrased.between (Phrased.slotted (ihx he.1) _ x) (Phrased.slotted (ihy he.2) _ y)
      op.token_mem (by cases op <;> decide) fun k hk => starts_slotted (starts_pieces he.2 hk)
  | assign op x y ihx ihy =>
    exact Phrased.between (Phrased.slotted (ihx he.2.1) _ x) (Phrased.slotted (ihy he.2.2) _ y)
      op.token_mem (by cases op <;> decide) fun k hk => starts_slotted (starts_pieces he.2.2 hk)
  | ternary x y z ihx ihy ihz =>
    have hyz := Phrased.between (ihy he.2.1) (Phrased.slotted (ihz he.2.2) .assignment z)
      (by decide : ":" ∈ Symbol.all) (by decide)
      fun k hk => starts_slotted (starts_pieces he.2.2 hk)
    intro k hk hb
    have h := Phrased.slotted (ihx he.1) .logicalOr x (.token "?" ::
      ((pieces y ++ .token ":" :: slotted .assignment z (pieces z)) ++ k))
      (.firm (by decide) (by decide) (hyz k hk hb)) (behind_symbol (by decide) _)
    simpa [pieces, List.append_assoc] using h
  | index x y ihx ihy =>
    intro k hk _
    rw [pieces, List.append_assoc, List.append_assoc, List.cons_append]
    refine Phrased.slotted (ihx he.1) _ x _ (.firm (by decide) (by decide) ?_)
      (behind_symbol (by decide) _)
    exact ihy he.2 _ (.firm (by decide) (by decide) hk) (behind_symbol (by decide) _)
  | field x name ihx =>
    intro k hk hb
    rw [pieces, List.append_assoc]
    exact Phrased.slotted (ihx he.2) _ x _ (.point he.1 hk hb) (behind_symbol (by decide) _)
  | call callee args ih =>
    obtain ⟨hw, -, hall⟩ := he
    rw [allWellFormed_iff] at hall
    intro k hk hb
    refine .word hw (Phrased.parenthesized (Extends.commaSeparated
      (fun _ hk => .firm (by decide) (by decide) hk) ?_) k hk hb) (behind_symbol (by decide) _)
    rw [itemPieces_eq_map]
    intro ps hps
    obtain ⟨x, hx, rfl⟩ := List.mem_map.1 hps
    exact Phrased.slotted (ih x hx (hall x hx)) _ x
  | sequence items ih =>
    obtain ⟨-, hall⟩ := he
    rw [allWellFormed_iff] at hall
    rw [pieces, itemPieces_eq_map]
    refine Extends.commaSeparated (fun _ hk => .firm (by decide) (by decide) hk) fun ps hps => ?_
    obtain ⟨x, hx, rfl⟩ := List.mem_map.1 hps
    exact Phrased.slotted (ih x hx (hall x hx)) _ x

theorem clean_piecesAt {e : Expr} (he : e.WellFormed) (level : Precedence) :
    CleanPieces (e.piecesAt level) :=
  fun k hk hb => (Phrased.slotted (phrased_pieces he) level e k (.tail hk) hb).clean fun _ h => h

theorem clean_pieces {e : Expr} (he : e.WellFormed) : CleanPieces e.pieces :=
  fun k hk hb => (phrased_pieces he k (.tail hk) hb).clean fun _ h => h

end Expr

end ShaderMinifier
