import ShaderMinifier.Expr.Parser
import ShaderMinifier.Proofs.Expr.Spelling
import ShaderMinifier.Proofs.Grammar.Separated

/-
  Reading operands: literals, names, calls and brackets, and the suffixes behind them. `Stops`
  says that what stands behind an expression cannot go on with it at a level of binding; it is
  what every reader of expressions asks of the pieces behind.
-/

namespace ShaderMinifier

open Piece

/-! ## What goes on with an expression -/

/-- The level at which a symbol behind an expression goes on with it, as a suffix, a binary
operator, a choice, an assignment or a comma. -/
def Symbol.continues (t : String) : Option Precedence :=
  if t ∈ ["(", "[", ".", "++", "--"] then some .suffixed
  else
    match BinaryOp.ofToken? t with
    | some op => some op.precedence
    | none =>
      if t = "?" then some .conditional
      else if (AssignOp.ofToken? t).isSome then some .assignment
      else if t = "," then some .sequence
      else none

/-- What stands here does not go on with an expression of the level or of a tighter one
(`Symbol.continues`), so the rule for the level ends. -/
def Stops (level : Precedence) (k : List Piece) : Prop :=
  ∀ p ∈ (headSymbol? k).bind Symbol.continues, p < level

namespace Stops

variable {level : Precedence} {k : List Piece}

theorem mono {a b : Precedence} (hab : a ≤ b) (h : Stops a k) : Stops b k := by
  intro p hp
  have := h p hp
  rw [Precedence.lt_iff] at this ⊢
  rw [Precedence.le_iff] at hab
  omega

theorem nil : Stops level [] := by simp [Stops, headSymbol?]

theorem symbol {t : String} (ht : t ∈ Symbol.all)
    (h : ∀ p ∈ Symbol.continues t, p < level) : Stops level (.token t :: k) := by
  simpa [Stops, headSymbol?_symbol ht] using h

theorem headSymbol?_ne {t : String} {p : Precedence} (h : Stops level k)
    (ht : Symbol.continues t = some p) (hp : ¬ p < level) : headSymbol? k ≠ some t := by
  intro heq
  exact hp (h p (by simp [heq, ht]))

theorem not_suffix (h : Stops .suffixed k) :
    headSymbol? k ∉ [some "(", some "[", some ".", some "++", some "--"] := by
  intro hmem
  simp only [List.mem_cons, List.not_mem_nil, or_false] at hmem
  rcases hmem with hk | hk | hk | hk | hk <;>
    exact h.headSymbol?_ne (p := .suffixed) (by decide) (by decide) hk

theorem not_binary (h : Stops .logicalOr k) :
    (headSymbol? k).bind BinaryOp.ofToken? = none := by
  cases hk : headSymbol? k with
  | none => rfl
  | some t =>
    rw [Option.bind_some, Option.eq_none_iff_forall_ne_some]
    intro op hop
    obtain rfl : op.token = t := by
      have := List.find?_some hop
      simpa using this
    have hcont : Symbol.continues op.token = some op.precedence := by cases op <;> decide
    refine h.headSymbol?_ne hcont ?_ hk
    have hrank := op.rank_bounds
    have hor : Precedence.rank .logicalOr = 3 := rfl
    rw [Precedence.lt_iff]
    omega

theorem not_question (h : Stops .conditional k) : headSymbol? k ≠ some "?" :=
  h.headSymbol?_ne (p := .conditional) (by decide) (by decide)

theorem not_assign (h : Stops .assignment k) :
    (headSymbol? k).bind AssignOp.ofToken? = none := by
  cases hk : headSymbol? k with
  | none => rfl
  | some t =>
    rw [Option.bind_some, Option.eq_none_iff_forall_ne_some]
    intro op hop
    obtain rfl : op.token = t := by
      have := List.find?_some hop
      simpa using this
    have hcont : Symbol.continues op.token = some .assignment := by cases op <;> decide
    exact h.headSymbol?_ne hcont (by decide) hk

theorem not_comma (h : Stops .sequence k) : headSymbol? k ≠ some "," :=
  h.headSymbol?_ne (p := .sequence) (by decide) (by decide)

theorem not_step (h : Stops .suffixed k) : (headSymbol? k).bind StepOp.ofToken? = none := by
  have hk := h.not_suffix
  cases hhead : headSymbol? k with
  | none => rfl
  | some t =>
    rw [hhead] at hk
    simp only [List.mem_cons, Option.some.injEq, List.not_mem_nil, or_false, not_or] at hk
    rw [Option.bind_some, Option.eq_none_iff_forall_ne_some]
    intro op hop
    have htoken : op.token = t := by
      have := List.find?_some hop
      simpa using this
    cases op with
    | increment => exact hk.2.2.2.1 htoken.symm
    | decrement => exact hk.2.2.2.2 htoken.symm

end Stops

namespace Parser

variable {k : List Piece} {assignment : Parser Expr}

/-! ## Operands -/

theorem number_mismatch {t : String} (ht : Word.isWord t = true ∨ t = "(")
    (hk : Clean (.token t :: k)) :
    floatLiteral (spell (.token t :: k)) = .mismatch ⟨spell (.token t :: k), .unexpected⟩ ∧
      intLiteral (spell (.token t :: k)) = .mismatch ⟨spell (.token t :: k), .unexpected⟩ := by
  have hhead : ∀ c, (spell (.token t :: k)).head? = some c → c.isDigit = false ∧ c ≠ '.' := by
    intro c hc
    rw [Pen.head_spell_cons hk.head] at hc
    rcases ht with hw | rfl
    · obtain ⟨d, ds, hlist, hd, -⟩ := Word.isWord_iff.1 hw
      have hdc : d = c := by simpa [first?, text, hlist] using hc
      subst hdc
      refine ⟨Word.isDigit_eq_false_of_isStart hd, ?_⟩
      rintro rfl
      cases hd
    · obtain rfl : '(' = c := by simpa [first?, text] using hc
      exact ⟨rfl, by decide⟩
  exact ⟨floatLiteral_mismatch hhead, intLiteral_mismatch fun c hc => (hhead c hc).1⟩

theorem primaryOf_float {f : FloatLiteral} (hf : f.Proper) (hk : Clean (.number f.text :: k)) :
    primaryOf assignment (spell (.number f.text :: k)) = .matched (.float f) (spell k) :=
  orElse_of_matched (bind_of_matched (floatLiteral_spell hf hk))

theorem primaryOf_int (value : UInt64)
    (hk : Clean (.number (String.ofList (Nat.toDigits 10 value.toNat)) :: k)) :
    primaryOf assignment (spell (.number (String.ofList (Nat.toDigits 10 value.toNat)) :: k)) =
      .matched (.int value) (spell k) := by
  obtain ⟨fault, hfloat⟩ := floatLiteral_mismatch_int value hk
  exact orElse_of_mismatch (bind_of_mismatch hfloat)
    (orElse_of_matched (bind_of_matched (intLiteral_spell value hk)))

theorem primaryOf_bool (value : Bool)
    (hk : Clean (.token (if value then "true" else "false") :: k)) :
    primaryOf assignment (spell (.token (if value then "true" else "false") :: k)) =
      .matched (.bool value) (spell k) := by
  have hword : Word.isWord (if value then "true" else "false") = true := by
    cases value <;> decide
  obtain ⟨hfloat, hint⟩ := number_mismatch (.inl hword) hk
  exact orElse_of_mismatch (bind_of_mismatch hfloat) (orElse_of_mismatch (bind_of_mismatch hint)
    (orElse_of_matched (bind_of_matched (boolLiteral_spell value hk))))

theorem primaryOf_of_rest {t : String} {e : Expr} {rest : List Char}
    (ht : (Word.isWord t = true ∧ t ≠ "true" ∧ t ≠ "false") ∨ t = "(")
    (hk : Clean (.token t :: k))
    (h : orElse (parenthesizedOf assignment) (orElse (callOf assignment) variableName)
      (spell (.token t :: k)) = .matched e rest) :
    primaryOf assignment (spell (.token t :: k)) = .matched e rest := by
  obtain ⟨hfloat, hint⟩ := number_mismatch (ht.imp_left And.left) hk
  have hword : headWord? (.token t :: k) ≠ some "true" ∧
      headWord? (.token t :: k) ≠ some "false" := by
    rcases ht with ⟨hw, h1, h2⟩ | rfl
    · rw [headWord?_word hw]
      exact ⟨by simpa using h1, by simpa using h2⟩
    · rw [headWord?_symbol (by decide)]
      simp
  obtain ⟨fault, hbool⟩ := boolLiteral_mismatch hk hword.1 hword.2
  exact orElse_of_mismatch (bind_of_mismatch hfloat) (orElse_of_mismatch (bind_of_mismatch hint)
    (orElse_of_mismatch (bind_of_mismatch hbool) h))

theorem ne_truth_of_isTypeName {w : String} (h : Word.isTypeName w = true) :
    w ≠ "true" ∧ w ≠ "false" := by
  constructor
  · rintro rfl
    exact absurd h (by decide)
  · rintro rfl
    exact absurd h (by decide)

theorem isTypeName_of_not_reserved {w : String} (h : Word.isReserved w = false) :
    Word.isTypeName w = true := by
  simp [Word.isTypeName, h]

theorem parenthesizedOf_mismatch {t : String} (ht : Word.isWord t = true)
    (hk : Clean (.token t :: k)) :
    parenthesizedOf assignment (spell (.token t :: k)) =
      .mismatch ⟨spell (.token t :: k), .expected (.token "(")⟩ := by
  refine bind_of_mismatch (symbol_mismatch hk ?_)
  rw [headSymbol?_word ht]
  simp

theorem primaryOf_identifier {name : String} (hw : Word.isWord name = true)
    (hr : Word.isReserved name = false) (hk : Clean (.token name :: k))
    (hcall : headSymbol? k ≠ some "(") :
    primaryOf assignment (spell (.token name :: k)) = .matched (.identifier name) (spell k) := by
  have hn := isTypeName_of_not_reserved hr
  have hnext := nextWord_spell hk
  rw [headWord?_word hw] at hnext
  have hcallOf : callOf assignment (spell (.token name :: k)) =
      .mismatch ⟨spell k, .expected (.token "(")⟩ := by
    simp only [callOf, bind_of_matched hnext, hn, if_true, bind_of_matched (anyWord_spell hw hk),
      bind_of_mismatch (symbol_mismatch hk.tail hcall)]
  have hvariable : variableName (spell (.token name :: k)) =
      .matched (.identifier name) (spell k) := by
    simp only [variableName, bind_of_matched hnext, hr, Bool.false_eq_true, if_false,
      bind_of_matched (anyWord_spell hw hk), pure_apply]
  exact primaryOf_of_rest (.inl ⟨hw, ne_truth_of_isTypeName hn⟩) hk
    (orElse_of_mismatch (parenthesizedOf_mismatch hw hk) (orElse_of_mismatch hcallOf hvariable))

/-! ## Calls and brackets -/

/-- What `Starts` like an expression is no `emptyList`, not even if it starts with `void`. -/
theorem emptyList_mismatch (hs : Starts k) (hk : Clean k) :
    ∃ fault, emptyList (spell k) = .mismatch fault := by
  have hclose : symbol ")" (spell k) = .mismatch ⟨spell k, .expected (.token ")")⟩ :=
    symbol_mismatch hk (hs.headSymbol?_ne (by decide))
  have hvoid : ∃ fault, (do keyword "void"; symbol ")" : Parser Unit) (spell k) =
      .mismatch fault := by
    by_cases hword : headWord? k = some "void"
    · -- only a call may start with this word, and its bracket follows
      cases hs with
      | @name w rest hw hr hrest =>
        rw [headWord?_word hw] at hword
        obtain rfl := Option.some.inj hword
        exact absurd hr (by decide)
      | @truth w rest hw hrest =>
        have hwords : ∀ w ∈ ["true", "false"], Word.isWord w = true ∧ w ≠ "void" := by decide
        obtain ⟨hw, hne⟩ := hwords w (by simpa using hw)
        rw [headWord?_word hw] at hword
        exact absurd (Option.some.inj hword) hne
      | @callee w rest hw hn =>
        rw [headWord?_word hw] at hword
        obtain rfl := Option.some.inj hword
        rw [bind_of_matched (keyword_spell hw hk)]
        exact ⟨_, symbol_mismatch hk.tail (by rw [headSymbol?_symbol (by decide)]; decide)⟩
      | number => cases hword
      | bracket => rw [headWord?_symbol (by decide)] at hword; cases hword
      | operator op => rw [headWord?_symbol op.token_mem] at hword; cases hword
    · exact ⟨_, bind_of_mismatch (keyword_mismatch hk hword)⟩
  obtain ⟨fault, hvoid⟩ := hvoid
  exact ⟨_, orElse_mismatch hclose hvoid⟩

theorem argumentsOf_spell {args : List Expr}
    (hargs : ∀ x ∈ args, Reads assignment (x.piecesAt .assignment) x (Stops .assignment))
    (hwf : ∀ x ∈ args, x.WellFormed)
    (hk : Clean (Piece.commaSeparated (args.map (Expr.piecesAt .assignment)) ++
      .token ")" :: k)) :
    argumentsOf assignment (spell (Piece.commaSeparated (args.map (Expr.piecesAt .assignment)) ++
      .token ")" :: k)) = .matched args (spell k) := by
  cases args with
  | nil =>
    have hempty : emptyList (spell (.token ")" :: k)) = .matched () (spell k) :=
      orElse_of_matched (symbol_spell (by decide) hk)
    exact bind_of_matched (optional_of_matched hempty)
  | cons x xs =>
    have hstart : Starts (Piece.commaSeparated ((x :: xs).map (Expr.piecesAt .assignment)) ++
        .token ")" :: k) := by
      rw [commaSeparated_map, List.append_assoc]
      refine Expr.starts_piecesAt (hwf x (by simp)) _ ?_
      cases xs with
      | nil => exact headWord?_symbol (by decide)
      | cons y ys => exact headWord?_symbol (by decide)
    obtain ⟨fault, hempty⟩ := emptyList_mismatch hstart hk
    have hlist := sepBy1_spell hargs (fun l => Stops.symbol (by decide) (by decide)) hk
      (Stops.symbol (by decide) (by decide))
      (by rw [headSymbol?_symbol (by decide)]; decide)
    simp only [argumentsOf, bind_of_matched (optional_of_mismatch hempty), bind_of_matched hlist,
      bind_of_matched (symbol_spell (by decide) hk.right), pure_apply]

theorem primaryOf_call {callee : String} {args : List Expr} (hw : Word.isWord callee = true)
    (hn : Word.isTypeName callee = true)
    (hargs : ∀ x ∈ args, Reads assignment (x.piecesAt .assignment) x (Stops .assignment))
    (hwf : ∀ x ∈ args, x.WellFormed) (hk : Clean ((Expr.call callee args).pieces ++ k)) :
    primaryOf assignment (spell ((Expr.call callee args).pieces ++ k)) =
      .matched (.call callee args) (spell k) := by
  have hpieces : (Expr.call callee args).pieces ++ k = .token callee :: .token "(" ::
      (Piece.commaSeparated (args.map (Expr.piecesAt .assignment)) ++ .token ")" :: k) := by
    simp [Expr.pieces, Expr.itemPieces_eq_map, Piece.parenthesized]
  rw [hpieces] at hk ⊢
  have hnext := nextWord_spell hk
  rw [headWord?_word hw] at hnext
  have hread := commit_of_matched (argumentsOf_spell hargs hwf hk.tail.tail)
  refine primaryOf_of_rest (.inl ⟨hw, ne_truth_of_isTypeName hn⟩) hk
    (orElse_of_mismatch (parenthesizedOf_mismatch hw hk) (orElse_of_matched ?_))
  simp only [callOf, bind_of_matched hnext, hn, if_true, bind_of_matched (anyWord_spell hw hk),
    bind_of_matched (symbol_spell (by decide) hk.tail), bind_of_matched hread, pure_apply]

theorem primaryOf_parenthesized {e : Expr}
    (he : Reads (expressionOf assignment) e.pieces e (Stops .sequence))
    (hk : Clean (Piece.parenthesized e.pieces ++ k)) :
    primaryOf assignment (spell (Piece.parenthesized e.pieces ++ k)) = .matched e (spell k) := by
  have hpieces : Piece.parenthesized e.pieces ++ k =
      .token "(" :: (e.pieces ++ .token ")" :: k) := by
    simp [Piece.parenthesized]
  rw [hpieces] at hk ⊢
  have hinner := commit_of_matched
    (he _ hk.tail (Stops.symbol (by decide) (by decide)))
  have hclose := commit_of_matched (symbol_spell (by decide) hk.tail.right)
  refine primaryOf_of_rest (.inr rfl) hk (orElse_of_matched ?_)
  simp only [parenthesizedOf, bind_of_matched (symbol_spell (by decide) hk),
    bind_of_matched hinner, bind_of_matched hclose, pure_apply]

/-! ## Suffixes -/

theorem suffixOf_index {position : Expr}
    (hp : Reads (expressionOf assignment) position.pieces position (Stops .sequence))
    (hk : Clean (.token "[" :: (position.pieces ++ .token "]" :: k))) :
    suffixOf assignment (spell (.token "[" :: (position.pieces ++ .token "]" :: k))) =
      .matched (.index position) (spell k) := by
  have hopen : symbolWhere some (spell (.token "[" :: (position.pieces ++ .token "]" :: k))) =
      .matched "[" (spell (position.pieces ++ .token "]" :: k)) :=
    symbolWhere_spell (by decide) hk rfl
  have hinner := commit_of_matched (hp _ hk.tail (Stops.symbol (by decide) (by decide)))
  have hclose := commit_of_matched (symbol_spell (by decide) hk.tail.right)
  simp only [suffixOf, bind_of_matched hopen, bind_of_matched hinner, bind_of_matched hclose,
    pure_apply]

theorem suffixOf_field {name : String} (hw : Word.isWord name = true)
    (hk : Clean (.token "." :: .token name :: k)) :
    suffixOf assignment (spell (.token "." :: .token name :: k)) =
      .matched (.field name) (spell k) := by
  have hdot : symbolWhere some (spell (.token "." :: .token name :: k)) =
      .matched "." (spell (.token name :: k)) := symbolWhere_spell (by decide) hk rfl
  have hname := commit_of_matched (anyWord_spell hw hk.tail)
  simp only [suffixOf, bind_of_matched hdot, bind_of_matched hname, pure_apply]

theorem suffixOf_step (op : StepOp) (hk : Clean (.token op.token :: k))
    (hnext : (headSymbol? k).bind StepOp.ofToken? = none) :
    suffixOf assignment (spell (.token op.token :: k)) = .matched (.step op) (spell k) := by
  have hop : symbolWhere some (spell (.token op.token :: k)) = .matched op.token (spell k) :=
    symbolWhere_spell op.token_mem hk rfl
  have hlook := lookingAt_of_mismatch (symbolWhere_mismatch hk.tail hnext)
  have htoken := op.ofToken?_token
  have hother : op.token ≠ "[" ∧ op.token ≠ "." := by cases op <;> decide
  unfold suffixOf
  rw [bind_of_matched hop]
  generalize op.token = t at htoken hother ⊢
  split
  · exact absurd rfl hother.1
  · exact absurd rfl hother.2
  · simp only [htoken, bind_of_matched hlook, Bool.false_eq_true, if_false, pure_apply]

theorem suffixOf_mismatch (hk : Clean k) (h : Stops .suffixed k) :
    ∃ fault, suffixOf assignment (spell k) = .mismatch fault := by
  have hfst := symbolAtHead_fst hk
  cases hhead : Symbol.atHead? (spell k) with
  | none =>
    have hnone : headSymbol? k = none := by rw [← hfst, hhead]; rfl
    exact ⟨_, bind_of_mismatch (symbolWhere_mismatch hk (by rw [hnone]; rfl))⟩
  | some found =>
    obtain ⟨t, rest⟩ := found
    have hsome : headSymbol? k = some t := by rw [← hfst, hhead]; rfl
    have hread : symbolWhere some (spell k) = .matched t (Blank.skip rest) := by
      simp only [symbolWhere, hhead]
    have hnot := h.not_suffix
    have hstep := h.not_step
    rw [hsome] at hnot hstep
    simp only [List.mem_cons, Option.some.injEq, List.not_mem_nil, or_false, not_or] at hnot
    rw [Option.bind_some] at hstep
    refine ⟨⟨Blank.skip rest, .unexpected⟩, ?_⟩
    unfold suffixOf
    rw [bind_of_matched hread]
    split
    · exact absurd rfl hnot.2.1
    · exact absurd rfl hnot.2.2.1
    · simp only [hstep, mismatch]

end Parser

end ShaderMinifier
