import ShaderMinifier.Proofs.Expr.Chain
import ShaderMinifier.Proofs.RoundTrip

/-
  Names with binary operators between them. However many there are, such a text is read, since
  the chain parser opens no level of nesting for an operator (`ofChain_fits`). The tree lists the
  names and operators in the order of the text, and at every operator the left operand binds at
  least as tightly as the operator and the right one more tightly (`composes_climbs`). Only one
  tree does both: it can be read off the list again, by the chain that the list is
  (`ofChain_of_climbs`).
-/

namespace ShaderMinifier

open Piece

namespace Pen

/-- Nothing stands between two tokens that end and start so: without `joins`, `writeAll` leaves no
gap. -/
theorem writeAll_token {t s : String} {k : List Piece} (ht : (Piece.token t).isLexeme = true)
    (hs : (Piece.token s).isLexeme = true)
    (h : ∀ last ∈ t.toList.getLast?, ∀ first ∈ s.toList.head?, joins last first = false) :
    (past (.token t)).writeAll (.token s :: k) = spell (.token s :: k) := by
  have hlead : (past (.token t)).lead (.token s) = [] := by
    obtain ⟨first, rest, hfirst⟩ := text_ne_nil hs
    obtain ⟨c, cs, htext⟩ := text_ne_nil ht
    simp only [text] at hfirst htext
    have hlast : (past (.token t)).last = some ((c :: cs).getLast (by simp)) := by
      rw [last_of_token ht, htext]
      exact List.getLast?_eq_some_getLast _
    have hjoins := h ((c :: cs).getLast (by simp))
      (by rw [htext]; exact List.getLast?_eq_some_getLast _) first (by rw [hfirst]; rfl)
    have hgap : (past (.token t)).gap first = [] := by
      rw [gap, hlast]
      simp [hjoins, past, after]
    simpa [lead, hfirst] using hgap
  rw [writeAll_cons _ hs, hlead, List.nil_append]

end Pen

theorem BinaryOp.tighter_le_iff (op : BinaryOp) {p : Precedence} :
    op.precedence.tighter ≤ p ↔ op.precedence < p := by
  have hrank := op.rank_bounds
  rw [Precedence.le_iff, Precedence.lt_iff]
  omega

namespace Expr

/-! ## The order and the shape of a chain's tree -/

/-- The operands and binary operators of a tree from left to right. All that is no `binary`
expression is an operand. -/
def inOrder : Expr → List (Expr ⊕ BinaryOp)
  | binary op left right => left.inOrder ++ .inr op :: right.inOrder
  | operand => [.inl operand]

/-- At every `binary` operator the left operand binds at least as tightly as the operator, and the
right operand more tightly. -/
def Climbs : Expr → Prop
  | binary op left right =>
    op.precedence ≤ left.precedence ∧ op.precedence < right.precedence ∧ left.Climbs ∧ right.Climbs
  | _ => True

/-- The operands and operators of a chain in their order, as `inOrder` lists those of a tree. -/
def chainOrder (first : Expr) (others : List (BinaryOp × Expr)) : List (Expr ⊕ BinaryOp) :=
  .inl first :: others.flatMap fun link => [.inr link.1, .inl link.2]

theorem chainOrder_append (first : Expr) (others : List (BinaryOp × Expr)) (op : BinaryOp)
    (next : Expr) (more : List (BinaryOp × Expr)) :
    chainOrder first others ++ .inr op :: chainOrder next more =
      chainOrder first (others ++ (op, next) :: more) := by
  simp [chainOrder]

theorem chainOrder_injective {first first' : Expr} {others others' : List (BinaryOp × Expr)}
    (h : chainOrder first others = chainOrder first' others') :
    first = first' ∧ others = others' := by
  induction others generalizing first first' others' with
  | nil => cases others' <;> simp_all [chainOrder]
  | cons link others ih =>
    cases others' with
    | nil => simp [chainOrder] at h
    | cons link' others' =>
      simp only [chainOrder, List.flatMap_cons, List.cons_append, List.nil_append, List.cons.injEq,
        Sum.inl.injEq, Sum.inr.injEq] at h
      obtain ⟨hfirst, hop, hnext, hrest⟩ := h
      have hsame : chainOrder link.2 others = chainOrder link'.2 others' := by
        rw [chainOrder, chainOrder, hnext, hrest]
      obtain ⟨-, hothers⟩ := ih hsame
      exact ⟨hfirst, by rw [hothers, Prod.ext hop hnext]⟩

/-- The order and the shape of a tree at a level `Composes`: the level is one that the tree may
stand at, and it `Climbs`. -/
theorem composes_climbs : Composes (fun op => [Sum.inr op]) fun level e order =>
    level ≤ e.precedence ∧ e.Climbs ∧ e.inOrder = order where
  mono hab h := ⟨Nat.le_trans hab h.1, h.2⟩
  binary := by
    rintro op x y _ _ ⟨hx, hxclimbs, rfl⟩ ⟨hy, hyclimbs, rfl⟩
    exact ⟨Nat.le_refl _, ⟨hx, op.tighter_le_iff.1 hy, hxclimbs, hyclimbs⟩, rfl⟩

/-- A tree that `Climbs` is what `ofChain` builds of the chain that it lists. -/
theorem ofChain_of_climbs {e : Expr} (h : e.Climbs) :
    ∃ first others, e.inOrder = chainOrder first others ∧ ofChain first others = e := by
  have hchain : ∃ first others, e.inOrder = chainOrder first others ∧
      e.ChainsTo e.precedence first others := by
    induction e with
    | binary op x y ihx ihy =>
      obtain ⟨hx, hy, hxclimbs, hyclimbs⟩ := h
      obtain ⟨firstX, othersX, hordX, hchainX⟩ := ihx hxclimbs
      obtain ⟨firstY, othersY, hordY, hchainY⟩ := ihy hyclimbs
      refine ⟨firstX, othersX ++ (op, firstY) :: othersY, ?_,
        chainsTo_binary (hchainX.mono hx) (hchainY.mono (op.tighter_le_iff.2 hy))⟩
      rw [inOrder, hordX, hordY, chainOrder_append]
    | _ => exact ⟨_, [], rfl, chainsTo_self _ _⟩
  obtain ⟨first, others, hord, hto⟩ := hchain
  exact ⟨first, others, hord, hto.ofChain⟩

/-- A tree that `Climbs` is written without brackets between its operands. -/
theorem pieces_of_climbs {e : Expr} (h : e.Climbs) :
    e.pieces = e.inOrder.flatMap (Sum.elim pieces fun op => [.token op.token]) := by
  induction e with
  | binary op x y ihx ihy =>
    obtain ⟨hx, hy, hxclimbs, hyclimbs⟩ := h
    rw [pieces_binary, piecesAt_of_le hx, piecesAt_of_le (op.tighter_le_iff.2 hy), inOrder,
      List.flatMap_append, List.flatMap_cons, ← ihx hxclimbs, ← ihy hyclimbs]
    rfl
  | _ => simp [inOrder]

/-! ## Chains of names -/

/-- The text of a chain of names: the names with the tokens of the operators between them. -/
def chainText (first : String) (links : List (BinaryOp × String)) : String :=
  first ++ String.join (links.map fun link => link.1.token ++ link.2)

/-- The operands of a chain of names, in the form that `ofChain` takes. -/
def chainLinks (links : List (BinaryOp × String)) : List (BinaryOp × Expr) :=
  links.map fun link => (link.1, .identifier link.2)

/-- No gap stands between a name and an operator, so the pieces of the chain spell `chainText`. -/
theorem spell_chain {first : String} {links : List (BinaryOp × String)}
    (h : ∀ name ∈ first :: links.map Prod.snd, Word.isWord name = true) :
    spell ((chainOrder (.identifier first) (chainLinks links)).flatMap
      (Sum.elim pieces fun op => [.token op.token])) = (chainText first links).toList := by
  induction links generalizing first with
  | nil => simp [chainOrder, chainLinks, chainText, pieces, spell_token, Pen.writeAll, String.join]
  | cons link links ih =>
    obtain ⟨op, name⟩ := link
    have hfirst := Word.isPart_of_mem (h first (by simp))
    have hname := Word.isPart_of_mem (h name (by simp))
    have hop : ∀ c ∈ op.token.toList, Word.isPart c = false :=
      fun _ => Symbol.isPart_eq_false op.token_mem
    have hlexeme : ∀ {w : String}, Word.isWord w = true → (Piece.token w).isLexeme = true := by
      intro w hw
      simp [isLexeme, Word.isWordLike_of_isWord hw]
    have hoplex : (Piece.token op.token).isLexeme = true := by
      simp [isLexeme, op.token_mem]
    have hrest := @ih name fun n hn => h n (by simp at hn ⊢; tauto)
    simp only [chainOrder, chainLinks, chainText, List.flatMap_cons, List.map_cons, Sum.elim_inl,
      Sum.elim_inr, pieces, List.cons_append, List.nil_append] at hrest ⊢
    rw [spell_token, Pen.writeAll_token (hlexeme (h first (by simp))) hoplex fun l hl f hf =>
        Pen.joins_eq_false (by
          rw [hfirst l (List.mem_of_mem_getLast? hl), hop f (List.mem_of_mem_head? hf)]
          decide),
      spell_token, Pen.writeAll_token hoplex (hlexeme (h name (by simp))) fun l hl f hf =>
        Pen.joins_eq_false (by
          rw [hop l (List.mem_of_mem_getLast? hl), hname f (List.mem_of_mem_head? hf)]
          decide), hrest]
    simp [String.join_cons]

theorem ofChain_names_climbs (first : String) (links : List (BinaryOp × String)) :
    (ofChain (identifier first) (chainLinks links)).Climbs ∧
      (ofChain (identifier first) (chainLinks links)).inOrder =
        chainOrder (.identifier first) (chainLinks links) := by
  have hname : ∀ (name : String) (level : Precedence), level ≤ (identifier name).precedence ∧
      (identifier name).Climbs ∧ (identifier name).inOrder = [.inl (identifier name)] := by
    intro name level
    refine ⟨?_, trivial, rfl⟩
    show level ≤ .primary
    cases level <;> decide
  have hlinks : Links (fun op => [Sum.inr op]) (fun level e order =>
      level ≤ e.precedence ∧ e.Climbs ∧ e.inOrder = order) (chainLinks links)
      ((chainLinks links).flatMap fun link => [.inr link.1, .inl link.2]) := by
    induction links with
    | nil => exact .nil
    | cons link links ih => exact .cons (fun level _ => hname link.2 level) ih
  exact (composes_climbs.ofChain (fun level _ => hname first level) hlinks).2

/-- The tree of a chain of names needs two levels of nesting (`FitsEnclosed 2`), whatever its
length. -/
theorem ofChain_names_fits {first : String} {links : List (BinaryOp × String)}
    (hnames : ∀ name ∈ first :: links.map Prod.snd,
      Word.isWord name = true ∧ Word.isReserved name = false) :
    (ofChain (identifier first) (chainLinks links)).FitsEnclosed 2 := by
  have hfits : ∀ name ∈ first :: links.map Prod.snd, ∀ level, (identifier name).Fits 1 level :=
    fun name h level => ⟨hnames name h, Nesting.operand_le_unary level _ _⟩
  have hothers : ∀ link ∈ chainLinks links, ∀ level, link.2.Fits 1 level := by
    intro link hlink
    obtain ⟨l, hl, rfl⟩ := List.mem_map.1 hlink
    exact hfits l.2 (List.mem_cons_of_mem _ (List.mem_map_of_mem hl))
  have hchain := ofChain_fits (hfits first (by simp)) hothers
  refine ⟨hchain.1, (Nesting.enclosed_le_assignment _ _).trans ?_⟩
  have hloose := (hchain.mono (by decide : Precedence.assignment ≤ .logicalOr)).2
  rw [operandDepth] at hloose
  rw [Nesting.assignment]
  omega

/-- A chain of names is read by `Expr.parse` whatever its length, as the one tree that lists it
(`inOrder`) and in which each operator binds no tighter than its left operand and looser than its
right operand (`Climbs`). -/
theorem parse_chain (first : String) (links : List (BinaryOp × String))
    (hnames : ∀ name ∈ first :: links.map Prod.snd,
      Word.isWord name = true ∧ Word.isReserved name = false) :
    ∃ tree : Expr, Expr.parse (chainText first links) = .ok tree ∧
      tree.inOrder = chainOrder (.identifier first) (chainLinks links) ∧ tree.Climbs ∧
      ∀ other : Expr, other.inOrder = chainOrder (.identifier first) (chainLinks links) →
        other.Climbs → other = tree := by
  obtain ⟨hclimbs, horder⟩ := ofChain_names_climbs first links
  obtain ⟨hwf, hdepth⟩ := ofChain_names_fits hnames
  refine ⟨_, ?_, horder, hclimbs, fun other hother hshape => ?_⟩
  · have htext : layout (ofChain (identifier first) (chainLinks links)).pieces =
        chainText first links := by
      rw [← String.toList_inj, layout_toList, pieces_of_climbs hclimbs, horder]
      exact spell_chain fun name h => (hnames name h).1
    rw [← htext]
    exact parse_layout ⟨hwf, hdepth.trans (by decide)⟩
  · obtain ⟨first', others, hord, hof⟩ := ofChain_of_climbs hshape
    obtain ⟨rfl, rfl⟩ := chainOrder_injective (hord.symm.trans hother)
    exact hof.symm

/-- Operators of five levels, with two of one level in a row: the tree of `a-b-c*d<e||f` by
`parse_chain`. -/
theorem parse_chain_levels : Expr.parse "a-b-c*d<e||f" = .ok (.binary .or (.binary .lt
    (.binary .sub (.binary .sub (.identifier "a") (.identifier "b"))
      (.binary .mul (.identifier "c") (.identifier "d")))
      (.identifier "e")) (.identifier "f")) := by
  obtain ⟨tree, hparse, -, -, honly⟩ := parse_chain "a"
    [(.sub, "b"), (.sub, "c"), (.mul, "d"), (.lt, "e"), (.or, "f")] (by decide)
  rw [honly (.binary .or (.binary .lt
    (.binary .sub (.binary .sub (.identifier "a") (.identifier "b"))
      (.binary .mul (.identifier "c") (.identifier "d"))) (.identifier "e")) (.identifier "f"))
    rfl (by simp only [Climbs]; decide)]
  exact hparse

end Expr

end ShaderMinifier
