import ShaderMinifier.Proofs.Item.Shape
import ShaderMinifier.Proofs.Statement.Reading

/-
  Items that fit into a room are read back from their pieces, if no text on a directive's line
  keeps the line going. The items of a branch end where the input ends or where a line stands that
  ends the branch.
-/

namespace ShaderMinifier

open Piece

theorem Item.pieces_ne_nil (i : Item) : i.pieces ≠ [] := by
  cases i <;> simp [Item.pieces, Declaration.pieces, Prototype.pieces]

namespace Parser

variable {room : Nat} {stage : Stage} {k : List Piece}

/-! ## Items without branches -/

theorem precisionItem_spell {level : Precision} {type : String} (h : Word.NamesType type)
    (hk : Clean ((Item.precision level type).pieces ++ k)) :
    precisionItem (spell ((Item.precision level type).pieces ++ k)) =
      .matched (.precision level type) (spell k) := by
  have hpieces : (Item.precision level type).pieces ++ k = .token "precision" ::
      (Piece.ofOption ((some level).map Precision.keyword) ++
        (.token type :: .token ";" :: k)) := by
    simp [Item.pieces, Piece.ofOption]
  rw [hpieces] at hk ⊢
  have hlevel := precisionQualifier_spell hk.tail (by
    intro w hw
    obtain rfl : type = w := Option.some.inj ((headWord?_word h.isWord).symm.trans hw)
    exact fun hmem => h.not_beforeType ((by decide : _ ⊆ Word.beforeType) hmem))
  have hrest := hk.tail.right
  rw [precisionItem, bind_of_matched (keyword_spell (by decide) hk), bind_of_matched hlevel]
  dsimp only
  rw [bind_of_matched (commit_of_matched (typeName_spell h hrest)),
    bind_of_matched (commit_of_matched (symbol_spell (by decide) hrest.tail)), pure_apply]

theorem invariantItem_spell {names : List String} (hne : names ≠ [])
    (h : ∀ w ∈ names, Word.isWord w = true ∧ Word.isReserved w = false)
    (hk : Clean ((Item.invariant names).pieces ++ k)) :
    invariantItem (spell ((Item.invariant names).pieces ++ k)) =
      .matched (.invariant names) (spell k) := by
  obtain ⟨first, others, rfl⟩ := List.exists_cons_of_ne_nil hne
  have hpieces : (Item.invariant (first :: others)).pieces ++ k = .token "invariant" ::
      (Piece.commaSeparated ((first :: others).map fun name => [.token name]) ++
        .token ";" :: k) := by
    simp [Item.pieces]
  rw [hpieces] at hk ⊢
  have hname : ∀ w ∈ first :: others, Reads identifier [.token w] w Anything :=
    fun w hw l hl _ => identifier_spell (h w hw).1 (h w hw).2 hl
  have hnames := sepBy1_spell hname (fun _ => trivial) hk.tail trivial
    (headSymbol?_ne (by decide) (by decide))
  rw [invariantItem, bind_of_matched (keyword_spell (by decide) hk), bind_of_matched hnames,
    bind_of_matched (commit_of_matched (symbol_spell (by decide) hk.tail.right)), pure_apply]

/-- The name of a variable is not followed by a bracket, by which `typedItem` would take it for a
function. -/
theorem headSymbol?_behindName (first : Declarator) (others : List Declarator)
    (k : List Piece) : headSymbol? (first.restPieces ++
      (Piece.afterCommas Declarator.pieces others ++ .token ";" :: k)) ≠ some "(" := by
  obtain ⟨name, array, initializer⟩ := first
  cases array with
  | some a => cases a <;> exact headSymbol?_ne (by decide) (by decide)
  | none =>
    cases initializer with
    | some value => exact headSymbol?_ne (by decide) (by decide)
    | none => cases others <;> exact headSymbol?_ne (by decide) (by decide)

theorem typedItem_declaration {d : Declaration} (h : d.Fits room stage .topLevel) :
    Reads (typedItem room stage) d.pieces (.declaration d) Anything := by
  intro k hk _
  obtain ⟨type, declarators⟩ := d
  cases declarators with
  | nil =>
    have hpieces : (Declaration.mk type []).pieces ++ k = type.pieces ++ (.token ";" :: k) := by
      simp [Declaration.pieces, Piece.commaSeparated]
    rw [hpieces] at hk ⊢
    have htype := qualifiedType_reads h.type _ hk trivial
    simp only [typedItem, here_bind, bind_of_matched htype,
      bind_of_matched (lookingAt_symbol (by decide) hk.right), if_true,
      bind_of_matched (bareDeclaration_spell h _ hk.right), pure_apply]
  | cons first others =>
    have hname := (h.declarators first (by simp)).name
    rw [Declaration.pieces_cons] at hk ⊢
    have htype := qualifiedType_reads h.type _ hk trivial
    have hbare := not_lookingAt_symbol (t := ";") hk.right
      (by rw [headSymbol?_word hname.isWord]; simp)
    have hbracket := optional_of_mismatch (symbol_mismatch hk.right.tail
      (headSymbol?_behindName first others k))
    simp only [typedItem, here_bind, bind_of_matched htype, bind_of_matched hbare,
      Bool.false_eq_true, if_false, bind_of_matched (declaredName_spell hname hk.right),
      bind_of_matched hbracket, bind_of_matched (declarationRest_spell h _ hk.right.tail),
      pure_apply]

theorem prototype_pieces_append (p : Prototype) (k : List Piece) :
    p.pieces ++ k = p.returnType.pieces ++ (.token p.name :: .token "(" ::
      (Piece.commaSeparated (p.params.map Parameter.pieces) ++ .token ")" :: k)) := by
  simp [Prototype.pieces, Piece.parenthesized]

theorem typedItem_signature {p : Prototype} (h : p.Fits room) (hk : Clean (p.pieces ++ k)) :
    ∃ start, typedItem room stage (spell (p.pieces ++ k)) =
      functionRest room start p.returnType p.name
        (spell (Piece.commaSeparated (p.params.map Parameter.pieces) ++ .token ")" :: k)) := by
  rw [prototype_pieces_append] at hk ⊢
  have htype := qualifiedType_reads h.type _ hk trivial
  have hbare := not_lookingAt_symbol (t := ";") hk.right
    (by rw [headSymbol?_word h.name.isWord]; simp)
  have hbracket := optional_of_matched (symbol_spell (by decide) hk.right.tail)
  refine ⟨spell (p.returnType.pieces ++ (.token p.name :: .token "(" ::
    (Piece.commaSeparated (p.params.map Parameter.pieces) ++ .token ")" :: k))), ?_⟩
  simp only [typedItem, here_bind, bind_of_matched htype, bind_of_matched hbare,
    Bool.false_eq_true, if_false, bind_of_matched (declaredName_spell h.name hk.right),
    bind_of_matched hbracket]

theorem typedItem_prototype {p : Prototype} (h : p.Fits room) :
    Reads (typedItem room stage) (p.pieces ++ [Piece.token ";"]) (.prototype p) Anything := by
  intro k hk _
  rw [List.append_assoc] at hk ⊢
  obtain ⟨start, hstart⟩ := typedItem_signature h hk
  rw [prototype_pieces_append] at hk
  have hparams := hk.right.tail.tail
  have hend : optional (symbol ";") (spell ([Piece.token ";"] ++ k)) =
      .matched (some ()) (spell k) :=
    optional_of_matched (symbol_spell (by decide) hparams.right.tail)
  rw [hstart, functionRest, h.unqualified]
  dsimp only
  rw [bind_of_matched (commit_of_matched (parameters_spell h.params hparams)),
    bind_of_matched hend]
  rfl

theorem typedItem_function {p : Prototype} {body : List Statement} (h : p.Fits room)
    (hbody : ∀ s ∈ body, s.Fits room) :
    Reads (typedItem room stage) (p.pieces ++ (Statement.block body).pieces) (.function p body)
      Anything := by
  intro k hk _
  rw [List.append_assoc] at hk ⊢
  obtain ⟨start, hstart⟩ := typedItem_signature h hk
  rw [prototype_pieces_append] at hk
  have hparams := hk.right.tail.tail
  have hblock := hparams.right.tail
  have hend := optional_of_mismatch (symbol_mismatch (t := ";") hblock
    (headSymbol?_ne (by decide) (by decide)))
  have hbrace : lookingAt (symbol "\x7b") (spell ((Statement.block body).pieces ++ k)) =
      .matched true (spell ((Statement.block body).pieces ++ k)) :=
    lookingAt_symbol (by decide) hblock
  rw [hstart, functionRest, h.unqualified]
  dsimp only
  rw [bind_of_matched (commit_of_matched (parameters_spell h.params hparams)),
    bind_of_matched hend]
  dsimp only
  rw [bind_of_matched hbrace, if_pos rfl, bind_of_matched (block_spell hbody hblock)]
  rfl

/-! ## Which item it is -/

/-- The only type that starts with `invariant` goes on with a keyword, so `invariantItem` does not
match at it. -/
theorem invariantItem_mismatch {t : QualifiedType} (h : t.qualifier = some .invariantVarying)
    (hk : Clean (t.pieces ++ k)) :
    ∃ fault, invariantItem (spell (t.pieces ++ k)) = .mismatch fault := by
  obtain ⟨qualifier, precision, specifier⟩ := t
  obtain rfl : qualifier = some .invariantVarying := h
  have hpieces : (QualifiedType.mk (some .invariantVarying) precision specifier).pieces ++ k =
      .token "invariant varying" :: (Piece.ofOption (precision.map Precision.keyword) ++
        (specifier.pieces ++ k)) := by
    simp [QualifiedType.pieces, Piece.ofOption, TypeQualifier.text]
  rw [hpieces] at hk ⊢
  generalize Piece.ofOption (precision.map Precision.keyword) ++ (specifier.pieces ++ k) = rest
    at hk ⊢
  have hk' : Clean (.token "invariant" :: .token "varying" :: rest) :=
    Clean.word (by decide) (Clean.word (by decide) hk.tail)
  have hname : identifier (spell (.token "varying" :: rest)) =
      .mismatch ⟨spell (.token "varying" :: rest), .unexpected⟩ :=
    wordWhere_mismatch hk'.tail (by rw [headWord?_word (by decide)]; decide)
  rw [spell_invariantVarying, invariantItem, bind_of_matched (keyword_spell (by decide) hk')]
  exact ⟨_, bind_of_mismatch (bind_of_mismatch hname)⟩

theorem plainItem_typed {t : QualifiedType} (h : t.specifier.Fits room) {ps : List Piece}
    {item : Item} (hitem : Reads (typedItem room stage) (t.pieces ++ ps) item Anything) :
    Reads (plainItem room stage) (t.pieces ++ ps) item Anything := by
  intro k hk _
  have htyped := hitem k hk trivial
  rw [List.append_assoc] at hk htyped ⊢
  obtain ⟨w, hw, hstarts, hinvariant⟩ := headWord?_qualifiedType h (ps ++ k)
  rw [plainItem, bind_of_matched (nextWord_spell hk)]
  generalize headWord? (t.pieces ++ (ps ++ k)) = word at hw ⊢
  split
  · obtain rfl : "precision" = w := Option.some.inj hw
    rcases hstarts with hname | hmem
    · exact absurd (by decide) hname.not_beforeType
    · exact absurd hmem (by decide)
  · obtain ⟨fault, hmiss⟩ := invariantItem_mismatch (hinvariant (Option.some.inj hw.symm)) hk
    rw [bind_of_matched (optional_of_mismatch hmiss)]
    exact htyped
  · exact htyped

theorem plainItem_precision {level : Precision} {type : String} (h : Word.NamesType type) :
    Reads (plainItem room stage) (Item.precision level type).pieces (.precision level type)
      Anything := by
  intro k hk _
  have hword : headWord? ((Item.precision level type).pieces ++ k) = some "precision" :=
    headWord?_word (by decide)
  rw [plainItem, bind_of_matched (nextWord_spell hk), hword]
  exact precisionItem_spell h hk

theorem plainItem_invariant {names : List String} (hne : names ≠ [])
    (h : ∀ w ∈ names, Word.isWord w = true ∧ Word.isReserved w = false) :
    Reads (plainItem room stage) (Item.invariant names).pieces (.invariant names) Anything := by
  intro k hk _
  have hword : headWord? ((Item.invariant names).pieces ++ k) = some "invariant" :=
    headWord?_word (by decide)
  have hitem := optional_of_matched (invariantItem_spell hne h hk)
  rw [plainItem, bind_of_matched (nextWord_spell hk), hword]
  exact (bind_of_matched hitem).trans rfl

theorem itemOf_plain {conditional : List Char → ConditionalKind → Parser Item}
    {ps : List Piece} {item : Item} (hitem : Reads (plainItem room stage) ps item Anything)
    (hne : ps ≠ []) (hline : ∀ t l, ps ≠ .line t :: l) :
    Reads (itemOf room stage conditional) ps item Anything := by
  intro k hk _
  have hplain := commit_of_matched (hitem k hk trivial)
  have hhash : (spell (ps ++ k)).head? ≠ some '#' := by
    refine head_spell_ne_hash hk fun t l heq => ?_
    obtain ⟨p, ps, rfl⟩ := List.exists_cons_of_ne_nil hne
    obtain ⟨rfl, rfl⟩ := List.cons.inj heq
    exact hline t ps rfl
  have hsome : (spell (ps ++ k)).head? ≠ none := by
    obtain ⟨p, ps, rfl⟩ := List.exists_cons_of_ne_nil hne
    obtain ⟨c, cs, hc⟩ := text_ne_nil hk.head
    rw [List.cons_append, Pen.head_spell_cons hk.head, first?, hc]
    simp
  rw [itemOf, here_bind]
  generalize (spell (ps ++ k)).head? = first at hhash hsome ⊢
  split
  · exact absurd rfl hsome
  · exact absurd rfl hhash
  · exact hplain

/-! ## Lines -/

theorem isWord_plainNames : ∀ w ∈ Directive.plainNames, Word.isWord w = true := by decide

theorem itemOf_line {conditional : List Char → ConditionalKind → Parser Item} (d : Directive) :
    itemOf room stage conditional (spell (.line d.text :: k)) =
      directiveItem conditional (spell (.line d.text :: k)) := by
  rw [itemOf, here_bind, Directive.spell_text]
  rfl

theorem itemOf_value {conditional : List Char → ConditionalKind → Parser Item} {d : Directive}
    (hname : d.name ∈ Directive.plainNames) (k : List Piece) :
    itemOf room stage conditional (spell (.line d.text :: k)) =
      (do return .directive ⟨d.name, ← directiveValue⟩ : Parser Item) (d.behindName k) := by
  have hnames : ∀ w ∈ Directive.plainNames, (BranchMarker.ofKeyword? w).isSome = false ∧
      ConditionalKind.ofKeyword? w = none ∧ Directive.plainNames.contains w = true := by decide
  obtain ⟨hmarker, hkind, hplain⟩ := hnames d.name hname
  rw [itemOf_line, directiveItem, here_bind,
    bind_of_matched (directiveName_spell (isWord_plainNames _ hname)), hmarker, hkind]
  simp only [Bool.false_eq_true, if_false, hplain, if_true]

theorem itemOf_directive {conditional : List Char → ConditionalKind → Parser Item}
    {d : Directive} (hname : d.name ∈ Directive.plainNames) (hvalue : Directive.IsValue d.value)
    (hlast : d.value.toList.getLast? ≠ some '\\') :
    Reads (itemOf room stage conditional) [.line d.text] (.directive d) Anything := by
  intro k hk _
  rw [List.singleton_append] at hk ⊢
  rw [itemOf_value hname, bind_of_matched (directiveValue_spell hvalue hlast hk.tail), pure_apply]

theorem itemOf_conditional {conditional : List Char → ConditionalKind → Parser Item}
    (kind : ConditionalKind) (condition : String) :
    itemOf room stage conditional
      (spell (.line (Directive.mk kind.keyword condition).text :: k)) =
    conditional (spell (.line (Directive.mk kind.keyword condition).text :: k)) kind
      ((Directive.mk kind.keyword condition).behindName k) := by
  have hkind : Word.isWord kind.keyword = true ∧
      (BranchMarker.ofKeyword? kind.keyword).isSome = false ∧
      ConditionalKind.ofKeyword? kind.keyword = some kind := by
    cases kind <;> decide
  obtain ⟨hword, hmarker, hkeyword⟩ := hkind
  rw [itemOf_line, directiveItem, here_bind,
    bind_of_matched (directiveName_spell (d := ⟨kind.keyword, condition⟩) hword), hmarker, hkeyword]
  rfl

theorem isWord_marker (m : BranchMarker) : Word.isWord m.keyword = true := by
  cases m <;> decide

theorem ofKeyword?_marker (m : BranchMarker) : BranchMarker.ofKeyword? m.keyword = some m := by
  cases m <;> decide

/-- The pieces stand behind the last item of a branch: nothing, or a line that is a
`BranchMarker`. -/
inductive EndsBranch : List Piece → Prop
  | nil : EndsBranch []
  | line (m : BranchMarker) (value : String) (k : List Piece) :
    EndsBranch (.line (Directive.mk m.keyword value).text :: k)

theorem itemOf_mismatch (room : Nat) (stage : Stage)
    (conditional : List Char → ConditionalKind → Parser Item) (h : EndsBranch k) :
    ∃ fault, itemOf room stage conditional (spell k) = .mismatch fault := by
  cases h with
  | nil => exact ⟨_, rfl⟩
  | line m value k =>
    rw [itemOf_line, directiveItem, here_bind,
      bind_of_matched (directiveName_spell (d := ⟨m.keyword, value⟩) (isWord_marker m)),
      ofKeyword?_marker]
    exact ⟨_, rfl⟩

theorem marker_value (m : BranchMarker) (value : String) (k : List Piece) :
    marker m (spell (.line (Directive.mk m.keyword value).text :: k)) =
      directiveValue ((Directive.mk m.keyword value).behindName k) := by
  rw [marker, bind_of_matched (nextMarker_spell (d := ⟨m.keyword, value⟩) (isWord_marker m)),
    ofKeyword?_marker, if_pos rfl,
    bind_of_matched (directiveName_spell (d := ⟨m.keyword, value⟩) (isWord_marker m))]

theorem marker_spell {m : BranchMarker} {value : String} (hvalue : Directive.IsValue value)
    (hlast : value.toList.getLast? ≠ some '\\')
    (hk : Clean (.line (Directive.mk m.keyword value).text :: k)) :
    marker m (spell (.line (Directive.mk m.keyword value).text :: k)) =
      .matched value (spell k) := by
  rw [marker_value]
  exact directiveValue_spell hvalue hlast hk.tail

theorem marker_mismatch {m n : BranchMarker} (hne : n ≠ m) (value : String) :
    marker m (spell (.line (Directive.mk n.keyword value).text :: k)) =
      .mismatch ⟨spell (.line (Directive.mk n.keyword value).text :: k), .unexpected⟩ := by
  rw [marker, bind_of_matched (nextMarker_spell (d := ⟨n.keyword, value⟩) (isWord_marker n)),
    ofKeyword?_marker, if_neg (by simpa using hne)]
  rfl

theorem isValue_empty : Directive.IsValue "" := ⟨rfl, rfl⟩

theorem endif_text : "#endif" = (Directive.mk BranchMarker.done.keyword "").text := rfl

theorem else_text : "#else" = (Directive.mk BranchMarker.otherwise.keyword "").text := rfl

theorem closing_spell {opener : List Char} {kind : ConditionalKind}
    (hk : Clean (.line "#endif" :: k)) :
    closing opener kind (spell (.line "#endif" :: k)) = .matched () (spell k) := by
  rw [endif_text] at hk ⊢
  rw [closing, bind_of_matched (nextMarker_spell (isWord_marker .done)), ofKeyword?_marker]
  exact (bind_of_matched (marker_spell isValue_empty (by simp) hk)).trans rfl

/-! ## Branches -/

/-- The `#else` branch of a conditional, if there is one: the middle part of `branches`. -/
def lastBranch (items : Parser (List Item)) : Parser Branches := do
  match ← optional (marker .otherwise) with
  | some _ => Branches.otherwise <$> items
  | none => pure Branches.done

theorem branches_eq (opener : List Char) (kind : ConditionalKind) (items : Parser (List Item)) :
    branches opener kind items = (do
      let elifs ← many (elifBranch items)
      let last ← lastBranch items
      closing opener kind
      return elifs.foldr (fun branch rest => .elif branch.1 branch.2 rest) last) := by
  unfold branches lastBranch
  funext input
  show Parser.bind _ _ input = Parser.bind _ _ input
  unfold Parser.bind
  cases many (elifBranch items) input with
  | mismatch f => rfl
  | failure f => rfl
  | matched elifs rest =>
    show Parser.bind _ _ rest = Parser.bind (Parser.bind _ _) _ rest
    unfold Parser.bind
    cases optional (marker .otherwise) rest with
    | mismatch f => rfl
    | failure f => rfl
    | matched mark rest => cases mark <;> rfl

theorem endsBranch_branches {b : Branches} (h : Item.BranchesFit stage b room) (k : List Piece) :
    EndsBranch (Item.branchPieces b ++ k) := by
  cases b with
  | done => exact .line .done "" _
  | otherwise body => exact .line .otherwise "" _
  | elif condition body rest =>
    rw [Item.branchPieces, BranchMarker.elif_text h.1.nonempty]
    exact .line .elif condition _

/-- How branches are read back: one `elifBranch` after the other, then what `lastBranch` takes. -/
structure ReadsBranches (items : Parser (List Item)) (b : Branches) (k : List Piece) : Prop where
  elifs : Steps (elifBranch items) (spell (Item.branchPieces b ++ k)) b.elifs
    (spell (Item.branchPieces b.last ++ k))
  stop : ∃ fault, elifBranch items (spell (Item.branchPieces b.last ++ k)) = .mismatch fault
  last : lastBranch items (spell (Item.branchPieces b.last ++ k)) =
    .matched b.last (spell (.line "#endif" :: k))

theorem elifBranch_mismatch {items : Parser (List Item)} {m : BranchMarker} (hm : m ≠ .elif)
    (value : String) : ∃ fault,
      elifBranch items (spell (.line (Directive.mk m.keyword value).text :: k)) =
        .mismatch fault := by
  rw [elifBranch, here_bind]
  exact ⟨_, bind_of_mismatch (marker_mismatch hm value)⟩

theorem readsBranches_done (items : Parser (List Item)) (k : List Piece) :
    ReadsBranches items .done k := by
  refine ⟨.nil, elifBranch_mismatch (m := .done) (by decide) "", ?_⟩
  have hmiss := optional_of_mismatch (marker_mismatch (m := .otherwise) (n := .done) (k := k)
    (by decide) "")
  exact (bind_of_matched hmiss).trans rfl

theorem readsBranches_otherwise {items : Parser (List Item)} {body : List Item}
    (hk : Clean (Item.branchPieces (.otherwise body) ++ k))
    (hbody : items (spell (Item.listPieces body ++ .line "#endif" :: k)) =
      .matched body (spell (.line "#endif" :: k))) : ReadsBranches items (.otherwise body) k := by
  have hpieces : Item.branchPieces (.otherwise body) ++ k =
      .line (Directive.mk BranchMarker.otherwise.keyword "").text ::
        (Item.listPieces body ++ .line "#endif" :: k) := by
    simp [Item.branchPieces, else_text]
  refine ⟨.nil, ?_, ?_⟩
  · rw [Branches.last, hpieces]
    exact elifBranch_mismatch (by decide) ""
  · rw [hpieces] at hk
    rw [Branches.last, hpieces, lastBranch,
      bind_of_matched (optional_of_matched (marker_spell isValue_empty (by simp) hk))]
    exact map_of_matched hbody

theorem ReadsBranches.elif {items : Parser (List Item)} {condition : String} {body : List Item}
    {rest : Branches} (hcondition : Directive.IsCondition condition)
    (hlast : condition.toList.getLast? ≠ some '\\')
    (hk : Clean (Item.branchPieces (.elif condition body rest) ++ k))
    (hbody : items (spell (Item.listPieces body ++ (Item.branchPieces rest ++ k))) =
      .matched body (spell (Item.branchPieces rest ++ k)))
    (h : ReadsBranches items rest k) : ReadsBranches items (.elif condition body rest) k := by
  have hpieces : Item.branchPieces (.elif condition body rest) ++ k =
      .line (Directive.mk BranchMarker.elif.keyword condition).text ::
        (Item.listPieces body ++ (Item.branchPieces rest ++ k)) := by
    simp [Item.branchPieces, BranchMarker.elif_text hcondition.nonempty]
  rw [hpieces] at hk
  have hone : elifBranch items (spell (Item.branchPieces (.elif condition body rest) ++ k)) =
      .matched (condition, body) (spell (Item.branchPieces rest ++ k)) := by
    rw [hpieces]
    simp only [elifBranch, here_bind, bind_of_matched (marker_spell hcondition.isValue hlast hk),
      hcondition.nonempty, Bool.false_eq_true, if_false, bind_of_matched hbody, pure_apply]
  have hlt : (spell (Item.branchPieces rest ++ k)).length <
      (spell (Item.branchPieces (.elif condition body rest) ++ k)).length := by
    rw [hpieces]
    exact (spell_length_le hk.tail).trans_lt (spell_length_lt_cons hk)
  exact ⟨.cons hone hlt h.elifs, h.stop, h.last⟩

theorem branches_spell {items : Parser (List Item)} {b : Branches} (h : ReadsBranches items b k)
    (hk : Clean (.line "#endif" :: k)) (opener : List Char) (kind : ConditionalKind) :
    branches opener kind items (spell (Item.branchPieces b ++ k)) = .matched b (spell k) := by
  obtain ⟨fault, hstop⟩ := h.stop
  rw [branches_eq, bind_of_matched (h.elifs.many hstop), bind_of_matched h.last,
    bind_of_matched (closing_spell hk), pure_apply, b.foldr_elifs]

theorem itemOf_conditional_spell {kind : ConditionalKind} {condition : String}
    {body : List Item} {rest : Branches} (hcondition : Directive.IsCondition condition)
    (hlast : condition.toList.getLast? ≠ some '\\')
    (hk : Clean ((Item.conditional kind condition body rest).pieces ++ k))
    (hbody : items room stage (spell (Item.listPieces body ++ (Item.branchPieces rest ++ k))) =
      .matched body (spell (Item.branchPieces rest ++ k)))
    (hrest : ReadsBranches (items room stage) rest k) :
    itemOf (room + 1) stage (conditionalItem stage (room + 1))
      (spell ((Item.conditional kind condition body rest).pieces ++ k)) =
        .matched (.conditional kind condition body rest) (spell k) := by
  have hpieces : (Item.conditional kind condition body rest).pieces ++ k =
      .line (Directive.mk kind.keyword condition).text ::
        (Item.listPieces body ++ (Item.branchPieces rest ++ k)) := by
    simp [Item.pieces, kind.text_eq hcondition.nonempty]
  rw [hpieces] at hk ⊢
  have hend : Clean (.line "#endif" :: k) := by
    rw [endif_text]
    exact Clean.line (Directive.head_text _) hk.tail.right.right
  have hvalue := directiveValue_spell (d := ⟨kind.keyword, condition⟩) hcondition.isValue hlast
    hk.tail
  have hbranches := branches_spell hrest hend
  rw [itemOf_conditional, conditionalItem, bind_of_matched hvalue]
  simp only [hcondition.nonempty, Bool.false_eq_true, if_false]
  exact (bind_of_matched hbody).trans ((bind_of_matched (hbranches _ kind)).trans rfl)

/-! ## All items -/

theorem items_of_steps {body : List Item} {input : List Char}
    (h : Steps (itemOf room stage (conditionalItem stage room)) input body (spell k))
    (hend : EndsBranch k) : items room stage input = .matched body (spell k) := by
  obtain ⟨fault, hstop⟩ := itemOf_mismatch room stage (conditionalItem stage room) hend
  exact h.many hstop

theorem itemOf_typed {conditional : List Char → ConditionalKind → Parser Item}
    {t : QualifiedType} (h : t.specifier.Fits room) {ps : List Piece} {item : Item}
    (hitem : Reads (typedItem room stage) (t.pieces ++ ps) item Anything) :
    Reads (itemOf room stage conditional) (t.pieces ++ ps) item Anything := by
  obtain ⟨w, hw, -, -⟩ := headWord?_qualifiedType h ps
  refine itemOf_plain (plainItem_typed h hitem) ?_ ?_
  · intro hnil
    rw [hnil] at hw
    cases hw
  · intro t l hline
    rw [hline] at hw
    cases hw

mutual

/-- Every item that `Fits` and ends its lines is read back by `itemOf`, whatever stands behind it.
By recursion on the item. -/
theorem item_reads : (i : Item) → {room : Nat} → i.Fits stage room →
    (∀ e ∈ i.events, e.EndsLine) →
    Reads (itemOf room stage (conditionalItem stage room)) i.pieces i Anything
  | .directive d, _, h, hlines =>
    itemOf_directive h.1 h.2 (hlines (.directive d) (by simp [Item.events]) d.value rfl)
  | .conditional kind condition body rest, room, h, hlines => by
    intro k hk _
    obtain ⟨hpos, hcondition, hbody, hrest⟩ := h
    obtain ⟨r, rfl⟩ := Nat.exists_eq_add_one.2 hpos
    simp only [Item.events, List.forall_mem_cons, List.cons_append, List.forall_mem_append]
      at hlines
    have hclean := hk
    rw [Item.pieces, List.append_assoc, List.cons_append] at hclean
    refine itemOf_conditional_spell hcondition (hlines.1 condition rfl) hk ?_ ?_
    · exact items_of_steps (items_steps body hbody hlines.2.1 hclean.tail)
        (endsBranch_branches hrest k)
    · exact branches_reads rest hrest hlines.2.2 hclean.tail.right
  | .precision level type, _, h, _ =>
    itemOf_plain (plainItem_precision h) (by simp [Item.pieces]) (by simp [Item.pieces])
  | .invariant names, _, h, _ =>
    itemOf_plain (plainItem_invariant h.1 h.2) (by simp [Item.pieces]) (by simp [Item.pieces])
  | .declaration decl, _, h, _ => by
    have hread := typedItem_declaration h
    rw [Declaration.pieces, List.append_assoc] at hread
    rw [Item.pieces, Declaration.pieces, List.append_assoc]
    exact itemOf_typed h.type hread
  | .prototype signature, _, h, _ => by
    have hread : Reads (typedItem _ stage) _ _ Anything := typedItem_prototype h
    rw [Prototype.pieces, List.append_assoc] at hread
    rw [Item.pieces, Prototype.pieces, List.append_assoc]
    exact itemOf_typed h.type hread
  | .function signature body, _, h, _ => by
    have hread : Reads (typedItem _ stage) _ _ Anything := typedItem_function h.1 h.2
    rw [Prototype.pieces, List.append_assoc] at hread
    rw [Item.pieces, Prototype.pieces, List.append_assoc]
    exact itemOf_typed h.1.type hread

theorem items_steps : (body : List Item) → {room : Nat} → Item.AllFit stage body room →
    (∀ e ∈ Item.listEvents body, e.EndsLine) → {k : List Piece} →
    Clean (Item.listPieces body ++ k) →
    Steps (itemOf room stage (conditionalItem stage room))
      (spell (Item.listPieces body ++ k)) body (spell k)
  | [], _, _, _, _, _ => .nil
  | i :: body, room, h, hlines, k, hk => by
    rw [Item.listEvents, List.forall_mem_append] at hlines
    rw [Item.listPieces, List.append_assoc] at hk ⊢
    exact .cons (item_reads i h.1 hlines.1 _ hk trivial) (spell_length_lt i.pieces_ne_nil hk)
      (items_steps body h.2 hlines.2 hk.right)

theorem branches_reads : (b : Branches) → {room : Nat} → Item.BranchesFit stage b room →
    (∀ e ∈ Item.branchEvents b, e.EndsLine) → {k : List Piece} →
    Clean (Item.branchPieces b ++ k) → ReadsBranches (items room stage) b k
  | .done, _, _, _, k, _ => readsBranches_done _ k
  | .otherwise body, _, h, hlines, k, hk => by
    have hclean := hk
    rw [Item.branchPieces, List.append_assoc, List.cons_append] at hclean
    exact readsBranches_otherwise hk (items_of_steps (items_steps body h hlines hclean.tail)
      (.line .done "" k))
  | .elif condition body rest, _, h, hlines, k, hk => by
    simp only [Item.branchEvents, List.forall_mem_cons, List.cons_append,
      List.forall_mem_append] at hlines
    have hclean := hk
    rw [Item.branchPieces, List.append_assoc, List.cons_append] at hclean
    refine ReadsBranches.elif h.1 (hlines.1 condition rfl) hk ?_ ?_
    · exact items_of_steps (items_steps body h.2.1 hlines.2.1 hclean.tail)
        (endsBranch_branches h.2.2 k)
    · exact branches_reads rest h.2.2 hlines.2.2 hclean.tail.right

end

theorem shader_of_steps {s : Shader} (hclean : Clean s.pieces)
    (h : Steps (itemOf maxNesting stage (conditionalItem stage maxNesting)) (spell s.pieces) s.items
      (spell [])) : shader stage (spell s.pieces) = .matched s [] := by
  have hblank : blank (spell s.pieces) = .matched () (spell s.pieces) := by
    rw [blank, skip_spell hclean]
  rw [shader, bind_of_matched hblank]
  exact (bind_of_matched (items_of_steps h .nil)).trans rfl

theorem shader_spell {s : Shader} (h : Item.AllFit stage s.items maxNesting)
    (hlines : ∀ e ∈ s.events, e.EndsLine) : shader stage (spell s.pieces) = .matched s [] := by
  have hclean : Clean (s.pieces ++ []) := Item.closed_listPieces s.items h [] Clean.nil
  have hsteps := items_steps s.items h hlines hclean
  rw [List.append_nil] at hclean hsteps
  exact shader_of_steps hclean hsteps

end Parser

end ShaderMinifier
