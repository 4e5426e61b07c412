import ShaderMinifier.Proofs.Item.Continuation

/-
  Texts of directive lines alone. Such a text is a shader exactly if its conditionals are balanced
  and not nested too deep: the grammar of lines is given on its own, a derivation gives the items
  that the lines are read as, and whatever the reader takes up to some line was derived. What is
  read is written back line by line.
-/

namespace ShaderMinifier

open Piece

/-! ## Lines -/

/-- A text that stands behind the name of a directive, as `directiveValue` reads it from its line:
one line, trimmed, not empty, and not kept going by a backslash. -/
structure LineText where
  text : String
  nonempty : text ≠ ""
  oneLine : '\n' ∉ text.toList
  trimmed : WhiteSpace.trim text.toList = text.toList
  ends : text.toList.getLast? ≠ some '\\'

/-- A line of a text that holds directives only: a plain one, or one that opens, divides or closes a
conditional. -/
inductive DirectiveLine where
  | plain (name : String) (known : name ∈ Directive.plainNames) (value : LineText)
  | opening (kind : ConditionalKind) (condition : LineText)
  | elif (condition : LineText)
  | otherwise
  | done

namespace DirectiveLine

/-- The line as it is written, without its line feed; what `Item.pieces` makes a `Piece.line`. -/
def text : DirectiveLine → String
  | plain name _ value => "#" ++ name ++ " " ++ value.text
  | opening kind condition => "#" ++ kind.keyword ++ " " ++ condition.text
  | elif condition => "#elif " ++ condition.text
  | otherwise => "#else"
  | done => "#endif"

/-- The text of lines, each with its line feed, to be read by `Shader.parse`. -/
def source : List DirectiveLine → String
  | [] => ""
  | first :: lines => first.text ++ "\n" ++ source lines

/-- What lines can be derived from, the two nonterminals of `Derives`. -/
inductive Phrase where
  /-- Directives and whole conditionals, as `Parser.items` reads them. -/
  | items
  /-- The lines of a conditional behind its first branch, up to its `#endif`, as `Parser.branches`
  reads them. -/
  | branches

/-- The lines are derived from the phrase, with conditionals nested at most so deep. This is the
grammar of balanced conditionals, stated without the parser. -/
inductive Derives : Phrase → (depth : Nat) → List DirectiveLine → Prop
  | nil {depth : Nat} : Derives .items depth []
  | plain {depth : Nat} {name : String} {known : name ∈ Directive.plainNames} {value : LineText}
      {lines : List DirectiveLine} (h : Derives .items depth lines) :
    Derives .items depth (.plain name known value :: lines)
  | conditional {depth : Nat} {kind : ConditionalKind} {condition : LineText}
      {body rest lines : List DirectiveLine} (hbody : Derives .items depth body)
      (hrest : Derives .branches depth rest) (h : Derives .items (depth + 1) lines) :
    Derives .items (depth + 1) (.opening kind condition :: (body ++ (rest ++ lines)))
  | done {depth : Nat} : Derives .branches depth [.done]
  | otherwise {depth : Nat} {body : List DirectiveLine} (hbody : Derives .items depth body) :
    Derives .branches depth (.otherwise :: (body ++ [.done]))
  | elif {depth : Nat} {condition : LineText} {body rest : List DirectiveLine}
      (hbody : Derives .items depth body) (hrest : Derives .branches depth rest) :
    Derives .branches depth (.elif condition :: (body ++ rest))

end DirectiveLine

/-! ## Lines as they are read -/

theorem Directive.line_eq_self {text : List Char} (h : '\n' ∉ text) : line text = text := by
  induction text with
  | nil => rfl
  | cons c text ih =>
    rw [List.mem_cons, not_or] at h
    rw [line_cons (Ne.symm h.1), ih h.2]
    rintro - hhead
    exact h.2 (List.mem_of_mem_head? hhead)

namespace LineText

theorem isEmpty (t : LineText) : t.text.isEmpty = false := by
  simpa using t.nonempty

theorem isCondition (t : LineText) : Directive.IsCondition t.text :=
  ⟨⟨Directive.line_eq_self t.oneLine, t.trimmed⟩, t.isEmpty⟩

theorem endsLine {e : Event} (t : LineText) (h : e.directiveText = some t.text) :
    e.EndsLine := by
  intro text htext
  rw [h] at htext
  obtain rfl : t.text = text := by simpa using htext
  exact t.ends

end LineText

namespace DirectiveLine

/-- The line as a `Directive`, whether it is one of its own or belongs to a conditional. -/
def directive : DirectiveLine → Directive
  | plain name _ value => ⟨name, value.text⟩
  | opening kind condition => ⟨kind.keyword, condition.text⟩
  | elif condition => ⟨BranchMarker.elif.keyword, condition.text⟩
  | otherwise => ⟨BranchMarker.otherwise.keyword, ""⟩
  | done => ⟨BranchMarker.done.keyword, ""⟩

theorem text_directive (line : DirectiveLine) : line.directive.text = line.text := by
  cases line with
  | plain name known value => simp [directive, Directive.text, value.isEmpty, text]
  | opening kind condition => simp [directive, Directive.text, condition.isEmpty, text]
  | elif condition => exact (BranchMarker.elif_text condition.isEmpty).symm
  | otherwise => rfl
  | done => rfl

/-- The pieces of lines, one `Piece.line` for each. -/
def pieces (lines : List DirectiveLine) : List Piece := lines.map fun line => .line line.text

theorem pieces_cons (line : DirectiveLine) (lines : List DirectiveLine) :
    pieces (line :: lines) = .line line.directive.text :: pieces lines := by
  rw [text_directive]
  rfl

theorem pieces_append (lines lines' : List DirectiveLine) :
    pieces (lines ++ lines') = pieces lines ++ pieces lines' :=
  List.map_append

theorem clean_pieces (lines : List DirectiveLine) : Clean (pieces lines) := by
  induction lines with
  | nil => exact Clean.nil
  | cons line lines ih =>
    rw [pieces_cons]
    exact Clean.line (Directive.head_text _) ih

theorem spell_pieces (lines : List DirectiveLine) :
    spell (pieces lines) = (source lines).toList := by
  induction lines with
  | nil => rfl
  | cons line lines ih =>
    have hclean : Clean (.line line.text :: pieces lines) := clean_pieces (line :: lines)
    show spell (.line line.text :: pieces lines) = _
    rw [spell_line, Pen.writeAll_past_line hclean, ih, source]
    simp

theorem eq_nil_of_spell {lines : List DirectiveLine} (h : spell (pieces lines) = []) :
    lines = [] := by
  cases lines with
  | nil => rfl
  | cons line lines =>
    rw [spell_pieces, source] at h
    simp at h

theorem layout_pieces (lines : List DirectiveLine) : layout (pieces lines) = source lines := by
  rw [← String.toList_inj, layout_toList, spell_pieces]

/-! ## Derived lines are read -/

/-- These items are written as the lines, and can be read back with this room (`Item.AllFit`). -/
structure IsItems (stage : Stage) (depth : Nat) (lines : List DirectiveLine) (items : List Item) :
    Prop where
  pieces : Item.listPieces items = DirectiveLine.pieces lines
  fit : Item.AllFit stage items depth
  ends : ∀ e ∈ Item.listEvents items, e.EndsLine

/-- These branches are written as the lines, and can be read back with this room
(`Item.BranchesFit`). -/
structure IsBranches (stage : Stage) (depth : Nat) (lines : List DirectiveLine) (b : Branches) :
    Prop where
  pieces : Item.branchPieces b = DirectiveLine.pieces lines
  fit : Item.BranchesFit stage b depth
  ends : ∀ e ∈ Item.branchEvents b, e.EndsLine

/-- What derived lines are read as: items (`IsItems`), or what follows a first branch
(`IsBranches`). -/
def IsRead (stage : Stage) : Phrase → Nat → List DirectiveLine → Prop
  | .items, depth, lines => ∃ items, IsItems stage depth lines items
  | .branches, depth, lines => ∃ b, IsBranches stage depth lines b

theorem Derives.isRead {phrase : Phrase} {depth : Nat} {lines : List DirectiveLine}
    (h : Derives phrase depth lines) (stage : Stage) : IsRead stage phrase depth lines := by
  induction h with
  | nil => exact ⟨[], rfl, trivial, by simp [Item.listEvents]⟩
  | @plain depth name known value lines _ ih =>
    obtain ⟨items, hpieces, hfit, hends⟩ := ih
    refine ⟨.directive ⟨name, value.text⟩ :: items, ?_,
      ⟨⟨known, value.isCondition.isValue⟩, hfit⟩, ?_⟩
    · rw [Item.listPieces, hpieces, pieces_cons]
      rfl
    · exact List.forall_mem_append.2 ⟨List.forall_mem_singleton.2 (value.endsLine rfl), hends⟩
  | @conditional depth kind condition body rest lines _ _ _ ihbody ihrest ih =>
    obtain ⟨inner, hbody, hbodyFit, hbodyEnds⟩ := ihbody
    obtain ⟨b, hrest, hrestFit, hrestEnds⟩ := ihrest
    obtain ⟨items, hpieces, hfit, hends⟩ := ih
    refine ⟨.conditional kind condition.text inner b :: items, ?_,
      ⟨⟨Nat.succ_pos depth, condition.isCondition, hbodyFit, hrestFit⟩, hfit⟩, ?_⟩
    · rw [Item.listPieces, Item.pieces, hbody, hrest, hpieces, pieces_cons, pieces_append,
        pieces_append, kind.text_eq condition.isEmpty]
      simp [directive]
    · refine List.forall_mem_append.2 ⟨List.forall_mem_cons.2 ⟨condition.endsLine rfl, ?_⟩, hends⟩
      exact List.forall_mem_append.2 ⟨hbodyEnds, hrestEnds⟩
  | done => exact ⟨.done, rfl, trivial, by simp [Item.branchEvents]⟩
  | otherwise _ ih =>
    obtain ⟨inner, hbody, hfit, hends⟩ := ih
    refine ⟨.otherwise inner, ?_, hfit, hends⟩
    rw [Item.branchPieces, hbody, pieces_cons, pieces_append]
    rfl
  | @elif depth condition body rest _ _ ihbody ihrest =>
    obtain ⟨inner, hbody, hbodyFit, hbodyEnds⟩ := ihbody
    obtain ⟨b, hrest, hrestFit, hrestEnds⟩ := ihrest
    refine ⟨.elif condition.text inner b, ?_, ⟨condition.isCondition, hbodyFit, hrestFit⟩, ?_⟩
    · rw [Item.branchPieces, hbody, hrest, pieces_cons, pieces_append,
        BranchMarker.elif_text condition.isEmpty]
      simp [directive]
    · refine List.forall_mem_cons.2 ⟨condition.endsLine rfl, ?_⟩
      exact List.forall_mem_append.2 ⟨hbodyEnds, hrestEnds⟩

/-! ## What is read was derived -/

section Reading

open ShaderMinifier.Parser

variable {stage : Stage} {room : Nat} {lines : List DirectiveLine}

/-- The `BranchMarker` of a line that ends a branch, if it is one. -/
def marker? : DirectiveLine → Option BranchMarker
  | plain _ _ _ | opening _ _ => none
  | elif _ => some .elif
  | otherwise => some .otherwise
  | done => some .done

theorem isWord_directive (first : DirectiveLine) : Word.isWord first.directive.name = true := by
  cases first with
  | plain name known value => exact isWord_plainNames name known
  | opening kind condition =>
    have hkeyword : ∀ kind : ConditionalKind, Word.isWord kind.keyword = true := by
      intro kind
      cases kind <;> decide
    exact hkeyword kind
  | elif condition => exact isWord_marker .elif
  | otherwise => exact isWord_marker .otherwise
  | done => exact isWord_marker .done

theorem ofKeyword?_directive (first : DirectiveLine) :
    BranchMarker.ofKeyword? first.directive.name = first.marker? := by
  cases first with
  | plain name known value =>
    have hnames : ∀ w ∈ Directive.plainNames, BranchMarker.ofKeyword? w = none := by decide
    exact hnames name known
  | opening kind condition => cases kind <;> rfl
  | elif condition => exact ofKeyword?_marker .elif
  | otherwise => exact ofKeyword?_marker .otherwise
  | done => exact ofKeyword?_marker .done

theorem nextMarker_pieces (lines : List DirectiveLine) :
    nextMarker (spell (pieces lines)) =
      .matched (lines.head?.bind marker?) (spell (pieces lines)) := by
  cases lines with
  | nil => rfl
  | cons first lines =>
    rw [pieces_cons, nextMarker_spell first.isWord_directive, ofKeyword?_directive]
    rfl

theorem directiveValue_pieces (first : DirectiveLine) (lines : List DirectiveLine) :
    directiveValue (first.directive.behindName (pieces lines)) =
      .matched first.directive.value (spell (pieces lines)) := by
  have hvalue : Directive.IsValue first.directive.value ∧
      first.directive.value.toList.getLast? ≠ some '\\' := by
    cases first with
    | plain name known value => exact ⟨value.isCondition.isValue, value.ends⟩
    | opening kind condition => exact ⟨condition.isCondition.isValue, condition.ends⟩
    | elif condition => exact ⟨condition.isCondition.isValue, condition.ends⟩
    | otherwise => exact ⟨isValue_empty, by simp [directive]⟩
    | done => exact ⟨isValue_empty, by simp [directive]⟩
  exact directiveValue_spell hvalue.1 hvalue.2 (clean_pieces lines)

theorem matched_marker {m : BranchMarker} {value : String} {rest : List Char}
    (h : marker m (spell (pieces lines)) = .matched value rest) :
    ∃ first others, lines = first :: others ∧ first.marker? = some m ∧
      rest = spell (pieces others) := by
  rw [marker, bind_of_matched (nextMarker_pieces lines)] at h
  split at h
  · rename_i hmarker
    cases lines with
    | nil => cases hmarker
    | cons first others =>
      rw [pieces_cons, bind_of_matched (directiveName_spell first.isWord_directive),
        directiveValue_pieces] at h
      exact ⟨first, others, rfl, hmarker, (Reply.matched.inj h).2.symm⟩
  · cases h

/-- What a reader of items takes of lines was derived (`Derives`), and it leaves the other lines. -/
def TakesItems (room : Nat) (p : Parser (List Item)) : Prop :=
  ∀ lines items rest, p (spell (pieces lines)) = .matched items rest →
    ∃ taken left, lines = taken ++ left ∧ Derives .items room taken ∧
      rest = spell (pieces left)

theorem elifs_derived {p : Parser (List Item)} (hp : TakesItems room p)
    {elifs : List (String × List Item)} {lines : List DirectiveLine} {rest : List Char}
    (h : Rounds (elifBranch p) (spell (pieces lines)) elifs rest) :
    ∃ taken left, lines = taken ++ left ∧ rest = spell (pieces left) ∧
      ∀ tail, Derives .branches room tail → Derives .branches room (taken ++ tail) := by
  induction elifs generalizing lines with
  | nil => exact ⟨[], lines, rfl, h, fun _ htail => htail⟩
  | cons branch elifs ih =>
    obtain ⟨mid, hbranch, helifs⟩ := h
    obtain ⟨afterCondition, hmarker, hbody⟩ := matched_elifBranch hbranch
    obtain ⟨first, others, rfl, hfirst, rfl⟩ := matched_marker hmarker
    obtain ⟨body, left, rfl, hderived, rfl⟩ := hp others _ _ hbody
    obtain ⟨taken, left, rfl, rfl, htail⟩ := ih helifs
    cases first with
    | elif condition =>
      refine ⟨.elif condition :: (body ++ taken), left, by simp, rfl, fun tail h => ?_⟩
      rw [List.cons_append, List.append_assoc]
      exact .elif hderived (htail tail h)
    | plain _ _ _ | opening _ _ | otherwise | done => cases hfirst

theorem lastBranch_derived {p : Parser (List Item)} (hp : TakesItems room p) {last : Branches}
    {rest : List Char} (h : lastBranch p (spell (pieces lines)) = .matched last rest) :
    ∃ taken left, lines = taken ++ left ∧ rest = spell (pieces left) ∧
      Derives .branches room (taken ++ [.done]) := by
  rcases matched_lastBranch h with ⟨-, rfl⟩ | ⟨value, items, afterMarker, -, hmarker, hbody⟩
  · exact ⟨[], lines, rfl, rfl, .done⟩
  · obtain ⟨first, others, rfl, hfirst, rfl⟩ := matched_marker hmarker
    obtain ⟨body, left, rfl, hderived, rfl⟩ := hp others _ _ hbody
    cases first with
    | otherwise => exact ⟨.otherwise :: body, left, rfl, rfl, .otherwise hderived⟩
    | plain _ _ _ | opening _ _ | elif _ | done => cases hfirst

theorem closing_derived {opener : List Char} {kind : ConditionalKind} {rest : List Char}
    (h : closing opener kind (spell (pieces lines)) = .matched () rest) :
    ∃ left, lines = .done :: left ∧ rest = spell (pieces left) := by
  rw [closing, bind_of_matched (nextMarker_pieces lines)] at h
  generalize lines.head?.bind marker? = next at h
  cases next with
  | none => cases h
  | some next =>
    cases next with
    | elif | otherwise => cases h
    | done =>
      obtain ⟨_, mid, hmarker, hend⟩ := matched_bind.1 h
      obtain ⟨first, left, rfl, hfirst, rfl⟩ := matched_marker hmarker
      cases first with
      | done => exact ⟨left, rfl, (matched_pure.1 hend).2.symm⟩
      | plain _ _ _ | opening _ _ | elif _ | otherwise => cases hfirst

/-- The lines behind the first branch of a conditional, up to the one that closes it, are derived
where `Parser.branches` reads them. -/
theorem branches_derived {p : Parser (List Item)} (hp : TakesItems room p) {opener : List Char}
    {kind : ConditionalKind} {b : Branches} {rest : List Char}
    (h : branches opener kind p (spell (pieces lines)) = .matched b rest) :
    ∃ taken left, lines = taken ++ left ∧ Derives .branches room taken ∧
      rest = spell (pieces left) := by
  obtain ⟨elifs, afterElifs, last, afterLast, helifs, hlast, hclosing, -⟩ := matched_branches h
  obtain ⟨taken, left, rfl, rfl, htail⟩ := elifs_derived hp helifs
  obtain ⟨taken', left, rfl, rfl, hderived⟩ := lastBranch_derived hp hlast
  obtain ⟨left, rfl, rfl⟩ := closing_derived hclosing
  exact ⟨taken ++ (taken' ++ [.done]), left, by simp, htail _ hderived, rfl⟩

/-- An item that `itemOf` reads of lines is a directive, or a whole conditional that has room for
its branches; it can stand before any derived lines. -/
theorem item_derived (hinner : ∀ r, room = r + 1 → TakesItems r (items r stage)) {item : Item}
    {rest : List Char}
    (h : itemOf room stage (conditionalItem stage room) (spell (pieces lines)) =
      .matched item rest) :
    ∃ taken left, lines = taken ++ left ∧ rest = spell (pieces left) ∧
      ∀ tail, Derives .items room tail → Derives .items room (taken ++ tail) := by
  have hmarker : ∀ k, EndsBranch k →
      itemOf room stage (conditionalItem stage room) (spell k) ≠ .matched item rest := by
    intro k hk hmatched
    obtain ⟨fault, hmismatch⟩ := itemOf_mismatch room stage (conditionalItem stage room) hk
    rw [hmismatch] at hmatched
    cases hmatched
  cases lines with
  | nil => exact absurd h (hmarker [] .nil)
  | cons first lines =>
    have hvalue := directiveValue_pieces first lines
    rw [pieces_cons] at h
    cases first with
    | plain name known value =>
      rw [directive, itemOf_value known] at h
      obtain ⟨_, _, hread, h⟩ := matched_bind.1 h
      obtain ⟨-, rfl⟩ := matched_pure.1 h
      obtain ⟨-, rfl⟩ := Reply.matched.inj (hread.symm.trans hvalue)
      exact ⟨[.plain name known value], lines, rfl, rfl, fun tail htail => .plain htail⟩
    | opening kind condition =>
      rw [directive, itemOf_conditional] at h
      cases room with
      | zero => cases h
      | succ r =>
        obtain ⟨_, _, _, _, _, -, hread, hbody, hbranches⟩ := matched_conditional h
        obtain ⟨-, rfl⟩ := Reply.matched.inj (hread.symm.trans hvalue)
        obtain ⟨body, left, rfl, hbodyDerived, rfl⟩ := hinner r rfl _ _ _ hbody
        obtain ⟨taken, left, rfl, htaken, rfl⟩ := branches_derived (hinner r rfl) hbranches
        refine ⟨.opening kind condition :: (body ++ taken), left, by simp, rfl, fun tail h => ?_⟩
        rw [List.cons_append, List.append_assoc]
        exact .conditional hbodyDerived htaken h
    | elif condition => exact absurd h (hmarker _ (.line .elif condition.text _))
    | otherwise => exact absurd h (hmarker _ (.line .otherwise "" _))
    | done => exact absurd h (hmarker _ (.line .done "" _))

theorem takesItems_of_inner (hinner : ∀ r, room = r + 1 → TakesItems r (items r stage)) :
    TakesItems room (items room stage) := by
  intro lines read rest h
  have hrounds := rounds_of_many h
  clear h
  induction read generalizing lines with
  | nil => exact ⟨[], lines, rfl, .nil, hrounds⟩
  | cons item read ih =>
    obtain ⟨mid, hitem, hread⟩ := hrounds
    obtain ⟨taken, left, rfl, rfl, htail⟩ := item_derived hinner hitem
    obtain ⟨taken', left, rfl, hderived, rfl⟩ := ih left hread
    exact ⟨taken ++ taken', left, by simp, htail _ hderived, rfl⟩

/-- The items that `Parser.items` reads of lines take lines that were derived. By induction on the
room, and in a level on the rounds of the loop. -/
theorem takesItems_items (stage : Stage) (room : Nat) : TakesItems room (items room stage) := by
  induction room with
  | zero => exact takesItems_of_inner fun r hr => absurd hr (Nat.zero_ne_add_one r)
  | succ room ih => exact takesItems_of_inner fun r hr => Nat.succ.inj hr ▸ ih

theorem derives_of_parse {shader : Shader}
    (h : Shader.parse (source lines) stage = .ok shader) : Derives .items 128 lines := by
  rw [Shader.parse, run_eq_ok, ← spell_pieces, Parser.shader,
    bind_of_matched (blank_spell (clean_pieces lines))] at h
  obtain ⟨items, rest, hitems, h⟩ := matched_bind.1 h
  obtain ⟨taken, left, rfl, hderived, rfl⟩ := takesItems_items stage 128 _ _ _ hitems
  rw [bind_of_matched (nextMarker_pieces left)] at h
  generalize left.head?.bind marker? = next at h
  cases next with
  | none => rwa [eq_nil_of_spell (matched_pure.1 h).2, List.append_nil]
  | some _ => cases h

end Reading

theorem Derives.exists_parse {lines : List DirectiveLine} (h : Derives .items 128 lines)
    (stage : Stage) : ∃ shader, Shader.parse (source lines) stage = .ok shader ∧
      shader.emit = source lines := by
  obtain ⟨items, hpieces, hfit, hends⟩ := h.isRead stage
  have hlayout : layout (Shader.mk items).pieces = source lines := by
    rw [Shader.pieces, hpieces, layout_pieces]
  refine ⟨⟨items⟩, ?_, hlayout⟩
  rw [← hlayout]
  exact Shader.parse_layout hfit hends

/-- A text of directive lines is a shader for `Shader.parse` exactly if its conditionals are
balanced and nested at most 128 deep (`Derives`), and then it is written back as it was. -/
theorem parse_source_iff (stage : Stage) (lines : List DirectiveLine) :
    ((∃ shader, Shader.parse (source lines) stage = .ok shader) ↔ Derives .items 128 lines) ∧
      ∀ shader, Shader.parse (source lines) stage = .ok shader → shader.emit = source lines := by
  refine ⟨⟨fun ⟨shader, h⟩ => derives_of_parse h, fun h => ?_⟩, fun shader h => ?_⟩
  · obtain ⟨shader, hparse, -⟩ := h.exists_parse stage
    exact ⟨shader, hparse⟩
  · obtain ⟨read, hparse, hemit⟩ := (derives_of_parse h).exists_parse stage
    rwa [Except.ok.inj (h.symm.trans hparse)]

/-- The condition of a common guard as a `LineText`, the text that `Derives` and `source` take. -/
def guardText : LineText := ⟨"GL_ES", by decide, by decide, by decide +kernel, by decide⟩

example : Derives .items 128 [.opening .ifDefined guardText, .otherwise, .done] :=
  .conditional .nil (.otherwise .nil) .nil

example : Shader.parse (source [.opening .ifDefined guardText, .otherwise, .done]) .vertex =
    .ok ⟨[.conditional .ifDefined "GL_ES" [] (.otherwise [])]⟩ := by
  decide +kernel

-- Without its `#endif` the conditional is open at the end of the text.
example : (Shader.parse (source [.opening .ifDefined guardText, .otherwise]) .vertex).toOption =
    none := by
  decide +kernel

end DirectiveLine

end ShaderMinifier
