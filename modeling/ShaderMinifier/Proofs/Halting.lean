import ShaderMinifier.Proofs.Expr.Levels
import ShaderMinifier.Proofs.Item.Progress
import ShaderMinifier.Proofs.Statement.Script
import ShaderMinifier.Tree

/-
  Reading makes progress and ends. A rule of the grammar fails or leaves a shorter end of its input,
  so each loop ends by itself, and with the loops the reading of a whole source, well formed or not:
  where no loop has a bound it comes to an end too, and with the same result.
-/

namespace ShaderMinifier

/-! ## Scripts of items -/

namespace Parser

theorem plainItem_eq (room : Nat) (stage : Stage) : plainItem room stage = nextWord >>= fun word =>
    if word = some "precision" then precisionItem
    else if word = some "invariant" then do
      match ← optional invariantItem with
      | some item => return item
      | none => typedItem room stage
    else typedItem room stage := by
  refine congrArg (nextWord >>= ·) (funext fun word => ?_)
  split
  · exact (if_pos rfl).symm
  · exact ((if_neg (by decide)).trans (if_pos rfl)).symm
  · next hprecision hinvariant => exact ((if_neg hprecision).trans (if_neg hinvariant)).symm

theorem itemOf_eq (room : Nat) (stage : Stage)
    {conditional : List Char → ConditionalKind → Parser Item} :
    itemOf room stage conditional = here >>= fun place =>
      if place.head? = none then mismatch .unexpected
      else if place.head? = some '#' then directiveItem conditional
      else commit (plainItem room stage) := by
  refine congrArg (here >>= ·) (funext fun place => ?_)
  split
  · next hnone => exact (if_pos hnone).symm
  · next hhash => rw [if_neg (by simp [hhash]), if_pos hhash]
  · next c hhash hsome =>
    rw [if_neg (by simp [hsome]), if_neg (by simpa [hsome] using hhash)]

namespace Script

section Items

variable (room : Nat) (stage : Stage)

def marker (expected : BranchMarker) : Script (Parser.marker expected) :=
  .bind (.leaf .nextMarker) fun _ =>
    .ite (.bind (.leaf .directiveName) fun _ => .leaf .directiveValue) (.leaf (.mismatch _))

def precisionItem : Script precisionItem :=
  .bind (.leaf (.keyword _)) fun _ => .bind precisionQualifier fun
    | none => .leaf (.fail _)
    | some _ => .bind (.commit typeName) fun _ => .bind (.commit (.leaf (.symbol _))) fun _ =>
      .pure _

def invariantItem : Script invariantItem :=
  .bind (.leaf (.keyword _)) fun _ => .bind (.sepBy1 _ identifier takes_identifier) fun _ =>
    .bind (.commit (.leaf (.symbol _))) fun _ => .pure _

def functionRest (start : List Char) (type : QualifiedType) (name : String) :
    Script (Parser.functionRest room start type name) :=
  .ofEq (Parser.functionRest.eq_def _ _ _ _) <|
    match type.qualifier with
    | some _ => .leaf (.failAt _ _)
    | none => .bind (.commit (parameters room)) fun _ => .bind (.optional (.leaf (.symbol _))) fun
      | some _ => .pure _
      | none => .bind (.lookingAt (.leaf (.symbol _))) fun _ => .ite
        (.bind (blockOf (statement room) (takes_statement room)) fun _ => .pure _)
        (.leaf (.fail _))

def typedItem : Script (Parser.typedItem room stage) :=
  .bind (.leaf .here) fun _ => .bind (qualifiedType room) fun _ =>
    .bind (.lookingAt (.leaf (.symbol _))) fun _ => .ite
      (.bind (bareDeclaration _ _ _ _) fun _ => .pure _)
      (.bind declaredName fun _ => .bind (.optional (.leaf (.symbol _))) fun
        | some _ => functionRest room _ _ _
        | none => .bind (declarationRest room _ _ _ _ _) fun _ => .pure _)

def plainItem : Script (Parser.plainItem room stage) :=
  .ofEq (plainItem_eq room stage) <| .bind (.leaf .nextWord) fun _ => .ite precisionItem <| .ite
    (.bind (.optional invariantItem) fun
      | some _ => .pure _
      | none => typedItem room stage)
    (typedItem room stage)

section Conditionals

variable {items : Parser (List Item)} {conditional : List Char → ConditionalKind → Parser Item}

def elifBranch (s : Script items) : Script (Parser.elifBranch items) :=
  .bind (.leaf .here) fun _ => .bind (marker _) fun _ =>
    .ite (.leaf (.failAt _ _)) (.bind s fun _ => .pure _)

def closing (opener : List Char) (kind : ConditionalKind) : Script (Parser.closing opener kind) :=
  .bind (.leaf .nextMarker) fun
    | none => .leaf (.failAt _ _)
    | some .elif => .leaf (.fail _)
    | some .otherwise => .leaf (.fail _)
    | some .done => .bind (marker _) fun _ => .pure _

def branches (opener : List Char) (kind : ConditionalKind) (s : Script items)
    (hitems : Keeps items) : Script (Parser.branches opener kind items) :=
  .bind (.many (elifBranch s) (takes_elifBranch hitems)) fun _ =>
    .bind (.optional (marker _)) fun
      | some _ => .bind (.bind s fun _ => .pure _) fun _ => .bind (closing _ _) fun _ => .pure _
      | none => .bind (.pure _) fun _ => .bind (closing _ _) fun _ => .pure _

def directiveItem (s : ∀ opener kind, Script (conditional opener kind)) :
    Script (Parser.directiveItem conditional) :=
  .bind (.leaf .here) fun _ => .bind (.leaf .directiveName) fun name =>
    .ite (.leaf (.mismatchAt _ _)) <|
      match ConditionalKind.ofKeyword? name with
      | some _ => s _ _
      | none => .ite (.bind (.leaf .directiveValue) fun _ => .pure _) (.leaf (.failAt _ _))

def itemOf (s : ∀ opener kind, Script (conditional opener kind)) :
    Script (Parser.itemOf room stage conditional) :=
  .ofEq (itemOf_eq room stage) <| .bind (.leaf .here) fun _ =>
    .ite (.leaf (.mismatch _)) <| .ite (directiveItem s) (.commit (plainItem room stage))

end Conditionals

/-- The script of `Parser.conditionalItem`, by recursion on the room: the items of a conditional
have one level less. -/
def conditionalItem : (room : Nat) → (opener : List Char) → (kind : ConditionalKind) →
    Script (Parser.conditionalItem stage room opener kind)
  | 0, _, _ => .leaf (.failAt _ _)
  | room + 1, _, _ =>
    let items := .many (itemOf room stage fun opener kind => conditionalItem room opener kind)
      (takes_item room stage)
    .bind (.leaf .directiveValue) fun _ => .ite (.leaf (.failAt _ _)) <| .bind items fun _ =>
      .bind (branches _ _ items (keeps_items room stage)) fun _ => .pure _

def shader : Script (Parser.shader stage) :=
  .bind (.leaf .blank) fun _ =>
    .bind (.many (itemOf maxNesting stage (conditionalItem stage maxNesting))
      (takes_item maxNesting stage)) fun _ =>
    .bind (.leaf .nextMarker) fun
      | some _ => .leaf (.fail _)
      | none => .pure _

end Items

end Script

/-! ## Progress of the rules and ends of the loops -/

/-- At this stage and with this room the rules either do not match or leave a shorter end of their
input (`Takes`). A conditional is read from its hash as a directive, and behind the name of its
directive. -/
structure RulesTake (stage : Stage) (room : Nat) : Prop where
  statement : Takes (statement room)
  item : Takes (plainItem room stage)
  assignment : Takes (assignment room)
  member : Takes (member room)
  parameter : Takes (parameter room)
  directive : Takes (directiveItem (conditionalItem stage room))
  conditional : ∀ opener kind, Takes (conditionalItem stage room opener kind)

/-- What may be missing leaves an end of the input (`Keeps`), possibly all of it. -/
structure QualifiersKeep : Prop where
  blank : Keeps blank
  type : Keeps typeQualifier
  precision : Keeps precisionQualifier
  direction : Keeps direction
  const : Keeps (optional (keyword "const"))

/-- The loops of the grammar end by themselves (`LoopEnds`). Behind its `#elif` branches a
conditional goes on with at most one `#else`, and each of the lines that separate its branches takes
something. -/
structure LoopsEnd (stage : Stage) (room : Nat) : Prop where
  items : LoopEnds (itemOf room stage (conditionalItem stage room))
  branches : LoopEnds (elifBranch (Parser.items room stage))
  markers : ∀ expected, Takes (marker expected)
  block : LoopEnds do
    if ← lookingAt (symbol "\x7d") then mismatch .unexpected
    else commit (statement room)
  declarators : LoopEnds (nextDeclarator room)
  sequence : LoopEnds do let _ ← symbol ","; commit (assignment room)
  chain : LoopEnds (chainLink (unary room))
  suffixes : LoopEnds (suffixOf (assignment room))
  arguments : LoopEnds do let _ ← symbol ","; assignment room
  parameters : LoopEnds do let _ ← symbol ","; parameter room
  members : LoopEnds (member room)
  memberNames : LoopEnds do let _ ← symbol ","; memberDeclarator room
  invariants : LoopEnds do let _ ← symbol ","; identifier

/-- Chains are read by levels (`ByLevels`). A round at a level, which is an operator and its right
operand, shortens what is left; every level ends on every input, and the loosest one reads what
`chainOf` reads. -/
structure LevelsEnd (u : Parser Expr) : Prop where
  shortens : ∀ input op mid right rest, symbolWhere BinaryOp.ofToken? input = .matched op mid →
    ByLevels u op.precedence.tighter none mid (.matched right rest) →
    rest <:+ input ∧ rest.length < input.length
  stops : ∀ level left input, ∃ reply, ByLevels u level left input reply
  chain : ∀ input reply, ByLevels u .logicalOr none input reply ↔ reply = chainOf u input

theorem rulesTake (stage : Stage) (room : Nat) : RulesTake stage room where
  statement := takes_statement room
  item := takes_plainItem room stage
  assignment := takes_assignment room
  member := takes_member room
  parameter := takes_parameter room
  directive := takes_directiveItem fun opener kind =>
    (takes_conditionalItem room stage opener kind).keeps
  conditional := takes_conditionalItem room stage

theorem qualifiersKeep : QualifiersKeep where
  blank := keeps_blank
  type := keeps_typeQualifier
  precision := keeps_precisionQualifier
  direction := keeps_direction
  const := (takes_keyword _).keeps.optional

theorem loopsEnd (stage : Stage) (room : Nat) : LoopsEnd stage room where
  items := (takes_item room stage).loopEnds
  branches := (takes_elifBranch (keeps_items room stage)).loopEnds
  markers := takes_marker
  block := (takes_blockPart (takes_statement room)).loopEnds
  declarators := (takes_nextDeclarator room).loopEnds
  sequence := ((takes_symbol _).bind fun _ => (takes_assignment room).keeps.commit).loopEnds
  chain := (takes_chainLink (takes_unary room)).loopEnds
  suffixes := (takes_suffixOf (takes_assignment room)).loopEnds
  arguments := ((takes_symbol _).bind fun _ => (takes_assignment room).keeps).loopEnds
  parameters := ((takes_symbol _).bind fun _ => (takes_parameter room).keeps).loopEnds
  members := (takes_member room).loopEnds
  memberNames := ((takes_symbol _).bind fun _ => (takes_memberDeclarator room).keeps).loopEnds
  invariants := ((takes_symbol _).bind fun _ => takes_identifier.keeps).loopEnds

theorem Takes.levelsEnd {u : Parser Expr} (hu : Takes u) : LevelsEnd u where
  shortens input op mid right rest hop hright := by
    have hmid := takes_symbolWhere _ _ _ _ hop
    have hrest := hright.suffix hu rfl
    exact ⟨hrest.1.trans hmid.1, (hrest.2 rfl).trans hmid.2⟩
  stops := exists_byLevels hu
  chain _ _ := byLevels_iff hu

end Parser

/-! ## Whole sources -/

open ShaderMinifier.Parser

/-- Reading a source from an entry point ends with this result, by the scripts of its rules
(`Script.Reads`), where the loops have no bound. -/
def Tree.Reads (source : String) : StartRule → Except SyntaxError Tree → Prop
  | .shader stage, result => ∃ reply, (Script.shader stage).Reads source.toList reply ∧
    result = Tree.shader <$> Parser.run (fun _ => reply) source
  | .condition, result => ∃ reply,
    (Script.bind (.leaf .blank) fun _ => .expression maxNesting).Reads source.toList reply ∧
      result = Tree.expression <$> Parser.run (fun _ => reply) source
  | .statement, result => ∃ reply,
    (Script.bind (.leaf .blank) fun _ => .statement maxNesting).Reads source.toList reply ∧
      result = Tree.statement <$> Parser.run (fun _ => reply) source

/-- The result of `Tree.Reads` is that of `Tree.parse`, the reader whose loops are bounded by their
input. -/
theorem Tree.reads_iff {source : String} {rule : StartRule} {result : Except SyntaxError Tree} :
    Tree.Reads source rule result ↔ result = Tree.parse source rule := by
  cases rule with
  | shader stage =>
    simp only [Tree.Reads, Script.reads_iff, exists_eq_left]
    rfl
  | condition =>
    simp only [Tree.Reads, Script.reads_iff, exists_eq_left]
    rfl
  | statement =>
    simp only [Tree.Reads, Script.reads_iff, exists_eq_left]
    rfl

/-- Reading makes progress and ends. At every stage and depth the rules fail or leave a shorter end
of their input (`RulesTake`), and blanks and qualifiers leave an end of it (`QualifiersKeep`). So
each round of a loop shortens what is left and each loop stops by itself (`LoopsEnd`), also at each
level of a chain (`LevelsEnd`), among blanks (`Blank.after?`) and among the rows of a directive
(`nextRow?`). On every source the reading ends without a bound on its loops, and `Tree.Reads` has
the result of `Tree.parse`. -/
theorem Tree.parse_progress :
    (∀ stage room, RulesTake stage room) ∧ QualifiersKeep ∧ (∀ stage room, LoopsEnd stage room) ∧
    (∀ room, LevelsEnd (unary room)) ∧
    (Shortens Blank.after? ∧ ∀ input, StopsAt Blank.after? input (Blank.skip input)) ∧
    (Shortens Directive.nextRow? ∧ ∀ input, ∃ text last,
      StopsAt Directive.nextRow? input last ∧ input = text ++ Directive.behindRow last ∧
      directiveValue input = .matched (String.ofList (WhiteSpace.trim text))
        (Blank.skip (Directive.behindRow last))) ∧
    ∀ source rule result, Tree.Reads source rule result ↔ result = Tree.parse source rule :=
  ⟨rulesTake, qualifiersKeep, loopsEnd, fun room => (takes_unary room).levelsEnd,
    ⟨Blank.shortens_after?, Blank.stopsAt_skip⟩,
    ⟨Directive.shortens_nextRow?, directiveValue_stopsAt⟩, fun _ _ _ => Tree.reads_iff⟩

/-- A statement leaves the one behind it, and a block that is never closed is still read to an end,
which is an error of both `Tree.parse` and `Tree.Reads`. -/
theorem Tree.parse_progress_unclosed :
    (∃ v, Parser.statement maxNesting "a+b*c;d".toList = .matched v ['d'] ∧
      ['d'] <:+ "a+b*c;d".toList ∧ ['d'].length < "a+b*c;d".toList.length) ∧
    ∃ e, Tree.parse "\x7ba;" .statement = .error e ∧ Tree.Reads "\x7ba;" .statement (.error e) := by
  obtain ⟨hrules, -, -, -, -, -, hreads⟩ := Tree.parse_progress
  refine ⟨⟨_, rfl, (hrules .vertex maxNesting).statement _ _ _ rfl⟩, ?_⟩
  have herror : Tree.parse "\x7ba;" .statement =
      .error ⟨(Cause.expected (.token "(")).message none, ⟨3, 1, 4⟩⟩ := by
    decide +kernel
  exact ⟨_, herror, (hreads _ _ _).2 herror.symm⟩

end ShaderMinifier
