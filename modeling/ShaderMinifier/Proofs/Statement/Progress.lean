import ShaderMinifier.Proofs.Grammar.Progress
import ShaderMinifier.Statement.Parser

/-
  Every rule of the grammar below the items reads something: what it leaves of its input is shorter
  than the input.
-/

namespace ShaderMinifier

namespace Parser

/-! ## Expressions -/

section Expressions

variable {a u : Parser Expr}

theorem takes_expressionOf (ha : Takes a) : Takes (expressionOf a) := by
  refine (Takes.commaList (takes_symbol _).keeps ha).bind fun items => ?_
  split
  · exact .pure _
  · exact .pure _

theorem takes_chainPart (hu : Takes u) :
    Takes (do let op ← symbolWhere BinaryOp.ofToken?; let right ← commit u; return (op, right)) :=
  (takes_symbolWhere _).bind fun _ => hu.keeps.commit.bind fun _ => .pure _

theorem takes_chainOf (hu : Takes u) : Takes (chainOf u) :=
  hu.bind fun _ => (takes_chainPart hu).keeps.many.bind fun _ => .pure _

theorem takes_conditionalOf (ha : Takes a) (hu : Takes u) : Takes (conditionalOf a u) := by
  refine (takes_chainOf hu).bind fun _ => (takes_symbol _).keeps.optional.bind fun mark => ?_
  cases mark with
  | none => exact .pure _
  | some _ =>
    exact (takes_expressionOf ha).keeps.commit.bind fun _ =>
      (takes_symbol _).keeps.commit.bind fun _ => ha.keeps.commit.bind fun _ => .pure _

theorem takes_assignmentOf (ha : Takes a) (hu : Takes u) : Takes (assignmentOf a u) := by
  refine (takes_conditionalOf ha hu).bind fun left => Keeps.here.bind fun _ =>
    (takes_symbolWhere _).keeps.optional.bind fun op => ?_
  cases op with
  | none => exact .pure _
  | some op =>
    dsimp only
    split
    · exact (Takes.failAt _ _).keeps
    · exact ha.keeps.commit.bind fun _ => .pure _

theorem takes_emptyList : Takes emptyList :=
  (takes_symbol _).orElse ((takes_keyword _).bind fun _ => (takes_symbol _).keeps)

theorem takes_argumentsOf (ha : Takes a) : Takes (argumentsOf a) :=
  takes_emptyList.optional_bind (fun _ => .pure _)
    ((Takes.sepBy1 (takes_symbol _).keeps ha).bind fun _ => (takes_symbol _).keeps.bind fun _ =>
      .pure _)

theorem takes_callOf (ha : Takes a) : Takes (callOf a) := by
  refine .behind keeps_nextWord fun word => ?_
  cases word with
  | none => exact .mismatch _
  | some callee =>
    dsimp only
    split
    · exact takes_anyWord.bind fun _ => (takes_symbol _).keeps.bind fun _ =>
        (takes_argumentsOf ha).keeps.commit.bind fun _ => .pure _
    · exact .mismatch _

theorem takes_variableName : Takes variableName := by
  refine .behind keeps_nextWord fun word => ?_
  cases word with
  | none => exact .mismatch _
  | some name =>
    dsimp only
    split
    · exact .mismatch _
    · exact takes_anyWord.bind fun _ => .pure _

theorem takes_parenthesizedOf (ha : Takes a) : Takes (parenthesizedOf a) :=
  (takes_symbol _).bind fun _ => (takes_expressionOf ha).keeps.commit.bind fun _ =>
    (takes_symbol _).keeps.commit.bind fun _ => .pure _

theorem takes_primaryOf (ha : Takes a) : Takes (primaryOf a) :=
  .orElse (takes_floatLiteral.bind fun _ => .pure _) <|
  .orElse (takes_intLiteral.bind fun _ => .pure _) <|
  .orElse (takes_boolLiteral.bind fun _ => .pure _) <|
  .orElse (takes_parenthesizedOf ha) <|
  .orElse (takes_callOf ha) takes_variableName

theorem takes_suffixOf (ha : Takes a) : Takes (suffixOf a) := by
  refine (takes_symbolWhere _).bind fun token => ?_
  split
  · exact (takes_expressionOf ha).keeps.commit.bind fun _ =>
      (takes_symbol _).keeps.commit.bind fun _ => .pure _
  · exact takes_anyWord.keeps.commit.bind fun _ => .pure _
  · split
    · exact (Takes.mismatch _).keeps
    · refine (Keeps.lookingAt _).bind fun again => ?_
      split
      · exact (Takes.fail _).keeps
      · exact .pure _

theorem takes_suffixedOf (ha : Takes a) : Takes (suffixedOf a) :=
  (takes_primaryOf ha).bind fun _ => (takes_suffixOf ha).keeps.many.bind fun _ => .pure _

theorem takes_unaryOf (ha : Takes a) (hu : Takes u) : Takes (unaryOf a u) :=
  (takes_symbolWhere _).optional_bind (fun _ => hu.keeps.commit.bind fun _ => .pure _)
    (takes_suffixedOf ha)

/-- The knot: `assignment` and `unary` of a level read something because those of the level below
do. By induction on the room. -/
theorem takes_operands (room : Nat) : Takes (assignment room) ∧ Takes (unary room) := by
  induction room with
  | zero => exact ⟨Takes.fail _, Takes.fail _⟩
  | succ room ih => exact ⟨takes_assignmentOf ih.1 ih.2, takes_unaryOf ih.1 ih.2⟩

theorem takes_assignment (room : Nat) : Takes (assignment room) := (takes_operands room).1

theorem takes_unary (room : Nat) : Takes (unary room) := (takes_operands room).2

theorem takes_expression (room : Nat) : Takes (expression room) :=
  takes_expressionOf (takes_assignment room)

theorem takes_conditional (room : Nat) : Takes (conditional room) :=
  takes_conditionalOf (takes_assignment room) (takes_unary room)

end Expressions

/-! ## Declarations -/

section Declarations

variable (room : Nat)

theorem keeps_typeQualifier : Keeps typeQualifier :=
  Keeps.optional <| Takes.keeps <| (takes_wordWhere _).orElse <|
    (takes_keyword _).bind fun _ => (takes_keyword _).keeps.bind fun _ => .pure _

theorem keeps_precisionQualifier : Keeps precisionQualifier := (takes_wordWhere _).keeps.optional

theorem takes_arraySize : Takes (arraySize room) :=
  (takes_conditional room).commit.bind fun _ => (takes_symbol _).keeps.commit.bind fun _ => .pure _

theorem takes_memberDeclarator : Takes (memberDeclarator room) := by
  refine takes_declaredName.bind fun _ => Keeps.here.bind fun _ =>
    (takes_symbol _).keeps.optional.bind fun bracket => ?_
  cases bracket with
  | none => exact .pure _
  | some _ =>
    refine (Keeps.lookingAt _).bind fun closes => ?_
    split
    · exact (Takes.failAt _ _).keeps
    · exact (takes_arraySize room).keeps.bind fun _ => .pure _

theorem takes_member : Takes (member room) := by
  refine .behind keeps_precisionQualifier fun _ => .behind (.lookingAt _) fun nested => ?_
  split
  · exact .fail _
  · exact (takes_wordWhere _).bind fun _ =>
      (Takes.sepBy1 (takes_symbol _).keeps (takes_memberDeclarator room)).keeps.commit.bind
        fun _ => (takes_symbol _).keeps.commit.bind fun _ => .pure _

theorem keeps_structName : Keeps structName := by
  refine (Keeps.lookingAt _).bind fun opens => ?_
  split
  · exact .pure _
  · exact takes_declaredName.keeps.commit.bind fun _ => .pure _

theorem takes_structType : Takes (structType room) :=
  (takes_keyword _).bind fun _ => keeps_structName.bind fun _ =>
    (takes_symbol _).keeps.commit.bind fun _ => (takes_member room).many1.keeps.commit.bind fun _ =>
      (takes_symbol _).keeps.commit.bind fun _ => .pure _

theorem takes_typeSpecifier : Takes (typeSpecifier room) :=
  ((takes_structType room).bind fun _ => .pure _).orElse
    ((takes_wordWhere _).bind fun _ => .pure _)

theorem takes_qualifiedType : Takes (qualifiedType room) := by
  refine .behind keeps_typeQualifier fun qualifier => .behind keeps_precisionQualifier
    fun precision => ?_
  dsimp only
  split
  · exact (takes_typeSpecifier room).commit.bind fun _ => .pure _
  · exact (takes_typeSpecifier room).bind fun _ => .pure _

theorem keeps_declaratorArray : Keeps (declaratorArray room) := by
  refine (takes_symbol _).keeps.optional.bind fun bracket => ?_
  cases bracket with
  | none => exact .pure _
  | some _ =>
    refine (takes_symbol _).keeps.optional.bind fun closes => ?_
    cases closes with
    | none => exact (takes_arraySize room).keeps.bind fun _ => .pure _
    | some _ => exact .pure _

theorem keeps_initializer : Keeps (initializer room) := by
  refine (takes_symbol _).keeps.optional.bind fun mark => ?_
  cases mark with
  | none => exact .pure _
  | some _ => exact (takes_assignment room).keeps.commit.bind fun _ => .pure _

theorem keeps_declaratorRest (name : String) : Keeps (declaratorRest room name) :=
  (keeps_declaratorArray room).bind fun _ => (keeps_initializer room).bind fun _ => .pure _

theorem takes_nextDeclarator : Takes (nextDeclarator room) :=
  (takes_symbol _).bind fun _ => takes_declaredName.keeps.commit.bind fun _ =>
    keeps_declaratorRest room _

theorem keeps_checked (stage : Stage) (placement : Placement) (start : List Char)
    (decl : Declaration) : Keeps (checked stage placement start decl) := by
  unfold checked
  split
  · exact (Takes.failAt _ _).keeps
  · exact .pure _

theorem takes_declarationRest (stage : Stage) (placement : Placement) (start : List Char)
    (type : QualifiedType) (name : String) :
    Takes (declarationRest room stage placement start type name) :=
  .behind (keeps_declaratorRest room name) fun _ =>
    .behind (takes_nextDeclarator room).keeps.many fun _ =>
      (takes_symbol _).commit.bind fun _ => keeps_checked _ _ _ _

theorem takes_bareDeclaration (stage : Stage) (placement : Placement) (start : List Char)
    (type : QualifiedType) : Takes (bareDeclaration stage placement start type) := by
  unfold bareDeclaration
  split
  · exact (takes_symbol _).bind fun _ => keeps_checked _ _ _ _
  · exact .mismatchAt _ _

theorem takes_localDeclaration : Takes (localDeclaration room) := by
  refine .behind .here fun _ => (takes_qualifiedType room).bind fun _ =>
    (Keeps.lookingAt _).bind fun bare => ?_
  split
  · exact (takes_bareDeclaration _ _ _ _).keeps
  · exact takes_declaredName.keeps.bind fun _ => (takes_declarationRest room _ _ _ _ _).keeps

theorem keeps_direction : Keeps direction := (takes_wordWhere _).keeps.optional

theorem takes_parameterType : Takes parameterType :=
  (takes_wordWhere _).optional_bind (fun _ => .pure _) (.fail _)

theorem keeps_parameterSize : Keeps (parameterSize room) := by
  refine (takes_symbol _).keeps.optional.bind fun bracket => ?_
  cases bracket with
  | none => exact .pure _
  | some _ => exact (takes_arraySize room).keeps.bind fun _ => .pure _

theorem takes_parameter : Takes (parameter room) := by
  refine .behind .here fun _ => .behind (takes_keyword _).keeps.optional fun _ =>
    .behind keeps_nextWord fun word => ?_
  split
  · exact .fail _
  · refine .behind keeps_direction fun direction => ?_
    split
    · exact .failAt _ _
    · refine .behind keeps_precisionQualifier fun _ => takes_parameterType.bind fun type =>
        takes_declaredName.keeps.optional.bind fun _ => ?_
      split
      · exact (Takes.failAt _ _).keeps
      · exact (keeps_parameterSize room).bind fun _ => .pure _

theorem takes_parameters : Takes (parameters room) :=
  takes_emptyList.optional_bind (fun _ => .pure _)
    ((Takes.sepBy1 (takes_symbol _).keeps (takes_parameter room)).bind fun _ =>
      (takes_symbol _).keeps.commit.bind fun _ => .pure _)

end Declarations

/-! ## Statements -/

section Statements

variable (room : Nat) {s : Parser Statement}

theorem takes_blockPart (hs : Takes s) :
    Takes (do if ← lookingAt (symbol "\x7d") then mismatch .unexpected else commit s) := by
  refine .behind (.lookingAt _) fun closes => ?_
  split
  · exact .mismatch _
  · exact hs.commit

theorem takes_blockOf (hs : Takes s) : Takes (blockOf s) :=
  (takes_symbol _).bind fun _ => (takes_blockPart hs).keeps.many.bind fun _ =>
    (takes_symbol _).keeps.bind fun _ => .pure _

theorem takes_expressionStatement : Takes (expressionStatement room) :=
  (takes_symbol _).optional_bind (fun _ => .pure _)
    ((takes_expression room).bind fun _ => (takes_symbol _).keeps.commit.bind fun _ => .pure _)

theorem takes_simpleStatement : Takes (simpleStatement room) :=
  (takes_localDeclaration room).optional_bind (fun _ => .pure _) (takes_expressionStatement room)

theorem takes_condition : Takes (condition room) :=
  (takes_symbol _).commit.bind fun _ => (takes_expression room).keeps.commit.bind fun _ =>
    (takes_symbol _).keeps.commit.bind fun _ => .pure _

theorem takes_expressionBefore (closing : String) : Takes (expressionBefore room closing) := by
  have hclose : ∀ value : Option Expr, Takes (do commit (symbol closing); return value) :=
    fun _ => (takes_symbol _).commit.bind fun _ => .pure _
  refine .behind (.lookingAt _) fun closes => ?_
  dsimp only
  split
  · exact .behind (.pure _) hclose
  · exact .behind ((takes_expression room).keeps.commit.bind fun _ => .pure _) hclose

theorem takes_selectionOf (hs : Takes s) : Takes (selectionOf room s) := by
  refine (takes_keyword _).bind fun _ => (takes_condition room).keeps.bind fun _ =>
    hs.keeps.commit.bind fun _ => (takes_keyword _).keeps.optional.bind fun other => ?_
  cases other with
  | none => exact .pure _
  | some _ => exact hs.keeps.commit.bind fun _ => .pure _

theorem takes_whileLoopOf (hs : Takes s) : Takes (whileLoopOf room s) :=
  (takes_keyword _).bind fun _ => (takes_condition room).keeps.bind fun _ =>
    hs.keeps.commit.bind fun _ => .pure _

theorem takes_doWhileOf (hs : Takes s) : Takes (doWhileOf room s) :=
  (takes_keyword _).bind fun _ => hs.keeps.commit.bind fun _ =>
    (takes_keyword _).keeps.commit.bind fun _ => (takes_condition room).keeps.bind fun _ =>
      (takes_symbol _).keeps.commit.bind fun _ => .pure _

theorem takes_forLoopOf (hs : Takes s) : Takes (forLoopOf room s) :=
  (takes_keyword _).bind fun _ => (takes_symbol _).keeps.commit.bind fun _ =>
    (takes_simpleStatement room).keeps.commit.bind fun _ =>
      (takes_expressionBefore room _).keeps.bind fun _ =>
        (takes_expressionBefore room _).keeps.bind fun _ =>
          hs.keeps.commit.bind fun _ => .pure _

theorem takes_jump (word : String) (stmt : Statement) : Takes (jump word stmt) :=
  (takes_keyword _).bind fun _ => (takes_symbol _).keeps.commit.bind fun _ => .pure _

theorem takes_returnStatement : Takes (returnStatement room) :=
  (takes_keyword _).bind fun _ => (takes_expressionBefore room _).keeps.bind fun _ => .pure _

theorem takes_statementOf (hs : Takes s) : Takes (statementOf room s) := by
  refine .behind .here fun _ => ?_
  split
  · exact .fail _
  · refine .behind (.lookingAt _) fun opens => ?_
    split
    · exact (takes_blockOf hs).bind fun _ => .pure _
    · refine .behind keeps_nextWord fun word => ?_
      split
      · exact takes_selectionOf room hs
      · exact takes_whileLoopOf room hs
      · exact takes_doWhileOf room hs
      · exact takes_forLoopOf room hs
      · exact takes_jump _ _
      · exact takes_jump _ _
      · exact takes_jump _ _
      · exact takes_returnStatement room
      · exact (takes_simpleStatement room).bind fun _ => .pure _

theorem takes_statement : Takes (statement room) := by
  induction room with
  | zero => exact Takes.fail _
  | succ room ih => exact takes_statementOf room ih

end Statements

end Parser

end ShaderMinifier
