import ShaderMinifier.Proofs.Grammar.Within
import ShaderMinifier.Statement.Parser

/-
  Every rule of the grammar below the items finds fault inside the source: where a rule keeps the
  place at which a declaration, a parameter or an operand starts, it was an end of the source then.
-/

namespace ShaderMinifier

namespace Parser

variable {source : List Char}

/-! ## Expressions -/

section Expressions

variable {a u : Parser Expr}

theorem within_expressionOf (ha : Within source a) : Within source (expressionOf a) := by
  refine (Within.commaList (within_symbol _) ha).bind fun items => ?_
  split
  · exact .pure _
  · exact .pure _

theorem within_chainOf (hu : Within source u) : Within source (chainOf u) := by
  refine hu.bind fun _ => (Within.many ?_).bind fun _ => .pure _
  exact (within_symbolWhere _).bind fun _ => hu.commit.bind fun _ => .pure _

theorem within_conditionalOf (ha : Within source a) (hu : Within source u) :
    Within source (conditionalOf a u) := by
  refine (within_chainOf hu).bind fun _ => (within_symbol _).optional.bind fun mark => ?_
  cases mark with
  | none => exact .pure _
  | some _ =>
    exact (within_expressionOf ha).commit.bind fun _ => (within_symbol _).commit.bind fun _ =>
      ha.commit.bind fun _ => .pure _

theorem within_assignmentOf (ha : Within source a) (hu : Within source u) :
    Within source (assignmentOf a u) := by
  refine (within_conditionalOf ha hu).bind fun left => .here fun place hplace =>
    (within_symbolWhere _).optional.bind fun op => ?_
  cases op with
  | none => exact .pure _
  | some op =>
    dsimp only
    split
    · exact .failAt hplace _
    · exact ha.commit.bind fun _ => .pure _

theorem within_emptyList : Within source emptyList :=
  (within_symbol _).orElse ((within_keyword _).bind fun _ => within_symbol _)

theorem within_argumentsOf (ha : Within source a) : Within source (argumentsOf a) := by
  refine within_emptyList.optional.bind fun empty => ?_
  cases empty with
  | some _ => exact .pure _
  | none =>
    exact (Within.sepBy1 (within_symbol _) ha).bind fun _ => (within_symbol _).bind fun _ => .pure _

theorem within_callOf (ha : Within source a) : Within source (callOf a) := by
  refine within_nextWord.bind fun word => ?_
  cases word with
  | none => exact .mismatch _
  | some callee =>
    dsimp only
    split
    · exact within_anyWord.bind fun _ => (within_symbol _).bind fun _ =>
        (within_argumentsOf ha).commit.bind fun _ => .pure _
    · exact .mismatch _

theorem within_variableName : Within source variableName := by
  refine within_nextWord.bind fun word => ?_
  cases word with
  | none => exact .mismatch _
  | some name =>
    dsimp only
    split
    · exact .mismatch _
    · exact within_anyWord.bind fun _ => .pure _

theorem within_parenthesizedOf (ha : Within source a) : Within source (parenthesizedOf a) :=
  (within_symbol _).bind fun _ => (within_expressionOf ha).commit.bind fun _ =>
    (within_symbol _).commit.bind fun _ => .pure _

theorem within_primaryOf (ha : Within source a) : Within source (primaryOf a) :=
  .orElse (within_floatLiteral.bind fun _ => .pure _) <|
  .orElse (within_intLiteral.bind fun _ => .pure _) <|
  .orElse (within_boolLiteral.bind fun _ => .pure _) <|
  .orElse (within_parenthesizedOf ha) <|
  .orElse (within_callOf ha) within_variableName

theorem within_suffixOf (ha : Within source a) : Within source (suffixOf a) := by
  refine (within_symbolWhere _).bind fun token => ?_
  split
  · exact (within_expressionOf ha).commit.bind fun _ => (within_symbol _).commit.bind fun _ =>
      .pure _
  · exact within_anyWord.commit.bind fun _ => .pure _
  · split
    · exact .mismatch _
    · refine (Within.lookingAt _).bind fun again => ?_
      split
      · exact .fail _
      · exact .pure _

theorem within_suffixedOf (ha : Within source a) : Within source (suffixedOf a) :=
  (within_primaryOf ha).bind fun _ => (within_suffixOf ha).many.bind fun _ => .pure _

theorem within_unaryOf (ha : Within source a) (hu : Within source u) :
    Within source (unaryOf a u) := by
  refine (within_symbolWhere _).optional.bind fun op => ?_
  cases op with
  | some op => exact hu.commit.bind fun _ => .pure _
  | none => exact within_suffixedOf ha

/-- The knot: `assignment` and `unary` of a level find fault where those of the level below or a
lexeme do. By induction on the room. -/
theorem within_operands (room : Nat) :
    Within source (assignment room) ∧ Within source (unary room) := by
  induction room with
  | zero => exact ⟨Within.fail _, Within.fail _⟩
  | succ room ih => exact ⟨within_assignmentOf ih.1 ih.2, within_unaryOf ih.1 ih.2⟩

theorem within_assignment (room : Nat) : Within source (assignment room) := (within_operands room).1

theorem within_expression (room : Nat) : Within source (expression room) :=
  within_expressionOf (within_assignment room)

theorem within_conditional (room : Nat) : Within source (conditional room) :=
  within_conditionalOf (within_operands room).1 (within_operands room).2

end Expressions

/-! ## Declarations -/

section Declarations

variable (room : Nat)

theorem within_typeQualifier : Within source typeQualifier :=
  Within.optional <| (within_wordWhere _).orElse <|
    (within_keyword _).bind fun _ => (within_keyword _).bind fun _ => .pure _

theorem within_precisionQualifier : Within source precisionQualifier :=
  (within_wordWhere _).optional

theorem within_arraySize : Within source (arraySize room) :=
  (within_conditional room).commit.bind fun _ => (within_symbol _).commit.bind fun _ => .pure _

theorem within_memberDeclarator : Within source (memberDeclarator room) := by
  refine within_declaredName.bind fun _ => .here fun place hplace =>
    (within_symbol _).optional.bind fun bracket => ?_
  cases bracket with
  | none => exact .pure _
  | some _ =>
    refine (Within.lookingAt _).bind fun closes => ?_
    split
    · exact .failAt hplace _
    · exact (within_arraySize room).bind fun _ => .pure _

theorem within_member : Within source (member room) := by
  refine within_precisionQualifier.bind fun _ => (Within.lookingAt _).bind fun nested => ?_
  split
  · exact .fail _
  · exact (within_wordWhere _).bind fun _ =>
      (Within.sepBy1 (within_symbol _) (within_memberDeclarator room)).commit.bind
        fun _ => (within_symbol _).commit.bind fun _ => .pure _

theorem within_structName : Within source structName := by
  refine (Within.lookingAt _).bind fun opens => ?_
  split
  · exact .pure _
  · exact within_declaredName.commit.bind fun _ => .pure _

theorem within_structType : Within source (structType room) :=
  (within_keyword _).bind fun _ => within_structName.bind fun _ =>
    (within_symbol _).commit.bind fun _ => (within_member room).many1.commit.bind fun _ =>
      (within_symbol _).commit.bind fun _ => .pure _

theorem within_typeSpecifier : Within source (typeSpecifier room) :=
  ((within_structType room).bind fun _ => .pure _).orElse
    ((within_wordWhere _).bind fun _ => .pure _)

theorem within_qualifiedType : Within source (qualifiedType room) := by
  refine within_typeQualifier.bind fun qualifier => within_precisionQualifier.bind
    fun precision => ?_
  dsimp only
  split
  · exact (within_typeSpecifier room).commit.bind fun _ => .pure _
  · exact (within_typeSpecifier room).bind fun _ => .pure _

theorem within_declaratorArray : Within source (declaratorArray room) := by
  refine (within_symbol _).optional.bind fun bracket => ?_
  cases bracket with
  | none => exact .pure _
  | some _ =>
    refine (within_symbol _).optional.bind fun closes => ?_
    cases closes with
    | none => exact (within_arraySize room).bind fun _ => .pure _
    | some _ => exact .pure _

theorem within_initializer : Within source (initializer room) := by
  refine (within_symbol _).optional.bind fun mark => ?_
  cases mark with
  | none => exact .pure _
  | some _ => exact (within_assignment room).commit.bind fun _ => .pure _

theorem within_declaratorRest (name : String) : Within source (declaratorRest room name) :=
  (within_declaratorArray room).bind fun _ => (within_initializer room).bind fun _ => .pure _

theorem within_nextDeclarator : Within source (nextDeclarator room) :=
  (within_symbol _).bind fun _ => within_declaredName.commit.bind fun _ =>
    within_declaratorRest room _

variable {start : List Char} (hstart : start <:+ source) (stage : Stage) (placement : Placement)

include hstart

theorem within_checked (decl : Declaration) :
    Within source (checked stage placement start decl) := by
  unfold checked
  split
  · exact .failAt hstart _
  · exact .pure _

theorem within_declarationRest (type : QualifiedType) (name : String) :
    Within source (declarationRest room stage placement start type name) :=
  (within_declaratorRest room name).bind fun _ => (within_nextDeclarator room).many.bind fun _ =>
    (within_symbol _).commit.bind fun _ => within_checked hstart stage placement _

theorem within_bareDeclaration (type : QualifiedType) :
    Within source (bareDeclaration stage placement start type) := by
  unfold bareDeclaration
  split
  · exact (within_symbol _).bind fun _ => within_checked hstart stage placement _
  · exact .mismatchAt hstart _

omit hstart

theorem within_localDeclaration : Within source (localDeclaration room) := by
  refine .here fun start hstart => (within_qualifiedType room).bind fun _ =>
    (Within.lookingAt _).bind fun bare => ?_
  split
  · exact within_bareDeclaration hstart _ _ _
  · exact within_declaredName.bind fun _ => within_declarationRest room hstart _ _ _ _

theorem within_parameterType : Within source parameterType := by
  refine (within_wordWhere _).optional.bind fun type => ?_
  cases type with
  | some _ => exact .pure _
  | none => exact .fail _

theorem within_parameterSize : Within source (parameterSize room) := by
  refine (within_symbol _).optional.bind fun bracket => ?_
  cases bracket with
  | none => exact .pure _
  | some _ => exact (within_arraySize room).bind fun _ => .pure _

theorem within_parameter : Within source (parameter room) := by
  refine .here fun start hstart => (within_keyword _).optional.bind fun _ =>
    within_nextWord.bind fun word => ?_
  split
  · exact .fail _
  · refine (within_wordWhere _).optional.bind fun direction => ?_
    split
    · exact .failAt hstart _
    · refine within_precisionQualifier.bind fun _ => within_parameterType.bind fun type =>
        within_declaredName.optional.bind fun _ => ?_
      split
      · exact .failAt hstart _
      · exact (within_parameterSize room).bind fun _ => .pure _

theorem within_parameters : Within source (parameters room) := by
  refine within_emptyList.optional.bind fun empty => ?_
  cases empty with
  | some _ => exact .pure _
  | none =>
    exact (Within.sepBy1 (within_symbol _) (within_parameter room)).bind fun _ =>
      (within_symbol _).commit.bind fun _ => .pure _

end Declarations

/-! ## Statements -/

section Statements

variable (room : Nat) {s : Parser Statement}

theorem within_blockOf (hs : Within source s) : Within source (blockOf s) := by
  refine (within_symbol _).bind fun _ => (Within.many ?_).bind fun _ =>
    (within_symbol _).bind fun _ => .pure _
  refine (Within.lookingAt _).bind fun closes => ?_
  split
  · exact .mismatch _
  · exact hs.commit

theorem within_expressionStatement : Within source (expressionStatement room) := by
  refine (within_symbol _).optional.bind fun ends => ?_
  cases ends with
  | some _ => exact .pure _
  | none =>
    exact (within_expression room).bind fun _ => (within_symbol _).commit.bind fun _ => .pure _

theorem within_simpleStatement : Within source (simpleStatement room) := by
  refine (within_localDeclaration room).optional.bind fun decl => ?_
  cases decl with
  | some _ => exact .pure _
  | none => exact within_expressionStatement room

theorem within_condition : Within source (condition room) :=
  (within_symbol _).commit.bind fun _ => (within_expression room).commit.bind fun _ =>
    (within_symbol _).commit.bind fun _ => .pure _

theorem within_expressionBefore (closing : String) :
    Within source (expressionBefore room closing) := by
  have hclose : ∀ value : Option Expr, Within source (do commit (symbol closing); return value) :=
    fun _ => (within_symbol _).commit.bind fun _ => .pure _
  refine (Within.lookingAt _).bind fun closes => ?_
  dsimp only
  split
  · exact Within.bind (.pure _) hclose
  · exact Within.bind ((within_expression room).commit.bind fun _ => .pure _) hclose

theorem within_selectionOf (hs : Within source s) : Within source (selectionOf room s) := by
  refine (within_keyword _).bind fun _ => (within_condition room).bind fun _ =>
    hs.commit.bind fun _ => (within_keyword _).optional.bind fun other => ?_
  cases other with
  | none => exact .pure _
  | some _ => exact hs.commit.bind fun _ => .pure _

theorem within_whileLoopOf (hs : Within source s) : Within source (whileLoopOf room s) :=
  (within_keyword _).bind fun _ => (within_condition room).bind fun _ => hs.commit.bind fun _ =>
    .pure _

theorem within_doWhileOf (hs : Within source s) : Within source (doWhileOf room s) :=
  (within_keyword _).bind fun _ => hs.commit.bind fun _ => (within_keyword _).commit.bind fun _ =>
    (within_condition room).bind fun _ => (within_symbol _).commit.bind fun _ => .pure _

theorem within_forLoopOf (hs : Within source s) : Within source (forLoopOf room s) :=
  (within_keyword _).bind fun _ => (within_symbol _).commit.bind fun _ =>
    (within_simpleStatement room).commit.bind fun _ =>
      (within_expressionBefore room _).bind fun _ => (within_expressionBefore room _).bind fun _ =>
        hs.commit.bind fun _ => .pure _

theorem within_jump (word : String) (stmt : Statement) : Within source (jump word stmt) :=
  (within_keyword _).bind fun _ => (within_symbol _).commit.bind fun _ => .pure _

theorem within_returnStatement : Within source (returnStatement room) :=
  (within_keyword _).bind fun _ => (within_expressionBefore room _).bind fun _ => .pure _

theorem within_statementOf (hs : Within source s) : Within source (statementOf room s) := by
  refine .here fun place _ => ?_
  split
  · exact .fail _
  · refine (Within.lookingAt _).bind fun opens => ?_
    split
    · exact (within_blockOf hs).bind fun _ => .pure _
    · refine within_nextWord.bind fun word => ?_
      split
      · exact within_selectionOf room hs
      · exact within_whileLoopOf room hs
      · exact within_doWhileOf room hs
      · exact within_forLoopOf room hs
      · exact within_jump _ _
      · exact within_jump _ _
      · exact within_jump _ _
      · exact within_returnStatement room
      · exact (within_simpleStatement room).bind fun _ => .pure _

theorem within_statement : Within source (statement room) := by
  induction room with
  | zero => exact Within.fail _
  | succ room ih => exact within_statementOf room ih

end Statements

end Parser

end ShaderMinifier
