import ShaderMinifier.Proofs.Grammar.Script
import ShaderMinifier.Proofs.Statement.Progress

/-
  The scripts of the rules below the items. Each follows its rule part by part; the body of each
  loop takes something by the lemmas on progress.
-/

namespace ShaderMinifier

namespace Parser

/-! ## Choices by a lexeme -/

/-- `suffixOf` as a choice by conditions on the symbol, the form in which `Script.suffixOf` follows
it. -/
theorem suffixOf_eq {a : Parser Expr} : suffixOf a = symbolWhere some >>= fun token =>
    if token = "[" then do
      let position ← commit (expressionOf a)
      commit (symbol "]")
      return .index position
    else if token = "." then do
      let name ← commit anyWord
      return .field name
    else match StepOp.ofToken? token with
      | some op => do
        if ← lookingAt (symbolWhere StepOp.ofToken?) then fail .repeatedStep
        else return .step op
      | none => mismatch .unexpected := by
  refine congrArg (symbolWhere some >>= ·) (funext fun token => ?_)
  split
  · exact (if_pos rfl).symm
  · exact ((if_neg (by decide)).trans (if_pos rfl)).symm
  · next hindex hfield =>
    rw [if_neg hindex, if_neg hfield]
    cases StepOp.ofToken? token <;> rfl

/-- `statementOf` as a choice by conditions on the first word, the form in which
`Script.statementOf` follows it. -/
theorem statementOf_eq (room : Nat) {b : Parser Statement} : statementOf room b = do
    if (← here).head? = some '#' then fail .directiveInside
    else if ← lookingAt (symbol "\x7b") then return .block (← blockOf b)
    else
      let word ← nextWord
      if word = some "if" then selectionOf room b
      else if word = some "while" then whileLoopOf room b
      else if word = some "do" then doWhileOf room b
      else if word = some "for" then forLoopOf room b
      else if word = some "continue" then jump "continue" .continueLoop
      else if word = some "break" then jump "break" .breakLoop
      else if word = some "discard" then jump "discard" .discard
      else if word = some "return" then returnStatement room
      else return .simple (← simpleStatement room) := by
  refine congrArg (here >>= ·) (funext fun place => congrArg _ ?_)
  refine congrArg (lookingAt (symbol "\x7b") >>= ·) (funext fun opened => congrArg _ ?_)
  refine congrArg (nextWord >>= ·) (funext fun word => ?_)
  split <;> simp_all

namespace Script

/-! ## Expressions -/

section Expressions

variable {a u : Parser Expr}

def expressionOf (s : Script a) (ha : Takes a) : Script (Parser.expressionOf a) :=
  .bind (.commaList _ s ha) fun
    | [_] => .pure _
    | [] | _ :: _ :: _ => .pure _

def chainOf (t : Script u) (hu : Takes u) : Script (Parser.chainOf u) :=
  .bind t fun _ => .bind
    (.many (.bind (.leaf (.symbolWhere _)) fun _ => .bind (.commit t) fun _ => .pure _)
      (takes_chainPart hu))
    fun _ => .pure _

def conditionalOf (s : Script a) (ha : Takes a) (t : Script u) (hu : Takes u) :
    Script (Parser.conditionalOf a u) :=
  .bind (chainOf t hu) fun _ => .bind (.optional (.leaf (.symbol _))) fun
    | none => .pure _
    | some _ => .bind (.commit (expressionOf s ha)) fun _ =>
      .bind (.commit (.leaf (.symbol _))) fun _ => .bind (.commit s) fun _ => .pure _

def assignmentOf (s : Script a) (ha : Takes a) (t : Script u) (hu : Takes u) :
    Script (Parser.assignmentOf a u) :=
  .bind (conditionalOf s ha t hu) fun _ => .bind (.leaf .here) fun _ =>
    .bind (.optional (.leaf (.symbolWhere _))) fun
      | none => .pure _
      | some _ => .ite (.leaf (.failAt _ _)) (.bind (.commit s) fun _ => .pure _)

def emptyList : Script emptyList :=
  .orElse (.leaf (.symbol _)) (.bind (.leaf (.keyword _)) fun _ => .leaf (.symbol _))

def argumentsOf (s : Script a) (ha : Takes a) : Script (Parser.argumentsOf a) :=
  .bind (.optional emptyList) fun
    | some _ => .pure _
    | none => .bind (.sepBy1 _ s ha) fun _ =>
      .bind (.leaf (.symbol _)) fun _ => .pure _

def callOf (s : Script a) (ha : Takes a) : Script (Parser.callOf a) :=
  .bind (.leaf .nextWord) fun
    | none => .leaf (.mismatch _)
    | some _ => .ite
      (.bind anyWord fun _ => .bind (.leaf (.symbol _)) fun _ =>
        .bind (.commit (argumentsOf s ha)) fun _ => .pure _)
      (.leaf (.mismatch _))

def variableName : Script variableName :=
  .bind (.leaf .nextWord) fun
    | none => .leaf (.mismatch _)
    | some _ => .ite (.leaf (.mismatch _)) (.bind anyWord fun _ => .pure _)

def parenthesizedOf (s : Script a) (ha : Takes a) : Script (Parser.parenthesizedOf a) :=
  .bind (.leaf (.symbol _)) fun _ => .bind (.commit (expressionOf s ha)) fun _ =>
    .bind (.commit (.leaf (.symbol _))) fun _ => .pure _

def primaryOf (s : Script a) (ha : Takes a) : Script (Parser.primaryOf a) :=
  .orElse (.bind (.leaf .floatLiteral) fun _ => .pure _) <|
  .orElse (.bind (.leaf .intLiteral) fun _ => .pure _) <|
  .orElse (.bind boolLiteral fun _ => .pure _) <|
  .orElse (parenthesizedOf s ha) <|
  .orElse (callOf s ha) variableName

def suffixOf (s : Script a) (ha : Takes a) : Script (Parser.suffixOf a) :=
  .ofEq suffixOf_eq <| .bind (.leaf (.symbolWhere _)) fun token => .ite
    (.bind (.commit (expressionOf s ha)) fun _ => .bind (.commit (.leaf (.symbol _))) fun _ =>
      .pure _) <| .ite (.bind (.commit anyWord) fun _ => .pure _) <|
    match StepOp.ofToken? token with
    | some _ => .bind (.lookingAt (.leaf (.symbolWhere _))) fun _ =>
      .ite (.leaf (.fail _)) (.pure _)
    | none => .leaf (.mismatch _)

def suffixedOf (s : Script a) (ha : Takes a) : Script (Parser.suffixedOf a) :=
  .bind (primaryOf s ha) fun _ => .bind (.many (suffixOf s ha) (takes_suffixOf ha)) fun _ => .pure _

def unaryOf (s : Script a) (ha : Takes a) (t : Script u) : Script (Parser.unaryOf a u) :=
  .bind (.optional (.leaf (.symbolWhere _))) fun
    | some _ => .bind (.commit t) fun _ => .pure _
    | none => suffixedOf s ha

/-- The knot: the scripts of `assignment` and `unary` at a level go by those of the level below
it. -/
def operands : (room : Nat) → Script (Parser.assignment room) × Script (Parser.unary room)
  | 0 => (.leaf (.fail _), .leaf (.fail _))
  | room + 1 =>
    (assignmentOf (operands room).1 (takes_assignment room) (operands room).2 (takes_unary room),
      unaryOf (operands room).1 (takes_assignment room) (operands room).2)

def assignment (room : Nat) : Script (Parser.assignment room) := (operands room).1

def expression (room : Nat) : Script (Parser.expression room) :=
  expressionOf (assignment room) (takes_assignment room)

def conditional (room : Nat) : Script (Parser.conditional room) :=
  conditionalOf (assignment room) (takes_assignment room) (operands room).2 (takes_unary room)

end Expressions

/-! ## Declarations -/

section Declarations

variable (room : Nat)

def typeQualifier : Script typeQualifier :=
  .optional <| .orElse (.leaf (.wordWhere _)) <|
    .bind (.leaf (.keyword _)) fun _ => .bind (.leaf (.keyword _)) fun _ => .pure _

def precisionQualifier : Script precisionQualifier := .optional (.leaf (.wordWhere _))

def arraySize : Script (Parser.arraySize room) :=
  .bind (.commit (conditional room)) fun _ => .bind (.commit (.leaf (.symbol _))) fun _ => .pure _

def memberDeclarator : Script (Parser.memberDeclarator room) :=
  .bind declaredName fun _ => .bind (.leaf .here) fun _ => .bind (.optional (.leaf (.symbol _))) fun
    | none => .pure _
    | some _ => .bind (.lookingAt (.leaf (.symbol _))) fun _ =>
      .ite (.leaf (.failAt _ _)) (.bind (arraySize room) fun _ => .pure _)

def member : Script (Parser.member room) :=
  .bind precisionQualifier fun _ => .bind (.lookingAt (.leaf (.keyword _))) fun _ =>
    .ite (.leaf (.fail _)) <| .bind typeName fun _ =>
      .bind (.commit (.sepBy1 _ (memberDeclarator room) (takes_memberDeclarator room))) fun _ =>
        .bind (.commit (.leaf (.symbol _))) fun _ => .pure _

def structName : Script structName :=
  .bind (.lookingAt (.leaf (.symbol _))) fun _ =>
    .ite (.pure _) (.bind (.commit declaredName) fun _ => .pure _)

def structType : Script (Parser.structType room) :=
  .bind (.leaf (.keyword _)) fun _ => .bind structName fun _ =>
    .bind (.commit (.leaf (.symbol _))) fun _ =>
      .bind (.commit (.many1 (member room) (takes_member room))) fun _ =>
        .bind (.commit (.leaf (.symbol _))) fun _ => .pure _

def typeSpecifier : Script (Parser.typeSpecifier room) :=
  .orElse (.bind (structType room) fun _ => .pure _) (.bind typeName fun _ => .pure _)

def qualifiedType : Script (Parser.qualifiedType room) :=
  .bind typeQualifier fun _ => .bind precisionQualifier fun _ =>
    .ite (.bind (.commit (typeSpecifier room)) fun _ => .pure _)
      (.bind (typeSpecifier room) fun _ => .pure _)

def declaratorArray : Script (Parser.declaratorArray room) :=
  .bind (.optional (.leaf (.symbol _))) fun
    | none => .pure _
    | some _ => .bind (.optional (.leaf (.symbol _))) fun
      | some _ => .pure _
      | none => .bind (arraySize room) fun _ => .pure _

def initializer : Script (Parser.initializer room) :=
  .bind (.optional (.leaf (.symbol _))) fun
    | none => .pure _
    | some _ => .bind (.commit (assignment room)) fun _ => .pure _

def declaratorRest (name : String) : Script (Parser.declaratorRest room name) :=
  .bind (declaratorArray room) fun _ => .bind (initializer room) fun _ => .pure _

def nextDeclarator : Script (Parser.nextDeclarator room) :=
  .bind (.leaf (.symbol _)) fun _ => .bind (.commit declaredName) fun _ => declaratorRest room _

section Checked

variable (stage : Stage) (placement : Placement) (start : List Char)

def checked (decl : Declaration) : Script (Parser.checked stage placement start decl) :=
  .ofEq (Parser.checked.eq_def _ _ _ _) <|
    match decl.fault? stage placement with
    | some _ => .leaf (.failAt _ _)
    | none => .pure _

def declarationRest (type : QualifiedType) (name : String) :
    Script (Parser.declarationRest room stage placement start type name) :=
  .bind (declaratorRest room name) fun _ =>
    .bind (.many (nextDeclarator room) (takes_nextDeclarator room)) fun _ =>
      .bind (.commit (.leaf (.symbol _))) fun _ => checked _ _ _ _

def bareDeclaration (type : QualifiedType) :
    Script (Parser.bareDeclaration stage placement start type) :=
  .ite (.bind (.leaf (.symbol _)) fun _ => checked _ _ _ _) (.leaf (.mismatchAt _ _))

end Checked

def localDeclaration : Script (Parser.localDeclaration room) :=
  .bind (.leaf .here) fun _ => .bind (qualifiedType room) fun _ =>
    .bind (.lookingAt (.leaf (.symbol _))) fun _ => .ite (bareDeclaration _ _ _ _)
      (.bind declaredName fun _ => declarationRest room _ _ _ _ _)

def parameterType : Script parameterType :=
  .bind (.optional typeName) fun
    | some _ => .pure _
    | none => .leaf (.fail _)

def parameterSize : Script (Parser.parameterSize room) :=
  .bind (.optional (.leaf (.symbol _))) fun
    | none => .pure _
    | some _ => .bind (arraySize room) fun _ => .pure _

def parameter : Script (Parser.parameter room) :=
  .bind (.leaf .here) fun _ => .bind (.optional (.leaf (.keyword _))) fun _ =>
    .bind (.leaf .nextWord) fun word =>
      match word.filter foreignQualifiers.contains with
      | some _ => .leaf (.fail _)
      | none => .bind (.optional (.leaf (.wordWhere _))) fun _ => .ite (.leaf (.failAt _ _)) <|
        .bind precisionQualifier fun _ => .bind parameterType fun _ =>
          .bind (.optional declaredName) fun _ => .ite (.leaf (.failAt _ _))
            (.bind (parameterSize room) fun _ => .pure _)

def parameters : Script (Parser.parameters room) :=
  .bind (.optional emptyList) fun
    | some _ => .pure _
    | none => .bind (.sepBy1 _ (parameter room) (takes_parameter room)) fun _ =>
      .bind (.commit (.leaf (.symbol _))) fun _ => .pure _

end Declarations

/-! ## Statements -/

section Statements

variable (room : Nat) {b : Parser Statement}

def blockOf (s : Script b) (hb : Takes b) : Script (Parser.blockOf b) :=
  .bind (.leaf (.symbol _)) fun _ => .bind
    (.many (.bind (.lookingAt (.leaf (.symbol _))) fun _ => .ite (.leaf (.mismatch _)) (.commit s))
      (takes_blockPart hb))
    fun _ => .bind (.leaf (.symbol _)) fun _ => .pure _

def expressionStatement : Script (Parser.expressionStatement room) :=
  .bind (.optional (.leaf (.symbol _))) fun
    | some _ => .pure _
    | none => .bind (expression room) fun _ => .bind (.commit (.leaf (.symbol _))) fun _ => .pure _

def simpleStatement : Script (Parser.simpleStatement room) :=
  .bind (.optional (localDeclaration room)) fun
    | some _ => .pure _
    | none => expressionStatement room

def condition : Script (Parser.condition room) :=
  .bind (.commit (.leaf (.symbol _))) fun _ => .bind (.commit (expression room)) fun _ =>
    .bind (.commit (.leaf (.symbol _))) fun _ => .pure _

def expressionBefore (closing : String) : Script (Parser.expressionBefore room closing) :=
  .bind (.lookingAt (.leaf (.symbol _))) fun _ => .ite
    (.bind (.pure _) fun _ => .bind (.commit (.leaf (.symbol _))) fun _ => .pure _)
    (.bind (.bind (.commit (expression room)) fun _ => .pure _) fun _ =>
      .bind (.commit (.leaf (.symbol _))) fun _ => .pure _)

def selectionOf (s : Script b) : Script (Parser.selectionOf room b) :=
  .bind (.leaf (.keyword _)) fun _ => .bind (condition room) fun _ => .bind (.commit s) fun _ =>
    .bind (.optional (.leaf (.keyword _))) fun
      | none => .pure _
      | some _ => .bind (.commit s) fun _ => .pure _

def whileLoopOf (s : Script b) : Script (Parser.whileLoopOf room b) :=
  .bind (.leaf (.keyword _)) fun _ => .bind (condition room) fun _ => .bind (.commit s) fun _ =>
    .pure _

def doWhileOf (s : Script b) : Script (Parser.doWhileOf room b) :=
  .bind (.leaf (.keyword _)) fun _ => .bind (.commit s) fun _ =>
    .bind (.commit (.leaf (.keyword _))) fun _ => .bind (condition room) fun _ =>
      .bind (.commit (.leaf (.symbol _))) fun _ => .pure _

def forLoopOf (s : Script b) : Script (Parser.forLoopOf room b) :=
  .bind (.leaf (.keyword _)) fun _ => .bind (.commit (.leaf (.symbol _))) fun _ =>
    .bind (.commit (simpleStatement room)) fun _ => .bind (expressionBefore room _) fun _ =>
      .bind (expressionBefore room _) fun _ => .bind (.commit s) fun _ => .pure _

def jump (word : String) (stmt : Statement) : Script (Parser.jump word stmt) :=
  .bind (.leaf (.keyword _)) fun _ => .bind (.commit (.leaf (.symbol _))) fun _ => .pure _

def returnStatement : Script (Parser.returnStatement room) :=
  .bind (.leaf (.keyword _)) fun _ => .bind (expressionBefore room _) fun _ => .pure _

def statementOf (s : Script b) (hb : Takes b) : Script (Parser.statementOf room b) :=
  .ofEq (statementOf_eq room) <| .bind (.leaf .here) fun _ => .ite (.leaf (.fail _)) <|
    .bind (.lookingAt (.leaf (.symbol _))) fun _ =>
      .ite (.bind (blockOf s hb) fun _ => .pure _) <| .bind (.leaf .nextWord) fun _ =>
        .ite (selectionOf room s) <| .ite (whileLoopOf room s) <| .ite (doWhileOf room s) <|
        .ite (forLoopOf room s) <| .ite (jump _ _) <| .ite (jump _ _) <| .ite (jump _ _) <|
        .ite (returnStatement room) (.bind (simpleStatement room) fun _ => .pure _)

def statement : (room : Nat) → Script (Parser.statement room)
  | 0 => .leaf (.fail _)
  | room + 1 => statementOf room (statement room) (takes_statement room)

end Statements

end Script

end Parser

end ShaderMinifier
