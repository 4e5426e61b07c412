import ShaderMinifier.Proofs.Grammar.Compare
import ShaderMinifier.Proofs.Statement.Progress

/-
  Two runs of the grammar. Where alike inputs look alike to the parsers of lexemes, every rule below
  the items follows itself; with less room than the second run it does so too, if a run may give up
  because its nesting is too deep.
-/

namespace ShaderMinifier

namespace Comparison

open ShaderMinifier.Parser

variable {C : Comparison}

/-- The first run may have less room if it may give up for want of it, that is if `tooDeep` is
`Excused`. -/
def Rooms (C : Comparison) (room room' : Nat) : Prop :=
  room = room' ∨ room < room' ∧ C.Excused .tooDeep

theorem Rooms.pred {room room' : Nat} (h : C.Rooms (room + 1) (room' + 1)) :
    C.Rooms room room' := by
  rcases h with h | ⟨hlt, hdeep⟩
  · exact .inl (by omega)
  · exact .inr ⟨by omega, hdeep⟩

/-- A run without room gives up with `tooDeep`, which `Rooms` excuses or which the other run does
too. -/
theorem Rooms.answers_zero {α : Type} {room' : Nat} (h : C.Rooms 0 room') {p : Nat → Parser α}
    (hp : ∀ input, p 0 input = .failure ⟨input, .tooDeep⟩) (s t : List Char) :
    C.Answers (p 0 s) (p room' t) := by
  rcases h with rfl | ⟨-, hdeep⟩
  · rw [hp, hp]
    exact .failure _ _
  · rw [hp]
    exact .excused hdeep _

/-! ## Expressions -/

section Expressions

variable {a a' u u' : Parser Expr}

theorem Lexical.separator (hC : C.Lexical) {text : String} (h : text ≠ ".") :
    C.Twins (Parser.symbol text) (Parser.symbol text) :=
  ⟨hC.symbol h, takes_symbol _, takes_symbol _⟩

theorem follows_expressionOf (hC : C.Lexical) (ha : C.Twins a a') :
    C.Follows (expressionOf a) (expressionOf a') := by
  refine (Twins.commaList (hC.separator (by decide)) ha).bind fun items => ?_
  split
  · exact .pure _
  · exact .pure _

theorem follows_chainOf (hC : C.Lexical) (hu : C.Twins u u') :
    C.Follows (chainOf u) (chainOf u') := by
  refine hu.follows.bind fun _ => (Twins.many ?_).bind fun _ => .pure _
  exact ⟨(hC.symbolWhere rfl).bind fun _ => hu.follows.commit.bind fun _ => .pure _,
    takes_chainPart hu.left, takes_chainPart hu.right⟩

theorem follows_conditionalOf (hC : C.Lexical) (ha : C.Twins a a') (hu : C.Twins u u') :
    C.Follows (conditionalOf a u) (conditionalOf a' u') := by
  refine (follows_chainOf hC hu).bind fun _ => (hC.symbol (by decide)).optional.bind fun mark => ?_
  cases mark with
  | none => exact .pure _
  | some _ =>
    exact (follows_expressionOf hC ha).commit.bind fun _ =>
      (hC.symbol (by decide)).commit.bind fun _ => ha.follows.commit.bind fun _ => .pure _

theorem follows_assignmentOf (hC : C.Lexical) (ha : C.Twins a a') (hu : C.Twins u u') :
    C.Follows (assignmentOf a u) (assignmentOf a' u') := by
  refine (follows_conditionalOf hC ha hu).bind fun left => .here_bind fun _ _ _ =>
    (hC.symbolWhere rfl).optional.bind fun op => ?_
  cases op with
  | none => exact .pure _
  | some op =>
    dsimp only
    split
    · exact .failAt _ _ _
    · exact ha.follows.commit.bind fun _ => .pure _

theorem follows_emptyList (hC : C.Lexical) : C.Follows emptyList emptyList :=
  (hC.symbol (by decide)).orElse ((hC.keyword _).bind fun _ => hC.symbol (by decide))

theorem follows_argumentsOf (hC : C.Lexical) (ha : C.Twins a a') :
    C.Follows (argumentsOf a) (argumentsOf a') := by
  refine (follows_emptyList hC).optional.bind fun none? => ?_
  cases none? with
  | some _ => exact .pure _
  | none =>
    exact (Twins.sepBy1 (hC.separator (by decide)) ha).bind fun _ =>
      (hC.symbol (by decide)).bind fun _ => .pure _

theorem follows_callOf (hC : C.Lexical) (ha : C.Twins a a') :
    C.Follows (callOf a) (callOf a') := by
  refine hC.nextWord.bind fun word => ?_
  cases word with
  | none => exact .mismatch _
  | some callee =>
    dsimp only
    split
    · exact (hC.wordWhere _).bind fun _ => (hC.symbol (by decide)).bind fun _ =>
        (follows_argumentsOf hC ha).commit.bind fun _ => .pure _
    · exact .mismatch _

theorem follows_variableName (hC : C.Lexical) : C.Follows variableName variableName := by
  refine hC.nextWord.bind fun word => ?_
  cases word with
  | none => exact .mismatch _
  | some name =>
    dsimp only
    split
    · exact .mismatch _
    · exact (hC.wordWhere _).bind fun _ => .pure _

theorem follows_parenthesizedOf (hC : C.Lexical) (ha : C.Twins a a') :
    C.Follows (parenthesizedOf a) (parenthesizedOf a') :=
  (hC.symbol (by decide)).bind fun _ => (follows_expressionOf hC ha).commit.bind fun _ =>
    (hC.symbol (by decide)).commit.bind fun _ => .pure _

theorem follows_boolLiteral (hC : C.Lexical) : C.Follows boolLiteral boolLiteral :=
  ((hC.keyword _).bind fun _ => .pure _).orElse ((hC.keyword _).bind fun _ => .pure _)

theorem follows_primaryOf (hC : C.Lexical) (ha : C.Twins a a') :
    C.Follows (primaryOf a) (primaryOf a') :=
  hC.number <| .orElse ((follows_boolLiteral hC).bind fun _ => .pure _) <|
    .orElse (follows_parenthesizedOf hC ha) <| .orElse (follows_callOf hC ha) <|
      follows_variableName hC

theorem follows_suffixOf (hC : C.Lexical) (ha : C.Twins a a') :
    C.Follows (suffixOf a) (suffixOf a') := by
  have hfield : ∀ {s : List Char}, Word.atHead? s = none →
      (do let name ← commit anyWord; return Suffix.field name) s =
        .failure ⟨s, .unexpected⟩ := by
    intro s h
    refine bind_of_failure ?_
    simp only [commit, anyWord, wordWhere, h]
  refine hC.symbolWhere_some_bind (fun token => ?_) fun s t hs ht => ?_
  · split
    · exact (follows_expressionOf hC ha).commit.bind fun _ =>
        (hC.symbol (by decide)).commit.bind fun _ => .pure _
    · exact (hC.wordWhere _).commit.bind fun _ => .pure _
    · split
      · exact .mismatch _
      · refine (hC.lookingAt_symbolWhere rfl).bind fun again => ?_
        split
        · exact .fail _
        · exact .pure _
  · show C.Answers ((do let name ← commit anyWord; return Suffix.field name) s)
      ((do let name ← commit anyWord; return Suffix.field name) t)
    rw [hfield hs, hfield ht]
    exact .failure _ _

theorem follows_suffixedOf (hC : C.Lexical) (ha : C.Twins a a') :
    C.Follows (suffixedOf a) (suffixedOf a') :=
  (follows_primaryOf hC ha).bind fun _ =>
    (Twins.many ⟨follows_suffixOf hC ha, takes_suffixOf ha.left, takes_suffixOf ha.right⟩).bind
      fun _ => .pure _

theorem follows_unaryOf (hC : C.Lexical) (ha : C.Twins a a') (hu : C.Twins u u') :
    C.Follows (unaryOf a u) (unaryOf a' u') := by
  refine (hC.symbolWhere rfl).optional.bind fun op => ?_
  cases op with
  | none => exact follows_suffixedOf hC ha
  | some op => exact hu.follows.commit.bind fun _ => .pure _

/-- The knot: `assignment` and `unary` of a level follow if those of the level below do. By
induction on the room. -/
theorem twins_operands (hC : C.Lexical) {room room' : Nat} (h : C.Rooms room room') :
    C.Twins (assignment room) (assignment room') ∧ C.Twins (unary room) (unary room') := by
  suffices hboth : C.Follows (assignment room) (assignment room') ∧
      C.Follows (unary room) (unary room') from
    ⟨⟨hboth.1, takes_assignment _, takes_assignment _⟩, ⟨hboth.2, takes_unary _, takes_unary _⟩⟩
  induction room generalizing room' with
  | zero =>
    exact ⟨fun s t _ => h.answers_zero (p := assignment) (fun _ => rfl) s t,
      fun s t _ => h.answers_zero (p := unary) (fun _ => rfl) s t⟩
  | succ room ih =>
    cases room' with
    | zero => rcases h with h | h <;> omega
    | succ room' =>
      have hboth := ih h.pred
      have ha : C.Twins (assignment room) (assignment room') :=
        ⟨hboth.1, takes_assignment _, takes_assignment _⟩
      have hu : C.Twins (unary room) (unary room') := ⟨hboth.2, takes_unary _, takes_unary _⟩
      exact ⟨follows_assignmentOf hC ha hu, follows_unaryOf hC ha hu⟩

theorem follows_assignment (hC : C.Lexical) {room room' : Nat} (h : C.Rooms room room') :
    C.Follows (assignment room) (assignment room') :=
  (twins_operands hC h).1.follows

theorem follows_expression (hC : C.Lexical) {room room' : Nat} (h : C.Rooms room room') :
    C.Follows (expression room) (expression room') :=
  follows_expressionOf hC (twins_operands hC h).1

theorem follows_conditional (hC : C.Lexical) {room room' : Nat} (h : C.Rooms room room') :
    C.Follows (conditional room) (conditional room') :=
  follows_conditionalOf hC (twins_operands hC h).1 (twins_operands hC h).2

end Expressions

/-! ## Declarations -/

section Declarations

variable {room room' : Nat}

theorem follows_typeQualifier (hC : C.Lexical) : C.Follows typeQualifier typeQualifier :=
  Follows.optional <| (hC.wordWhere _).orElse <|
    (hC.keyword _).bind fun _ => (hC.keyword _).bind fun _ => .pure _

theorem follows_precisionQualifier (hC : C.Lexical) :
    C.Follows precisionQualifier precisionQualifier := (hC.wordWhere _).optional

theorem follows_arraySize (hC : C.Lexical) (h : C.Rooms room room') :
    C.Follows (arraySize room) (arraySize room') :=
  (follows_conditional hC h).commit.bind fun _ =>
    (hC.symbol (by decide)).commit.bind fun _ => .pure _

theorem follows_memberDeclarator (hC : C.Lexical) (h : C.Rooms room room') :
    C.Follows (memberDeclarator room) (memberDeclarator room') := by
  refine hC.declaredName.bind fun _ => .here_bind fun _ _ _ =>
    (hC.symbol (by decide)).optional.bind fun bracket => ?_
  cases bracket with
  | none => exact .pure _
  | some _ =>
    refine (hC.lookingAt_symbol (by decide)).bind fun closes => ?_
    split
    · exact .failAt _ _ _
    · exact (follows_arraySize hC h).bind fun _ => .pure _

theorem follows_member (hC : C.Lexical) (h : C.Rooms room room') :
    C.Follows (member room) (member room') := by
  have hname : C.Twins (memberDeclarator room) (memberDeclarator room') :=
    ⟨follows_memberDeclarator hC h, takes_memberDeclarator _, takes_memberDeclarator _⟩
  refine (follows_precisionQualifier hC).bind fun _ =>
    (hC.lookingAt_keyword _).bind fun nested => ?_
  split
  · exact .fail _
  · exact (hC.wordWhere _).bind fun _ =>
      (Twins.sepBy1 (hC.separator (by decide)) hname).commit.bind fun _ =>
        (hC.symbol (by decide)).commit.bind fun _ => .pure _

theorem follows_structName (hC : C.Lexical) : C.Follows structName structName := by
  refine (hC.lookingAt_symbol (by decide)).bind fun opens => ?_
  split
  · exact .pure _
  · exact hC.declaredName.commit.bind fun _ => .pure _

theorem follows_structType (hC : C.Lexical) (h : C.Rooms room room') :
    C.Follows (structType room) (structType room') := by
  have hmember : C.Twins (member room) (member room') :=
    ⟨follows_member hC h, takes_member _, takes_member _⟩
  exact (hC.keyword _).bind fun _ => (follows_structName hC).bind fun _ =>
    (hC.symbol (by decide)).commit.bind fun _ => hmember.many1.commit.bind fun _ =>
      (hC.symbol (by decide)).commit.bind fun _ => .pure _

theorem follows_typeSpecifier (hC : C.Lexical) (h : C.Rooms room room') :
    C.Follows (typeSpecifier room) (typeSpecifier room') :=
  ((follows_structType hC h).bind fun _ => .pure _).orElse
    ((hC.wordWhere _).bind fun _ => .pure _)

theorem follows_qualifiedType (hC : C.Lexical) (h : C.Rooms room room') :
    C.Follows (qualifiedType room) (qualifiedType room') := by
  refine (follows_typeQualifier hC).bind fun qualifier =>
    (follows_precisionQualifier hC).bind fun precision => ?_
  dsimp only
  split
  · exact (follows_typeSpecifier hC h).commit.bind fun _ => .pure _
  · exact (follows_typeSpecifier hC h).bind fun _ => .pure _

theorem follows_declaratorArray (hC : C.Lexical) (h : C.Rooms room room') :
    C.Follows (declaratorArray room) (declaratorArray room') := by
  refine (hC.symbol (by decide)).optional.bind fun bracket => ?_
  cases bracket with
  | none => exact .pure _
  | some _ =>
    refine (hC.symbol (by decide)).optional.bind fun closes => ?_
    cases closes with
    | none => exact (follows_arraySize hC h).bind fun _ => .pure _
    | some _ => exact .pure _

theorem follows_initializer (hC : C.Lexical) (h : C.Rooms room room') :
    C.Follows (initializer room) (initializer room') := by
  refine (hC.symbol (by decide)).optional.bind fun mark => ?_
  cases mark with
  | none => exact .pure _
  | some _ => exact (follows_assignment hC h).commit.bind fun _ => .pure _

theorem follows_declaratorRest (hC : C.Lexical) (h : C.Rooms room room') (name : String) :
    C.Follows (declaratorRest room name) (declaratorRest room' name) :=
  (follows_declaratorArray hC h).bind fun _ => (follows_initializer hC h).bind fun _ => .pure _

theorem twins_nextDeclarator (hC : C.Lexical) (h : C.Rooms room room') :
    C.Twins (nextDeclarator room) (nextDeclarator room') :=
  ⟨(hC.symbol (by decide)).bind fun _ => hC.declaredName.commit.bind fun _ =>
    follows_declaratorRest hC h _, takes_nextDeclarator _, takes_nextDeclarator _⟩

theorem follows_checked (stage : Stage) (placement : Placement) (s t : List Char)
    (decl : Declaration) :
    C.Follows (checked stage placement s decl) (checked stage placement t decl) := by
  unfold checked
  split
  · exact .failAt _ _ _
  · exact .pure _

theorem follows_declarationRest (hC : C.Lexical) (h : C.Rooms room room') (stage : Stage)
    (placement : Placement) (s t : List Char) (type : QualifiedType) (name : String) :
    C.Follows (declarationRest room stage placement s type name)
      (declarationRest room' stage placement t type name) :=
  (follows_declaratorRest hC h name).bind fun _ => (twins_nextDeclarator hC h).many.bind fun _ =>
    (hC.symbol (by decide)).commit.bind fun _ => follows_checked _ _ _ _ _

theorem follows_bareDeclaration (hC : C.Lexical) (stage : Stage) (placement : Placement)
    (s t : List Char) (type : QualifiedType) :
    C.Follows (bareDeclaration stage placement s type)
      (bareDeclaration stage placement t type) := by
  unfold bareDeclaration
  split
  · exact (hC.symbol (by decide)).bind fun _ => follows_checked _ _ _ _ _
  · exact .mismatchAt _ _ _

theorem follows_localDeclaration (hC : C.Lexical) (h : C.Rooms room room') :
    C.Follows (localDeclaration room) (localDeclaration room') := by
  refine .here_bind fun _ _ _ => (follows_qualifiedType hC h).bind fun _ =>
    (hC.lookingAt_symbol (by decide)).bind fun bare => ?_
  split
  · exact follows_bareDeclaration hC _ _ _ _ _
  · exact hC.declaredName.bind fun _ => follows_declarationRest hC h _ _ _ _ _ _

end Declarations

/-! ## Statements -/

section Statements

variable {room room' : Nat} {p p' : Parser Statement}

theorem follows_blockOf (hC : C.Lexical) (hp : C.Twins p p') :
    C.Follows (blockOf p) (blockOf p') := by
  refine (hC.symbol (by decide)).bind fun _ => (Twins.many ⟨?_, takes_blockPart hp.left,
    takes_blockPart hp.right⟩).bind fun _ => (hC.symbol (by decide)).bind fun _ => .pure _
  refine (hC.lookingAt_symbol (by decide)).bind fun closes => ?_
  split
  · exact .mismatch _
  · exact hp.follows.commit

theorem follows_expressionStatement (hC : C.Lexical) (h : C.Rooms room room') :
    C.Follows (expressionStatement room) (expressionStatement room') := by
  refine (hC.symbol (by decide)).optional.bind fun empty => ?_
  cases empty with
  | some _ => exact .pure _
  | none =>
    exact (follows_expression hC h).bind fun _ =>
      (hC.symbol (by decide)).commit.bind fun _ => .pure _

theorem follows_simpleStatement (hC : C.Lexical) (h : C.Rooms room room') :
    C.Follows (simpleStatement room) (simpleStatement room') := by
  refine (follows_localDeclaration hC h).optional.bind fun decl => ?_
  cases decl with
  | some _ => exact .pure _
  | none => exact follows_expressionStatement hC h

theorem follows_condition (hC : C.Lexical) (h : C.Rooms room room') :
    C.Follows (condition room) (condition room') :=
  (hC.symbol (by decide)).commit.bind fun _ => (follows_expression hC h).commit.bind fun _ =>
    (hC.symbol (by decide)).commit.bind fun _ => .pure _

theorem follows_expressionBefore (hC : C.Lexical) (h : C.Rooms room room') {closing : String}
    (hpoint : closing ≠ ".") :
    C.Follows (expressionBefore room closing) (expressionBefore room' closing) := by
  have hclose : ∀ value : Option Expr, C.Follows (do commit (symbol closing); return value)
      (do commit (symbol closing); return value) :=
    fun _ => (hC.symbol hpoint).commit.bind fun _ => .pure _
  refine (hC.lookingAt_symbol hpoint).bind fun closes => ?_
  dsimp only
  split
  · exact (Follows.pure _).bind hclose
  · exact ((follows_expression hC h).commit.bind fun _ => .pure _).bind hclose

theorem follows_selectionOf (hC : C.Lexical) (h : C.Rooms room room') (hp : C.Follows p p') :
    C.Follows (selectionOf room p) (selectionOf room' p') := by
  refine (hC.keyword _).bind fun _ => (follows_condition hC h).bind fun _ =>
    hp.commit.bind fun _ => (hC.keyword _).optional.bind fun other => ?_
  cases other with
  | none => exact .pure _
  | some _ => exact hp.commit.bind fun _ => .pure _

theorem follows_whileLoopOf (hC : C.Lexical) (h : C.Rooms room room') (hp : C.Follows p p') :
    C.Follows (whileLoopOf room p) (whileLoopOf room' p') :=
  (hC.keyword _).bind fun _ => (follows_condition hC h).bind fun _ =>
    hp.commit.bind fun _ => .pure _

theorem follows_doWhileOf (hC : C.Lexical) (h : C.Rooms room room') (hp : C.Follows p p') :
    C.Follows (doWhileOf room p) (doWhileOf room' p') :=
  (hC.keyword _).bind fun _ => hp.commit.bind fun _ => (hC.keyword _).commit.bind fun _ =>
    (follows_condition hC h).bind fun _ => (hC.symbol (by decide)).commit.bind fun _ => .pure _

theorem follows_forLoopOf (hC : C.Lexical) (h : C.Rooms room room') (hp : C.Follows p p') :
    C.Follows (forLoopOf room p) (forLoopOf room' p') :=
  (hC.keyword _).bind fun _ => (hC.symbol (by decide)).commit.bind fun _ =>
    (follows_simpleStatement hC h).commit.bind fun _ =>
      (follows_expressionBefore hC h (by decide)).bind fun _ =>
        (follows_expressionBefore hC h (by decide)).bind fun _ =>
          hp.commit.bind fun _ => .pure _

theorem follows_jump (hC : C.Lexical) (word : String) (stmt : Statement) :
    C.Follows (jump word stmt) (jump word stmt) :=
  (hC.keyword _).bind fun _ => (hC.symbol (by decide)).commit.bind fun _ => .pure _

theorem follows_returnStatement (hC : C.Lexical) (h : C.Rooms room room') :
    C.Follows (returnStatement room) (returnStatement room') :=
  (hC.keyword _).bind fun _ => (follows_expressionBefore hC h (by decide)).bind fun _ => .pure _

theorem follows_statementOf (hC : C.Lexical) (h : C.Rooms room room') (hp : C.Twins p p') :
    C.Follows (statementOf room p) (statementOf room' p') := by
  refine .here_bind fun s t hst => ?_
  simp only [hC.hash hst]
  split
  · exact .fail _
  · refine (hC.lookingAt_symbol (by decide)).bind fun opens => ?_
    split
    · exact (follows_blockOf hC hp).bind fun _ => .pure _
    · refine hC.nextWord.bind fun word => ?_
      split
      · exact follows_selectionOf hC h hp.follows
      · exact follows_whileLoopOf hC h hp.follows
      · exact follows_doWhileOf hC h hp.follows
      · exact follows_forLoopOf hC h hp.follows
      · exact follows_jump hC _ _
      · exact follows_jump hC _ _
      · exact follows_jump hC _ _
      · exact follows_returnStatement hC h
      · exact (follows_simpleStatement hC h).bind fun _ => .pure _

theorem follows_statement (hC : C.Lexical) (h : C.Rooms room room') :
    C.Follows (statement room) (statement room') := by
  induction room generalizing room' with
  | zero => exact fun s t _ => h.answers_zero (p := statement) (fun _ => rfl) s t
  | succ room ih =>
    cases room' with
    | zero => rcases h with h | h <;> omega
    | succ room' =>
      exact follows_statementOf hC h.pred ⟨ih h.pred, takes_statement _, takes_statement _⟩

end Statements

end Comparison

end ShaderMinifier
