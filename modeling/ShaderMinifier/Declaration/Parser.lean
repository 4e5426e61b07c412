import ShaderMinifier.Expr.Parser

/-
  Reading types, declarations and function signatures. The grammar does not depend on where a
  declaration stands; `Declaration.fault?` and the checks in `parameter` say what is not allowed
  there, and their failures are reported at the start of the declaration.
-/

namespace ShaderMinifier

/-- What is wrong with a declaration at its place, if anything. A variable may not be `void`, a
local one may have no qualifier but `const`, and attributes belong to the vertex stage and have no
initial value, no array and no struct. -/
def Declaration.fault? (stage : Stage) (placement : Placement) (decl : Declaration) :
    Option Cause :=
  if decl.type.specifier.isVoid && !decl.declarators.isEmpty then some .voidVariable
  else
    match placement, decl.type.qualifier with
    | _, none => none
    | _, some .const => none
    | .inBody, some qualifier => some (.qualifiedLocal qualifier)
    | .topLevel, some .vertexAttribute =>
      if stage ≠ .vertex then some .attributeStage
      else if decl.declarators.any (·.initializer.isSome) then some .attributeInitializer
      else if decl.declarators.any (·.array.isSome) then some .attributeArray
      else if decl.type.specifier.isStruct then some .attributeStruct
      else none
    | .topLevel, some _ => none

namespace Parser

/-- The qualifier of a type, if there is one. The two words of `invariantVarying` are tried after
the single words of `TypeQualifier.ofKeyword?`. -/
def typeQualifier : Parser (Option TypeQualifier) :=
  optional <| orElse (wordWhere TypeQualifier.ofKeyword?) do
    keyword "invariant"
    keyword "varying"
    return .invariantVarying

/-- The precision of a type, if there is one: a word of `Precision.ofKeyword?`. -/
def precisionQualifier : Parser (Option Precision) := optional (wordWhere Precision.ofKeyword?)

/-- The direction of a parameter, if there is one: a word of `Direction.ofKeyword?`. -/
def direction : Parser (Option Direction) := optional (wordWhere Direction.ofKeyword?)

/-- The size of an array behind its opening bracket, and the closing one. The size is a
`conditional` expression: no comma and no assignment. -/
def arraySize (room : Nat) : Parser Expr := do
  let size ← commit (conditional room)
  commit (symbol "]")
  return size

/-- A name in a struct with the size of its array. Empty brackets fail with `unsizedMember` at the
opening one, in contrast to `declaratorArray`. -/
def memberDeclarator (room : Nat) : Parser MemberDeclarator := do
  let name ← declaredName
  let place ← here
  match ← optional (symbol "[") with
  | none => return ⟨name, none⟩
  | some _ =>
    if ← lookingAt (symbol "]") then failAt place .unsizedMember
    else return ⟨name, some (← arraySize room)⟩

/-- The members of a struct that are declared together, a `Member`. A struct in place of the type's
name fails with `nestedStruct`. -/
def member (room : Nat) : Parser Member := do
  let precision ← precisionQualifier
  if ← lookingAt (keyword "struct") then fail .nestedStruct
  else
    let type ← typeName
    let declarators ← commit (sepBy1 (symbol ",") (memberDeclarator room))
    commit (symbol ";")
    return ⟨precision, type, declarators⟩

/-- The name of a struct, if it has one. Without a brace behind `struct`, a name must follow. -/
def structName : Parser (Option String) := do
  if ← lookingAt (symbol "\x7b") then return none
  else return some (← commit declaredName)

/-- A struct type from the keyword `struct` on, with one `member` or more between its braces. -/
def structType (room : Nat) : Parser StructType := do
  keyword "struct"
  let name ← structName
  commit (symbol "\x7b")
  let members ← commit (many1 (member room))
  commit (symbol "\x7d")
  return ⟨name, members⟩

/-- A type without qualifiers: a `structType`, or else the name of a type. -/
def typeSpecifier (room : Nat) : Parser TypeSpecifier :=
  orElse (do return .struct (← structType room)) (do return .named (← typeName))

/-- A type with its qualifiers. Behind a qualifier or a precision a `typeSpecifier` must follow;
without them a mismatch leaves room for an expression. -/
def qualifiedType (room : Nat) : Parser QualifiedType := do
  let qualifier ← typeQualifier
  let precision ← precisionQualifier
  let specifier ←
    if qualifier.isSome || precision.isSome then commit (typeSpecifier room)
    else typeSpecifier room
  return ⟨qualifier, precision, specifier⟩

/-- The brackets behind a declared name, if there are any. Empty ones are `ArraySize.unsized`. -/
def declaratorArray (room : Nat) : Parser (Option ArraySize) := do
  match ← optional (symbol "[") with
  | none => return none
  | some _ =>
    match ← optional (symbol "]") with
    | some _ => return some .unsized
    | none => return some (.sized (← arraySize room))

/-- The initial value of a declared name, if there is one: an `assignment` behind the sign, so the
comma behind it starts the next declarator. -/
def initializer (room : Nat) : Parser (Option Expr) := do
  match ← optional (symbol "=") with
  | none => return none
  | some _ => return some (← commit (assignment room))

/-- What follows a declared name that was read already: `declaratorArray`, then `initializer`. -/
def declaratorRest (room : Nat) (name : String) : Parser Declarator := do
  let array ← declaratorArray room
  let value ← initializer room
  return ⟨name, array, value⟩

/-- A comma and one more declared variable. Behind the comma a `declaredName` must follow. -/
def nextDeclarator (room : Nat) : Parser Declarator := do
  symbol ","
  let name ← commit declaredName
  declaratorRest room name

/-- The declaration, unless `Declaration.fault?` has something against it at its place. The failure
is reported at `start`, where the declaration starts. -/
def checked (stage : Stage) (placement : Placement) (start : List Char) (decl : Declaration) :
    Parser Declaration :=
  match decl.fault? stage placement with
  | some cause => failAt start cause
  | none => return decl

/-- What follows the type and the first name of a declaration, the semicolon included. Only then is
the whole of it `checked`. -/
def declarationRest (room : Nat) (stage : Stage) (placement : Placement) (start : List Char)
    (type : QualifiedType) (name : String) : Parser Declaration := do
  let first ← declaratorRest room name
  let others ← many (nextDeclarator room)
  commit (symbol ";")
  checked stage placement start ⟨type, first :: others⟩

/-- A struct declared without variables. Any other type without variables is a mismatch, not a
failure: `x;` can still be an expression. -/
def bareDeclaration (stage : Stage) (placement : Placement) (start : List Char)
    (type : QualifiedType) : Parser Declaration := do
  if type.specifier.isStruct then
    symbol ";"
    checked stage placement start ⟨type, []⟩
  else mismatchAt start (.expected .declaration)

/-- A declaration in a function's body. What `Declaration.fault?` allows there does not depend on
the stage, so it is given the vertex stage. -/
def localDeclaration (room : Nat) : Parser Declaration := do
  let start ← here
  let type ← qualifiedType room
  if ← lookingAt (symbol ";") then bareDeclaration .vertex .inBody start type
  else
    let name ← declaredName
    declarationRest room .vertex .inBody start type name

/-- The qualifiers that no parameter may have where its direction should stand; `const` is one of
them the second time. -/
def foreignQualifiers : List String := ["attribute", "varying", "uniform", "invariant", "const"]

/-- The type of a parameter. It must be there: a missing one fails, since a parameter is nothing
else (`Cause.expected`). -/
def parameterType : Parser String := do
  match ← optional typeName with
  | some type => return type
  | none => fail (.expected .parameterType)

/-- The name of a parameter, if it has one. A reserved word in its place fails in `declaredName`. -/
def parameterName : Parser (Option String) := optional declaredName

/-- The size of a parameter's array, if it is one. The size may not be left out, as `arraySize`
reads it. -/
def parameterSize (room : Nat) : Parser (Option Expr) := do
  match ← optional (symbol "[") with
  | none => return none
  | some _ => return some (← arraySize room)

/-- A parameter of a function. A foreign qualifier, `const` on a result and the type `void` fail,
the latter two at the start of the parameter. -/
def parameter (room : Nat) : Parser Parameter := do
  let start ← here
  let isConst := (← optional (keyword "const")).isSome
  match (← nextWord).filter foreignQualifiers.contains with
  | some word => fail (.qualifiedParameter word)
  | none =>
    let direction ← direction
    if isConst && (direction = some .output || direction = some .both) then
      failAt start .constParameter
    else
      let precision ← precisionQualifier
      let type ← parameterType
      let name ← parameterName
      if type = "void" then failAt start .voidParameter
      else
        let size ← parameterSize room
        return ⟨isConst, direction, precision, type, name, size⟩

/-- Parameters up to the closing bracket, or the `emptyList`. Behind a comma `parameter` fails where
there is none. -/
def parameters (room : Nat) : Parser (List Parameter) := do
  match ← optional emptyList with
  | some _ => return []
  | none =>
    let params ← sepBy1 (symbol ",") (parameter room)
    commit (symbol ")")
    return params

end Parser

end ShaderMinifier
