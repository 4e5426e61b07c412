import ShaderMinifier.Statement.Parser

/-
  Reading top-level items, preprocessor lines among them. A conditional owns the items up to the
  lines that end its branches; one that ends no branch is reported where it stands, a conditional
  that is never closed is reported where it opens. The value of a line is trimmed of Unicode white
  space, the characters with the property White_Space.
-/

namespace ShaderMinifier

namespace WhiteSpace

/-- The first and the last code point of each run of characters with the property White_Space, for
`isMember`. -/
def ranges : List (Nat × Nat) :=
  [(0x9, 0xd), (0x20, 0x20), (0x85, 0x85), (0xa0, 0xa0), (0x1680, 0x1680), (0x2000, 0x200a),
   (0x2028, 0x2029), (0x202f, 0x202f), (0x205f, 0x205f), (0x3000, 0x3000)]

/-- Whether the character has the property White_Space. This is more than `Blank.isSpace`, which
only knows ASCII. -/
def isMember (c : Char) : Bool :=
  ranges.any fun range => range.1 ≤ c.toNat && c.toNat ≤ range.2

/-- The text without the white space (`isMember`) at its ends; inside it stays. -/
def trim (text : List Char) : List Char :=
  (((text.dropWhile isMember).reverse).dropWhile isMember).reverse

end WhiteSpace

namespace Directive

/-- The characters up to the end of the line, where a backslash right before a line feed keeps the
line going. They stay in `line` as they are. -/
def line : List Char → List Char
  | '\\' :: '\n' :: rest => '\\' :: '\n' :: line rest
  | c :: rest => if c = '\n' then [] else c :: line rest
  | [] => []

/-- The name of the directive at the head of the input, and what follows it. Spaces and tabs may
stand behind the `#`. -/
def nameAtHead? : List Char → Option (String × List Char)
  | '#' :: rest => Word.atHead? (rest.dropWhile fun c => c == ' ' || c == '\t')
  | _ => none

end Directive

namespace Parser

/-- The hash of a directive and its name, which must follow. Unlike `Directive.nameAtHead?` it fails
with `directiveName` where there is none. -/
def directiveName : Parser String := fun input =>
  match input with
  | '#' :: rest =>
    let rest := rest.dropWhile fun c => c == ' ' || c == '\t'
    match Word.atHead? rest with
    | some (name, rest) => .matched name rest
    | none => .failure ⟨rest, .expected .directiveName⟩
  | _ => .mismatch ⟨input, .unexpected⟩

/-- The rest of a directive's `line` without the white space at its ends. The parser goes on at the
next lexeme. -/
def directiveValue : Parser String := fun input =>
  let line := Directive.line input
  .matched (String.ofList (WhiteSpace.trim line)) (Blank.skip (input.drop line.length))

/-- The line that ends a branch, if one stands here. Takes nothing, so the rule for the conditional
can decide what to do with it. -/
def nextMarker : Parser (Option BranchMarker) := fun input =>
  .matched ((Directive.nameAtHead? input).bind fun head => BranchMarker.ofKeyword? head.1) input

/-- Takes a line that ends a branch, if it is the `expected` one, and gives the rest of the line.
Whatever stands behind `#else` and `#endif` is dropped by the callers. -/
def marker (expected : BranchMarker) : Parser String := do
  if (← nextMarker) = some expected then
    let _ ← directiveName
    directiveValue
  else mismatch .unexpected

/-- An `#elif` with its condition and its items. An empty condition fails with `noCondition` where
the line starts. -/
def elifBranch (items : Parser (List Item)) : Parser (String × List Item) := do
  let start ← here
  let condition ← marker .elif
  if condition.isEmpty then failAt start (.noCondition "elif")
  else return (condition, ← items)

/-- The line that closes a conditional after its last branch. Without one the conditional is
`unterminated` at its `opener`; another branch after an `#else` fails where it stands. -/
def closing (opener : List Char) (kind : ConditionalKind) : Parser Unit := do
  match ← nextMarker with
  | none => failAt opener (.unterminated kind)
  | some .elif => fail .elifAfterElse
  | some .otherwise => fail .secondElse
  | some .done =>
    let _ ← marker .done
    return ()

/-- What follows the first branch of a conditional: `elifBranch` as often as it matches, an `#else`
if there is one, and the `closing` line. -/
def branches (opener : List Char) (kind : ConditionalKind) (items : Parser (List Item)) :
    Parser Branches := do
  let elifs ← many (elifBranch items)
  let last ←
    match ← optional (marker .otherwise) with
    | some _ => Branches.otherwise <$> items
    | none => pure Branches.done
  closing opener kind
  return elifs.foldr (fun branch rest => .elif branch.1 branch.2 rest) last

/-- The default precision of a type. Behind the keyword `precision` nothing else can be meant, so
the rest must follow. -/
def precisionItem : Parser Item := do
  keyword "precision"
  match ← precisionQualifier with
  | none => fail (.expected .precision)
  | some level =>
    let type ← commit typeName
    commit (symbol ";")
    return .precision level type

/-- Variables that must not vary between shaders. A type in place of the names is a mismatch, so
`plainItem` can go on with `typedItem`. -/
def invariantItem : Parser Item := do
  keyword "invariant"
  let names ← sepBy1 (symbol ",") identifier
  commit (symbol ";")
  return .invariant names

/-- A function's parameters and its body, or a semicolon in its place. A result type with a
qualifier fails with `qualifiedReturn` at the start of the item. -/
def functionRest (room : Nat) (start : List Char) (type : QualifiedType) (name : String) :
    Parser Item := do
  match type.qualifier with
  | some qualifier => failAt start (.qualifiedReturn qualifier)
  | none =>
    let params ← commit (parameters room)
    match ← optional (symbol ";") with
    | some _ => return .prototype ⟨type, name, params⟩
    | none =>
      if ← lookingAt (symbol "\x7b") then return .function ⟨type, name, params⟩ (← block room)
      else fail (.expected .functionEnd)

/-- A declaration or a function, told apart by the bracket behind the name. `bareDeclaration` reads
a struct that is declared without variables. -/
def typedItem (room : Nat) (stage : Stage) : Parser Item := do
  let start ← here
  let type ← qualifiedType room
  if ← lookingAt (symbol ";") then
    return .declaration (← bareDeclaration stage .topLevel start type)
  else
    let name ← declaredName
    match ← optional (symbol "(") with
    | some _ => functionRest room start type name
    | none => return .declaration (← declarationRest room stage .topLevel start type name)

/-- An item that is no preprocessor line, chosen by its first word: `precisionItem`, `invariantItem`
or, also where the latter does not match, `typedItem`. -/
def plainItem (room : Nat) (stage : Stage) : Parser Item := do
  match ← nextWord with
  | some "precision" => precisionItem
  | some "invariant" =>
    match ← optional invariantItem with
    | some item => return item
    | none => typedItem room stage
  | _ => typedItem room stage

/-- A preprocessor line with all that belongs to it. A line that ends a branch is a mismatch, since
the `conditional` around it takes it; an unknown name fails. -/
def directiveItem (conditional : List Char → ConditionalKind → Parser Item) : Parser Item := do
  let start ← here
  let name ← directiveName
  if (BranchMarker.ofKeyword? name).isSome then mismatchAt start .unexpected
  else
    match ConditionalKind.ofKeyword? name with
    | some kind => conditional start kind
    | none =>
      if Directive.plainNames.contains name then return .directive ⟨name, ← directiveValue⟩
      else failAt start (.unknownDirective name)

/-- An item. The end of the input and a line that ends a branch are mismatches, at which `items`
stops; anything else that is no item is a failure. -/
def itemOf (room : Nat) (stage : Stage)
    (conditional : List Char → ConditionalKind → Parser Item) : Parser Item := do
  match (← here).head? with
  | none => mismatch .unexpected
  | some '#' => directiveItem conditional
  | some _ => commit (plainItem room stage)

/-- A conditional behind the name of its first line, with `room` levels of nesting left. Each
conditional inside costs one, and without room the failure is `tooDeep` at the `opener`. -/
def conditionalItem (stage : Stage) :
    (room : Nat) → List Char → ConditionalKind → Parser Item
  | 0, opener, _, input => failAt opener .tooDeep input
  | room + 1, opener, kind, input =>
    let items := many (itemOf room stage (conditionalItem stage room))
    let parser : Parser Item := do
      let condition ← directiveValue
      if condition.isEmpty then failAt opener (.noCondition kind.keyword)
      else
        let body ← items
        let rest ← branches opener kind items
        return .conditional kind condition body rest
    parser input

/-- Items up to the end of the input or to a line that ends a branch. The bodies of functions get
the same `room` as the conditionals. -/
def items (room : Nat) (stage : Stage) : Parser (List Item) :=
  many (itemOf room stage (conditionalItem stage room))

/-- A whole shader. `items` stops at a line that ends a branch, which no conditional owns here, so
it fails with `strayMarker`. -/
def shader (stage : Stage) : Parser Shader := do
  blank
  let items ← items maxNesting stage
  match ← nextMarker with
  | some marker => fail (.strayMarker marker)
  | none => return ⟨items⟩

end Parser

end ShaderMinifier
