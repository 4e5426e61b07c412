import ShaderMinifier.Item.Basic
import ShaderMinifier.Statement.Printer

/-
  Writing top-level items and whole shaders.
-/

namespace ShaderMinifier

/-- The line of a directive. Without a value it is the name alone, so that no blank stands at its
end (`Piece.line`). -/
def Directive.text (line : Directive) : String :=
  if line.value.isEmpty then "#" ++ line.name else "#" ++ line.name ++ " " ++ line.value

/-- The first line of a conditional: `keyword` and condition behind the `#`. -/
def ConditionalKind.text (kind : ConditionalKind) (condition : String) : String :=
  "#" ++ kind.keyword ++ " " ++ condition

namespace Item

mutual

/-- The pieces of an item. Preprocessor lines are `Piece.line`, which `Pen.write` puts on lines of
their own. -/
def pieces : Item → List Piece
  | directive line => [.line line.text]
  | conditional kind condition body rest =>
    .line (kind.text condition) :: listPieces body ++ branchPieces rest
  | precision level type => [.token "precision", .token level.keyword, .token type, .token ";"]
  | invariant names =>
    .token "invariant" :: Piece.commaSeparated (names.map fun name => [.token name]) ++
      [.token ";"]
  | declaration decl => decl.pieces
  | prototype signature => signature.pieces ++ [.token ";"]
  | function signature body => signature.pieces ++ (Statement.block body).pieces

/-- The `pieces` of items in a row. Nothing stands between items but what `Pen.gap` asks for. -/
def listPieces : List Item → List Piece
  | [] => []
  | item :: items => pieces item ++ listPieces items

/-- The pieces of what follows a branch of a conditional, up to and including its `#endif` line. -/
def branchPieces : Branches → List Piece
  | .done => [.line "#endif"]
  | .otherwise body => .line "#else" :: listPieces body ++ [.line "#endif"]
  | .elif condition body rest =>
    .line ("#elif " ++ condition) :: listPieces body ++ branchPieces rest

end

end Item

namespace Shader

/-- The pieces of a shader, those of its items in a row (`Item.listPieces`). -/
def pieces (shader : Shader) : List Piece := Item.listPieces shader.items

/-- The canonical text of a shader: its `pieces` in the `layout` that adds no more blanks than the
lexemes need. -/
def emit (shader : Shader) : String := layout shader.pieces

end Shader

end ShaderMinifier
