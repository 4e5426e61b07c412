import ShaderMinifier.Item.Parser
import ShaderMinifier.Item.Printer

/-
  Reading a text from any of the grammar's entry points, and writing the tree back. Fragments of
  a shader are read as if inside a vertex shader.
-/

namespace ShaderMinifier

/-- An entry point of the grammar: a shader of a stage, an expression (`condition`), or a
statement. -/
inductive StartRule where
  | shader (stage : Stage)
  | condition
  | statement
deriving DecidableEq

namespace StartRule

def all : List StartRule := [.shader .vertex, .shader .fragment, .condition, .statement]

/-- The rule's name, which for shaders is that of the stage. `ofName?` goes the other way. -/
def name : StartRule → String
  | shader stage => stage.name
  | condition => "condition"
  | statement => "statement"

/-- The rule of this `name`, which may have the ending `_start`. -/
def ofName? (text : String) : Option StartRule :=
  all.find? fun rule => text == rule.name || text == rule.name ++ "_start"

/-- The stage whose rules apply. Fragments of a shader are read as in the vertex stage; in a body
`Declaration.fault?` does not look at it. -/
def stage : StartRule → Stage
  | shader stage => stage
  | condition | statement => .vertex

end StartRule

/-- What a text is read as, one constructor for each kind of `StartRule`. -/
inductive Tree where
  | shader (value : Shader)
  | statement (value : Statement)
  | expression (value : Expr)
deriving DecidableEq

/-- Reads a whole shader with `Parser.shader`; an error has the place where the reading went
wrong. -/
def Shader.parse (source : String) (stage : Stage) :
    Except SyntaxError Shader :=
  (Parser.shader stage).run source

/-- Reads an expression, commas included, with `Parser.maxNesting` levels of nesting. -/
def Expr.parse (source : String) : Except SyntaxError Expr :=
  Parser.run (do Parser.blank; Parser.expression Parser.maxNesting) source

/-- Reads a statement with `Parser.maxNesting` levels of nesting. -/
def Statement.parse (source : String) : Except SyntaxError Statement :=
  Parser.run (do Parser.blank; Parser.statement Parser.maxNesting) source

namespace Tree

/-- Reads a text from an entry point. What is read is one of `Shader.parse`, `Expr.parse` and
`Statement.parse`. -/
def parse (source : String) : StartRule → Except SyntaxError Tree
  | .shader stage => .shader <$> Shader.parse source stage
  | .condition => .expression <$> Expr.parse source
  | .statement => .statement <$> Statement.parse source

/-- The pieces of a tree, those of the shader, statement or expression that it is; `emit` lays them
out. -/
def pieces : Tree → List Piece
  | shader value => value.pieces
  | statement value => value.pieces
  | expression value => value.pieces

/-- The canonical text of a tree, the `layout` of its `pieces`. -/
def emit (tree : Tree) : String := layout tree.pieces

end Tree

end ShaderMinifier
