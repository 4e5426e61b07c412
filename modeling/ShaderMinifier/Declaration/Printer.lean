import ShaderMinifier.Declaration.Basic
import ShaderMinifier.Expr.Printer

/-
  Writing types, declarations and function signatures.
-/

namespace ShaderMinifier

/-- The size of an array in its brackets. It is written with `piecesAt .conditional`, which brackets
commas and assignments, as `Parser.arraySize` reads it. -/
def Expr.sizePieces (size : Expr) : List Piece :=
  .token "[" :: size.piecesAt .conditional ++ [.token "]"]

/-- A qualifier, a precision or a name that may be missing: one `Piece.token`, or nothing. -/
def Piece.ofOption (word : Option String) : List Piece := word.toList.map .token

/-- The `sizePieces` of an array's size, or nothing where there is no array. -/
def Expr.optionalSizePieces (size : Option Expr) : List Piece :=
  (size.map Expr.sizePieces).getD []

namespace MemberDeclarator

def pieces (d : MemberDeclarator) : List Piece :=
  .token d.name :: Expr.optionalSizePieces d.size

end MemberDeclarator

namespace Member

def pieces (m : Member) : List Piece :=
  Piece.ofOption (m.precision.map Precision.keyword) ++ .token m.type ::
    Piece.commaSeparated (m.declarators.map MemberDeclarator.pieces) ++ [.token ";"]

end Member

namespace StructType

def pieces (s : StructType) : List Piece :=
  .token "struct" :: Piece.ofOption s.name ++ .token "\x7b" ::
    (s.members.flatMap Member.pieces ++ [.token "\x7d"])

end StructType

namespace TypeSpecifier

def pieces : TypeSpecifier → List Piece
  | named name => [.token name]
  | struct spec => spec.pieces

end TypeSpecifier

namespace QualifiedType

def pieces (t : QualifiedType) : List Piece :=
  Piece.ofOption (t.qualifier.map TypeQualifier.text) ++
    Piece.ofOption (t.precision.map Precision.keyword) ++ t.specifier.pieces

end QualifiedType

namespace ArraySize

def pieces : ArraySize → List Piece
  | unsized => [.token "[", .token "]"]
  | sized size => size.sizePieces

end ArraySize

namespace Declarator

/-- The initial value behind its sign, with `piecesAt .assignment`, so a comma in it is in
brackets. -/
def valuePieces (value : Expr) : List Piece := .token "=" :: value.piecesAt .assignment

def pieces (d : Declarator) : List Piece :=
  .token d.name :: (d.array.map ArraySize.pieces).getD [] ++
    (d.initializer.map valuePieces).getD []

end Declarator

namespace Declaration

/-- The declaration with its semicolon. A declared struct without variables has nothing between its
closing brace and the semicolon. -/
def pieces (d : Declaration) : List Piece :=
  d.type.pieces ++ Piece.commaSeparated (d.declarators.map Declarator.pieces) ++ [.token ";"]

end Declaration

namespace Parameter

def pieces (p : Parameter) : List Piece :=
  (if p.isConst then [.token "const"] else []) ++
    Piece.ofOption (p.direction.map Direction.keyword) ++
    Piece.ofOption (p.precision.map Precision.keyword) ++
    .token p.type :: Piece.ofOption p.name ++ Expr.optionalSizePieces p.size

end Parameter

namespace Prototype

def pieces (p : Prototype) : List Piece :=
  p.returnType.pieces ++ .token p.name ::
    Piece.parenthesized (Piece.commaSeparated (p.params.map Parameter.pieces))

end Prototype

end ShaderMinifier
