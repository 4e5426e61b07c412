import ShaderMinifier.Tree

/-
  The outline of a tree: one line of nested brackets that shows every node and every part, for
  looking at trees and comparing them by eye. A dash stands for a part that is absent.
-/

namespace ShaderMinifier

namespace Outline

/-- A node with its parts, in brackets and with blanks between them: `(head part part)`. -/
def node (head : String) (parts : List String) : String :=
  "(" ++ " ".intercalate (head :: parts) ++ ")"

/-- A part that may be absent, as `-` where it is. -/
def orDash (part : Option String) : String := part.getD "-"

/-- A character inside quotes, as `quoted` needs it to stay on the line and to find the closing
quote. -/
def quotedChar : Char → List Char
  | '\\' => ['\\', '\\']
  | '"' => ['\\', '"']
  | '\n' => ['\\', 'n']
  | '\r' => ['\\', 'r']
  | '\t' => ['\\', 't']
  | c => [c]

/-- A text in quotes with `quotedChar` for each character. Values of directives and conditions are
shown like this, since they may contain anything. -/
def quoted (text : String) : String :=
  String.ofList ('"' :: text.toList.flatMap quotedChar ++ ['"'])

end Outline

open Outline

namespace Expr

mutual

/-- The outline of an expression: a `node` for each constructor, with operators by their token. -/
def outline : Expr → String
  | identifier name => node "id" [name]
  | int value => node "int" [value.toNat.repr]
  | float value => node "float" [value.text]
  | bool value => node "bool" [if value then "true" else "false"]
  | unary op operand => node "un" [op.token, outline operand]
  | step op operand => node "post" [op.token, outline operand]
  | binary op left right => node "bin" [op.token, outline left, outline right]
  | assign op left right => node "asg" [op.token, outline left, outline right]
  | ternary condition whenTrue whenFalse =>
    node "tern" [outline condition, outline whenTrue, outline whenFalse]
  | index base position => node "idx" [outline base, outline position]
  | field base name => node "fld" [outline base, name]
  | call callee args => node "call" (callee :: outlines args)
  | sequence items => node "seq" (outlines items)

/-- The `outline` of each expression of a list, arguments or items of a sequence. -/
def outlines : List Expr → List String
  | [] => []
  | item :: items => outline item :: outlines items

end

/-- The outline of an expression that may be absent, as `orDash` shows it. -/
def optionalOutline (value : Option Expr) : String := orDash (value.map outline)

end Expr

namespace TypeQualifier

/-- The qualifier as one word, its `text` but for the blank in `invariantVarying`, which would look
like two parts. -/
def outline : TypeQualifier → String
  | invariantVarying => "invariant_varying"
  | qualifier => qualifier.text

end TypeQualifier

namespace Precision

/-- The keyword of a precision that may be absent, as `orDash` shows it. -/
def optionalOutline (level : Option Precision) : String := orDash (level.map keyword)

end Precision

namespace Member

def outline (m : Member) : String :=
  node "member" (Precision.optionalOutline m.precision :: m.type ::
    m.declarators.map fun d => node d.name [Expr.optionalOutline d.size])

end Member

namespace TypeSpecifier

def outline : TypeSpecifier → String
  | named name => name
  | struct spec => node "struct" (orDash spec.name :: spec.members.map Member.outline)

end TypeSpecifier

namespace QualifiedType

def outline (t : QualifiedType) : String :=
  node "type" [orDash (t.qualifier.map TypeQualifier.outline),
    Precision.optionalOutline t.precision, t.specifier.outline]

end QualifiedType

namespace ArraySize

def outline : ArraySize → String
  | unsized => "[]"
  | sized size => size.outline

end ArraySize

namespace Declaration

def outline (d : Declaration) : String :=
  node "decl" (d.type.outline :: d.declarators.map fun v =>
    node v.name [orDash (v.array.map ArraySize.outline), Expr.optionalOutline v.initializer])

end Declaration

namespace Parameter

def outline (p : Parameter) : String :=
  node "param" [if p.isConst then "const" else "-", orDash (p.direction.map Direction.keyword),
    Precision.optionalOutline p.precision, p.type, orDash p.name, Expr.optionalOutline p.size]

end Parameter

namespace Prototype

/-- The parts of a signature, which the `node` of a prototype and that of a function share. -/
def outlines (p : Prototype) : List String :=
  [p.returnType.outline, p.name, node "params" (p.params.map Parameter.outline)]

end Prototype

namespace SimpleStatement

def outline : SimpleStatement → String
  | declaration decl => decl.outline
  | expression value => node "expr" (value.map Expr.outline).toList

end SimpleStatement

namespace Statement

mutual

/-- The outline of a statement. `ifThen` and `ifElse` have one head and differ in the number of
parts. -/
def outline : Statement → String
  | block body => node "block" (outlines body)
  | simple stmt => stmt.outline
  | ifThen condition body => node "if" [condition.outline, outline body]
  | ifElse condition whenTrue whenFalse =>
    node "if" [condition.outline, outline whenTrue, outline whenFalse]
  | whileLoop condition body => node "while" [condition.outline, outline body]
  | doWhile body condition => node "do" [outline body, condition.outline]
  | forLoop init condition step body =>
    node "for" [init.outline, Expr.optionalOutline condition, Expr.optionalOutline step,
      outline body]
  | continueLoop => node "continue" []
  | breakLoop => node "break" []
  | returnValue value => node "return" (value.map Expr.outline).toList
  | discard => node "discard" []

/-- The `outline` of each statement of a body. -/
def outlines : List Statement → List String
  | [] => []
  | stmt :: body => outline stmt :: outlines body

end

end Statement

namespace Item

mutual

/-- The outline of an item. A conditional shows its first branch as `then` and the others by
`branchOutlines`. -/
def outline : Item → String
  | directive line => node "directive" [line.name, quoted line.value]
  | conditional kind condition body rest =>
    node "cond" (kind.keyword :: quoted condition :: node "then" (outlines body) ::
      branchOutlines rest)
  | precision level type => node "precision" [level.keyword, type]
  | invariant names => node "invariant" names
  | declaration decl => decl.outline
  | prototype signature => node "proto" signature.outlines
  | function signature body => node "func" (signature.outlines ++ Statement.outlines body)

/-- The `outline` of each item of a list. -/
def outlines : List Item → List String
  | [] => []
  | item :: items => outline item :: outlines items

/-- The outlines of the branches behind the first, one `node` for each `#elif` and `#else`. -/
def branchOutlines : Branches → List String
  | .done => []
  | .otherwise body => [node "else" (outlines body)]
  | .elif condition body rest =>
    node "elif" (quoted condition :: outlines body) :: branchOutlines rest

end

end Item

/-- The outline of a shader, one `node` with the items as its parts. -/
def Shader.outline (shader : Shader) : String :=
  node "unit" (Item.outlines shader.items)

/-- The outline of a tree, whichever `StartRule` it was read from. -/
def Tree.outline : Tree → String
  | shader value => value.outline
  | statement value => value.outline
  | expression value => value.outline

end ShaderMinifier
