import ShaderMinifier.Expr.Equality

/-
  The stages of a program, in the order in which they are always treated, and what a stage
  declares: types, variables and function signatures.
-/

namespace ShaderMinifier

/-- A stage of the graphics pipeline that runs a shader. The grammar treats the two alike but for
attributes, see `Declaration.fault?`. -/
inductive Stage where
  | vertex
  | fragment
deriving DecidableEq

namespace Stage

/-- Both stages, the vertex stage first, which is the order in which every pass visits the shaders
of a `Program`. -/
def all : List Stage := [.vertex, .fragment]

/-- The stage's name in the messages of `CompileError` and in the entries of the log. -/
def name : Stage → String
  | .vertex => "vertex"
  | .fragment => "fragment"

end Stage

/-- How a global variable is stored or linked. `invariantVarying` is written with two words, so it
is one qualifier here and two keywords in `Parser.typeQualifier`. -/
inductive TypeQualifier where
  | const
  | vertexAttribute
  | varying
  | invariantVarying
  | uniform
deriving DecidableEq

namespace TypeQualifier

def all : List TypeQualifier := [const, vertexAttribute, varying, invariantVarying, uniform]

/-- The qualifier as it is written, with a blank between the words of `invariantVarying`. -/
def text : TypeQualifier → String
  | const => "const"
  | vertexAttribute => "attribute"
  | varying => "varying"
  | invariantVarying => "invariant varying"
  | uniform => "uniform"

/-- The qualifier whose `text` is this one word. `invariantVarying` has two words and is never the
answer. -/
def ofKeyword? (word : String) : Option TypeQualifier := all.find? fun q => q.text == word

/-- Whether a variable with this qualifier is joined by name with the application or with the other
stage. All are but `const`. -/
def isLinked : TypeQualifier → Bool
  | const => false
  | vertexAttribute | varying | invariantVarying | uniform => true

end TypeQualifier

/-- The precision asked of a type, in front of a `TypeSpecifier` or by itself in a precision
statement. -/
inductive Precision where
  | high
  | medium
  | low
deriving DecidableEq

namespace Precision

def all : List Precision := [high, medium, low]

/-- The precision as it is written. `ofKeyword?` goes the other way. -/
def keyword : Precision → String
  | high => "highp"
  | medium => "mediump"
  | low => "lowp"

/-- The precision whose `keyword` is this word. -/
def ofKeyword? (word : String) : Option Precision := all.find? fun p => p.keyword == word

end Precision

/-- A member of a struct with the size of its array, if it is one. `Parser.memberDeclarator` does
not let the size be left out between the brackets. -/
structure MemberDeclarator where
  name : String
  size : Option Expr
deriving DecidableEq

/-- The members of a struct that are declared together: the type is written once, the `declarators`
follow with commas between them. -/
structure Member where
  precision : Option Precision
  type : String
  declarators : List MemberDeclarator
deriving DecidableEq

/-- A struct type, possibly without a name. Its members name their types, so a `StructType` holds no
other one. -/
structure StructType where
  name : Option String
  members : List Member
deriving DecidableEq

/-- A type without its qualifiers: the name of one, built-in or declared, or a struct spelled
out. -/
inductive TypeSpecifier where
  | named (name : String)
  | struct (spec : StructType)
deriving DecidableEq

namespace TypeSpecifier

/-- Whether the type has no values, that is, is `void`. `Declaration.fault?` allows no variable of
it. -/
def isVoid : TypeSpecifier → Bool
  | named name => name == "void"
  | struct _ => false

/-- Whether the type is spelled out as a struct, which is what lets a declaration have no variables
(`Parser.bareDeclaration`). -/
def isStruct : TypeSpecifier → Bool
  | named _ => false
  | struct _ => true

end TypeSpecifier

/-- A type with its qualifiers, as a declaration and the result of a `Prototype` have it. -/
structure QualifiedType where
  qualifier : Option TypeQualifier
  precision : Option Precision
  specifier : TypeSpecifier
deriving DecidableEq

/-- The brackets after a declared name. An `unsized` array is read in a `Declarator` but not in a
struct or a parameter. -/
inductive ArraySize where
  | unsized
  | sized (size : Expr)
deriving DecidableEq

/-- A declared variable with its array size and its initial value, both of which may be missing. -/
structure Declarator where
  name : String
  array : Option ArraySize
  initializer : Option Expr
deriving DecidableEq

/-- Variables of one type declared together. There are none only if the type is a struct being
declared (`TypeSpecifier.isStruct`). -/
structure Declaration where
  type : QualifiedType
  declarators : List Declarator
deriving DecidableEq

/-- Where a declaration stands, among the items of a shader or in a body. `Declaration.fault?`
allows fewer qualifiers in a body. -/
inductive Placement where
  | topLevel
  | inBody
deriving DecidableEq

/-- Which way a parameter's value is copied. A `Parameter` without a direction is an input. -/
inductive Direction where
  | input
  | output
  | both
deriving DecidableEq

namespace Direction

def all : List Direction := [input, output, both]

/-- The direction as it is written. `ofKeyword?` goes the other way. -/
def keyword : Direction → String
  | input => "in"
  | output => "out"
  | both => "inout"

/-- The direction whose `keyword` is this word. -/
def ofKeyword? (word : String) : Option Direction := all.find? fun d => d.keyword == word

end Direction

/-- A parameter of a function. It may stay without a name, and its type is always a name, never a
struct spelled out as in a `TypeSpecifier`. -/
structure Parameter where
  isConst : Bool
  direction : Option Direction
  precision : Option Precision
  type : String
  name : Option String
  size : Option Expr
deriving DecidableEq

/-- The signature of a function: its result, its name and its parameters. A declaration and a
definition of a function share it. -/
structure Prototype where
  returnType : QualifiedType
  name : String
  params : List Parameter
deriving DecidableEq

/-- The number of parameters, which together with the name is all that `FunctionKey` keeps of a
signature. -/
def Prototype.arity (p : Prototype) : Nat := p.params.length

end ShaderMinifier
