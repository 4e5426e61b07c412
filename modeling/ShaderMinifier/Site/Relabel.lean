import ShaderMinifier.Site.Event

/-
  Putting new names at the sites of a shader, in the order of `Shader.sites`. Nothing
  but names changes.
-/

namespace ShaderMinifier

/-- A computation that uses up names in order. The state holds the names that are still to be put in
place. -/
abbrev Relabel (α : Type) : Type := StateM (List String) α

/-- The next name for a site. The `old` one stays where there is none left, so `relabel` is
total. -/
def Relabel.next (old : String) : Relabel String := fun names =>
  match names with
  | [] => (old, [])
  | name :: names => (name, names)

open Relabel

namespace Expr

mutual

def relabel : Expr → Relabel Expr
  | identifier name => return .identifier (← next name)
  | int value => return .int value
  | float value => return .float value
  | bool value => return .bool value
  | unary op operand => return .unary op (← relabel operand)
  | step op operand => return .step op (← relabel operand)
  | binary op left right => return .binary op (← relabel left) (← relabel right)
  | assign op left right => return .assign op (← relabel left) (← relabel right)
  | ternary condition whenTrue whenFalse =>
    return .ternary (← relabel condition) (← relabel whenTrue) (← relabel whenFalse)
  | index base position => return .index (← relabel base) (← relabel position)
  | field base name => return .field (← relabel base) (← next name)
  | call callee args => return .call (← next callee) (← relabelList args)
  | sequence items => return .sequence (← relabelList items)

def relabelList : List Expr → Relabel (List Expr)
  | [] => return []
  | item :: items => return (← relabel item) :: (← relabelList items)

end

def relabelOption : Option Expr → Relabel (Option Expr)
  | none => return none
  | some value => return some (← relabel value)

end Expr

/-- The `next` name for a name that may be missing; a missing one uses up none. -/
def Relabel.nextOption : Option String → Relabel (Option String)
  | none => return none
  | some name => return some (← next name)

namespace MemberDeclarator

def relabel (d : MemberDeclarator) : Relabel MemberDeclarator := do
  let size ← Expr.relabelOption d.size
  return ⟨← next d.name, size⟩

end MemberDeclarator

namespace Member

def relabel (m : Member) : Relabel Member :=
  return ⟨m.precision, ← next m.type, ← m.declarators.mapM MemberDeclarator.relabel⟩

end Member

namespace TypeSpecifier

def relabel : TypeSpecifier → Relabel TypeSpecifier
  | named name => return .named (← next name)
  | struct spec => return .struct ⟨← nextOption spec.name, ← spec.members.mapM Member.relabel⟩

end TypeSpecifier

namespace QualifiedType

def relabel (t : QualifiedType) : Relabel QualifiedType :=
  return ⟨t.qualifier, t.precision, ← t.specifier.relabel⟩

end QualifiedType

namespace ArraySize

def relabelOption : Option ArraySize → Relabel (Option ArraySize)
  | none => return none
  | some .unsized => return some .unsized
  | some (.sized size) => return some (.sized (← size.relabel))

end ArraySize

namespace Declarator

def relabel (d : Declarator) : Relabel Declarator := do
  let array ← ArraySize.relabelOption d.array
  let value ← Expr.relabelOption d.initializer
  return ⟨← next d.name, array, value⟩

end Declarator

namespace Declaration

def relabel (d : Declaration) : Relabel Declaration :=
  return ⟨← d.type.relabel, ← d.declarators.mapM Declarator.relabel⟩

end Declaration

namespace Parameter

def relabel (p : Parameter) : Relabel Parameter := do
  let type ← next p.type
  let size ← Expr.relabelOption p.size
  return { p with type, name := ← nextOption p.name, size }

end Parameter

namespace Prototype

def relabel (p : Prototype) : Relabel Prototype :=
  return ⟨← p.returnType.relabel, ← next p.name, ← p.params.mapM Parameter.relabel⟩

end Prototype

namespace SimpleStatement

def relabel : SimpleStatement → Relabel SimpleStatement
  | declaration decl => return .declaration (← decl.relabel)
  | expression value => return .expression (← Expr.relabelOption value)

end SimpleStatement

namespace Statement

mutual

def relabel : Statement → Relabel Statement
  | block body => return .block (← relabelList body)
  | simple stmt => return .simple (← stmt.relabel)
  | ifThen condition body => return .ifThen (← condition.relabel) (← relabel body)
  | ifElse condition whenTrue whenFalse =>
    return .ifElse (← condition.relabel) (← relabel whenTrue) (← relabel whenFalse)
  | whileLoop condition body => return .whileLoop (← condition.relabel) (← relabel body)
  | doWhile body condition => return .doWhile (← relabel body) (← condition.relabel)
  | forLoop init condition step body =>
    return .forLoop (← init.relabel) (← Expr.relabelOption condition)
      (← Expr.relabelOption step) (← relabel body)
  | continueLoop => return .continueLoop
  | breakLoop => return .breakLoop
  | returnValue value => return .returnValue (← Expr.relabelOption value)
  | discard => return .discard

def relabelList : List Statement → Relabel (List Statement)
  | [] => return []
  | stmt :: body => return (← relabel stmt) :: (← relabelList body)

end

end Statement

namespace Item

mutual

def relabel : Item → Relabel Item
  | directive line => return .directive line
  | conditional kind condition body rest =>
    return .conditional kind condition (← relabelList body) (← relabelBranches rest)
  | precision level type => return .precision level (← next type)
  | invariant names => return .invariant (← names.mapM next)
  | declaration decl => return .declaration (← decl.relabel)
  | prototype signature => return .prototype (← signature.relabel)
  | function signature body =>
    return .function (← signature.relabel) (← Statement.relabelList body)

def relabelList : List Item → Relabel (List Item)
  | [] => return []
  | item :: items => return (← relabel item) :: (← relabelList items)

def relabelBranches : Branches → Relabel Branches
  | .done => return .done
  | .otherwise body => return .otherwise (← relabelList body)
  | .elif condition body rest =>
    return .elif condition (← relabelList body) (← relabelBranches rest)

end

end Item

namespace Shader

/-- The shader with these names at its `sites`, in order. Names left over are dropped, and names
that are missing stay as they are. -/
def withNames (shader : Shader) (names : List String) : Shader :=
  ⟨(Item.relabelList shader.items names).1⟩

/-- The shader with the name at each site replaced by what `rename` makes of it, which sees the role
as well as the old name. -/
def mapNames (rename : Site → String) (shader : Shader) : Shader :=
  shader.withNames (shader.sites.map rename)

end Shader

end ShaderMinifier
