import ShaderMinifier.Item.Basic

/-
  Why a text is not accepted, and the sentence that says so.
-/

namespace ShaderMinifier

/-- What would have been accepted in place of what was found; the argument of `Cause.expected`. -/
inductive Expectation where
  /-- A symbol or a keyword, quoted in the message by `Expectation.text`. -/
  | token (text : String)
  | callee
  | expression
  | declaration
  | precision
  | parameterType
  | functionEnd
  | directiveName

/-- The expectation in words, as it stands behind "expected" in `Cause.message`. -/
def Expectation.text : Expectation → String
  | token text => "'" ++ text ++ "'"
  | callee => "a function or constructor name"
  | expression => "an expression"
  | declaration => "a declaration"
  | precision => "a precision qualifier"
  | parameterType => "a parameter type"
  | functionEnd => "';' or a function body"
  | directiveName => "a preprocessor directive name"

/-- A directive line that ends a branch of a conditional: `#elif`, `#else` or `#endif`. -/
inductive BranchMarker where
  | elif
  | otherwise
  | done
deriving DecidableEq

namespace BranchMarker

def all : List BranchMarker := [elif, otherwise, done]

/-- The directive's name as it stands behind the `#`. `ofKeyword?` goes the other way. -/
def keyword : BranchMarker → String
  | elif => "elif"
  | otherwise => "else"
  | done => "endif"

/-- The marker whose `keyword` is this word. `none` means that a directive of this name does not end
a branch. -/
def ofKeyword? (word : String) : Option BranchMarker := all.find? fun m => m.keyword == word

end BranchMarker

/-- Why a text is not accepted. Each constructor is one `message`, and its arguments are the words
that the message quotes. -/
inductive Cause where
  /-- The next character fits nothing and there is nothing more precise to say, so any other cause
  at the same place wins, see `Fault.further`. -/
  | unexpected
  | expected (what : Expectation)
  | remaining
  | tooDeep
  | badNumber (c : Char)
  | reservedName (word : String)
  | builtinName (word : String)
  | assignmentTarget
  | repeatedStep
  | directiveInside
  | nestedStruct
  | unsizedMember
  | voidVariable
  | qualifiedLocal (qualifier : TypeQualifier)
  | attributeStage
  | attributeInitializer
  | attributeArray
  | attributeStruct
  | qualifiedParameter (word : String)
  | constParameter
  | voidParameter
  | qualifiedReturn (qualifier : TypeQualifier)
  | unknownDirective (name : String)
  | noCondition (opener : String)
  | unterminated (kind : ConditionalKind)
  | elifAfterElse
  | secondElse
  | strayMarker (marker : BranchMarker)

namespace Cause

/-- Whether the cause says no more than that the next character does not fit. `Fault.further`
prefers causes that are not vague. -/
def isVague : Cause → Bool
  | unexpected => true
  | _ => false

/-- The cause in words, where `found` is the next character, if there is one. Only `unexpected`
quotes it. -/
def message (found : Option Char) : Cause → String
  | unexpected =>
    match found with
    | some c => "unexpected '" ++ c.toString ++ "'"
    | none => "unexpected end of input"
  | expected what => "expected " ++ what.text
  | remaining => "unexpected input remaining"
  | tooDeep => "nesting is too deep"
  | badNumber c => "invalid character '" ++ c.toString ++ "' in number"
  | reservedName word => "'" ++ word ++ "' is a reserved word and can't be used as a name"
  | builtinName word => "'" ++ word ++ "' uses the reserved 'gl_' prefix"
  | assignmentTarget => "left side of an assignment must be a unary expression"
  | repeatedStep => "'++' and '--' can't be repeated on one operand"
  | directiveInside => "preprocessor directives are only allowed at top level"
  | nestedStruct => "structs can't be embedded in structs"
  | unsizedMember => "arrays in structs must have a size"
  | voidVariable => "variables can't be declared as void"
  | qualifiedLocal qualifier =>
    "local declarations can't use the '" ++ qualifier.text ++ "' qualifier"
  | attributeStage => "attributes can only be declared in vertex shaders"
  | attributeInitializer => "attributes can't be initialized"
  | attributeArray => "attributes can't be declared as arrays"
  | attributeStruct => "attributes can't be structs"
  | qualifiedParameter word => "function parameters can't use the '" ++ word ++ "' qualifier"
  | constParameter => "only 'in' parameters can be declared const"
  | voidParameter => "parameters can't be declared as void"
  | qualifiedReturn qualifier =>
    "function return types can't use the '" ++ qualifier.text ++ "' qualifier"
  | unknownDirective name => "unknown preprocessor directive '#" ++ name ++ "'"
  | noCondition opener => "#" ++ opener ++ " needs a condition"
  | unterminated kind => "unterminated #" ++ kind.keyword
  | elifAfterElse => "#elif after #else"
  | secondElse => "duplicate #else"
  | strayMarker marker => "#" ++ marker.keyword ++ " without matching #if"

end Cause

end ShaderMinifier
