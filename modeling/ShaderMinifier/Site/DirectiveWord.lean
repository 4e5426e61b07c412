import ShaderMinifier.Site.Event
import ShaderMinifier.Word

/-
  The words that the preprocessor can see. Directives and conditions are kept as text, so a name
  that they mention must keep its spelling, and no other name may take it.
-/

namespace ShaderMinifier

namespace Word

/-- The runs of word characters (`isPart`) in a text, where `run` holds those met last, in reverse.
Runs may be empty. -/
def runsFrom (run : List Char) : List Char → List (List Char)
  | [] => [run.reverse]
  | c :: text =>
    if isPart c then runsFrom (c :: run) text else run.reverse :: runsFrom [] text

/-- The words in a text: runs of word characters whose first one satisfies `isStart`, so numbers are
none. -/
def inText (text : String) : List String :=
  ((runsFrom [] text.toList).filter fun run => run.head?.any isStart).map String.ofList

end Word

namespace Event

/-- The text of the event that the preprocessor sees, the value of a directive or a condition. -/
def directiveText : Event → Option String
  | directive line => some line.value
  | conditional _ condition => some condition
  | elif condition => some condition
  | site _ | enter _ | leave => none

end Event

namespace Shader

/-- Every word in a directive or in a condition, in all branches. A name among them keeps its
spelling, and `reservedNames` keeps others from taking it. -/
def directiveWords (shader : Shader) : List String :=
  (shader.events.filterMap Event.directiveText).flatMap Word.inText

end Shader

end ShaderMinifier
