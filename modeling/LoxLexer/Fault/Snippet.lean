import LoxLexer.Fault.Basic
import LoxLexer.Text.SourceLine
import LoxLexer.Text.WhiteSpace

/-!
# Showing a fault in its source

A fault is shown as its name with its hint, the name of the file, and, if its position lies in the
source, the line of that position with a caret below.  The line is shown without white space at its
ends.  The caret is indented by the bytes of the line before the position, less the spaces and tabs
the line begins with; the indentation and the caret together must fit a limited width.

```text
Error: UnexpectedCharacter
-> main.lox
  |
2 | var b = #;
  | --------^
```
-/

namespace LoxLexer

/-- The greatest number of columns an indented caret may take. -/
def maxCaretColumns : Nat := 65535

/-- A fault too far to the right for its caret to be drawn. -/
structure CaretOverflow where
  columns : Nat
  deriving DecidableEq, Repr

def CaretOverflow.message (_ : CaretOverflow) : String :=
  "Formatting argument out of range"

namespace SourceLine

/-- The number of spaces and tabs the line begins with. -/
def indentation (line : SourceLine) : Nat :=
  (line.text.takeWhile fun c => c = ' ' || c = '\t').length

/-- The bytes between the indentation of the line and the byte it is seen from. -/
def caretIndent (line : SourceLine) : Nat :=
  line.offset - line.indentation

/-- The text before each bar: blanks as wide as the number of the line and the space behind it. -/
def gutter (line : SourceLine) : String :=
  "".pushn ' ' ((toString line.number).length + 1)

/-- The line below an empty row and above the row of its caret. -/
def snippet (line : SourceLine) : String :=
  line.gutter ++ "|\n" ++
    toString line.number ++ " | " ++ String.ofList (trim line.text) ++ "\n" ++
    line.gutter ++ "| " ++ "".pushn '-' line.caretIndent ++ "^\n"

end SourceLine

namespace Fault

/-- The name of the fault with its hint, and the name of the file. -/
def heading (fault : Fault) (fileName : String) : String :=
  let hint := match fault.cause.hint? with
    | some hint => " (" ++ hint ++ ")"
    | none => ""
  "Error: " ++ fault.cause.name ++ hint ++ "\n-> " ++ fileName ++ "\n"

/-- Shows a fault in its source. -/
def render (fault : Fault) (source fileName : String) : Except CaretOverflow String :=
  match lineAt? source.toList fault.position with
  | none => .ok (fault.heading fileName)
  | some line =>
    let columns := line.caretIndent + 1
    if maxCaretColumns < columns then .error ⟨columns⟩
    else .ok (fault.heading fileName ++ line.snippet)

/-- Shows faults of one source in turn, unless one of them cannot be shown. -/
def renderAll (faults : List Fault) (source fileName : String) :
    Except CaretOverflow (List String) :=
  faults.mapM (·.render source fileName)

end Fault

end LoxLexer
