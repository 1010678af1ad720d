import LoxLexer.Console.Invocation
import LoxLexer.Fault.Snippet
import LoxLexer.Scan

/-!
# Reports

A report is what the console shows of one scan.  Faults are written as the scan meets them, tokens
when it has ended.  If a fault cannot be shown in its source the scan is given up: what was written
remains, and no token is shown.
-/

namespace LoxLexer

structure FaultOutput where
  text : String
  hasFault : Bool
  /-- The reason for giving up. -/
  overflow? : Option CaretOverflow
  deriving DecidableEq, Repr

namespace FaultOutput

def empty : FaultOutput := ⟨"", false, none⟩

/-- Writes a fault, followed by its source if that is wanted; once given up, nothing more. -/
def report (options : Options) (source fileName : String) : Reporter FaultOutput :=
  fun output fault =>
    match output.overflow? with
    | some _ => output
    | none =>
      let text := output.text ++ fault.notice
      if options.pretty then
        match fault.render source fileName with
        | .ok rendered => ⟨text ++ rendered, true, none⟩
        | .error overflow => ⟨text, true, some overflow⟩
      else ⟨text, true, none⟩

end FaultOutput

abbrev Report := Scan FaultOutput

namespace Report

def ofSource (options : Options) (source fileName : String) : Report :=
  scanWith (FaultOutput.report options source fileName) .empty source

def tokenText (report : Report) : String :=
  String.join (report.tokens.map fun token => token.text ++ "\n")

/-- What is shown after the scan.  The time it took comes first, if it is wanted. -/
def text (report : Report) (options : Options) (elapsed : String) : String :=
  (if options.time then "Tokenized in " ++ elapsed ++ "\n" else "") ++ report.tokenText

end Report

end LoxLexer
