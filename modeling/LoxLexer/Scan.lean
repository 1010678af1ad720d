import LoxLexer.Segment

/-!
# Scanning

A scan goes over the segments of a source once, collecting their tokens and handing their faults to
a reporter as it meets them.  A fault never stops it, and the token for the end of the source always
comes last.  `scan` reports to a log; `tokenize` keeps the tokens only of a source without faults.
-/

namespace LoxLexer

/-- What a scan leaves: its tokens, and the state of the reporter. -/
structure Scan (σ : Type) where
  tokens : List Token
  log : σ
  deriving Repr

/-- A scan between two segments. -/
structure Progress (σ : Type) where
  cursor : Cursor
  tokens : Array Token
  log : σ
  deriving Repr

namespace Progress

def start {σ : Type} (log : σ) : Progress σ := ⟨.origin, #[], log⟩

def step {σ : Type} (report : Reporter σ) (progress : Progress σ) (segment : Segment) :
    Progress σ :=
  let stop := progress.cursor.advance segment.chars
  { cursor := stop
    tokens := progress.tokens.append (segment.token? progress.cursor.line).toArray
    log := (segment.fault? progress.cursor stop).toList.foldl report progress.log }

/-- Adds the token for the end of the source. -/
def finish {σ : Type} (progress : Progress σ) : Scan σ :=
  ⟨(progress.tokens.push (.endOfSource progress.cursor.line)).toList, progress.log⟩

end Progress

/-- Scans a source, reporting to `report` from the state `log` on. -/
def scanWith {σ : Type} (report : Reporter σ) (log : σ) (source : String) : Scan σ :=
  ((Segment.cut source.toList).foldl (Progress.step report) (.start log)).finish

def scan (source : String) : Scan FaultLog :=
  scanWith FaultLog.report .empty source

def tokenize (source : String) : Except (List Fault) (List Token) :=
  let result := scan source
  if result.log.hasFault then .error result.log.toList else .ok result.tokens

end LoxLexer
