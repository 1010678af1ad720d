/-!
# Lexical faults

A fault tells what is wrong and where: the line on which it was noticed, and the position of the
first character of what is wrong.  Both are stored as given.
-/

namespace LoxLexer

inductive Fault.Cause where
  /-- A string that lacks its closing quote. -/
  | unterminatedString
  /-- A character that begins no token. -/
  | unexpectedCharacter (character : Char)
  deriving DecidableEq, Repr

structure Fault where
  cause : Fault.Cause
  line : Nat
  position : Nat
  deriving DecidableEq, Repr

namespace Fault

namespace Cause

def name : Cause → String
  | .unterminatedString => "UnterminatedString"
  | .unexpectedCharacter _ => "UnexpectedCharacter"

def message : Cause → String
  | .unterminatedString => "Unterminated string."
  | .unexpectedCharacter _ => "Unexpected character."

/-- Advice on how to mend the fault; for a character outside ASCII, where it may stand. -/
def hint? : Cause → Option String
  | .unterminatedString => some "add a closing `\"` to end the string"
  | .unexpectedCharacter character =>
    if character.toNat < 0x80 then none
    else some ("`" ++ character.toString ++ "` is only allowed inside string literals")

end Cause

/-- The line that tells of the fault without showing the source. -/
def notice (fault : Fault) : String :=
  "[line " ++ toString fault.line ++ "] Error: " ++ fault.cause.message ++ "\n"

end Fault

/-- Receives faults one after another; what becomes of them shows in its state. -/
abbrev Reporter (σ : Type) := σ → Fault → σ

/-- The faults reported so far, in order. -/
structure FaultLog where
  entries : Array Fault
  deriving DecidableEq, Repr

namespace FaultLog

def empty : FaultLog := ⟨#[]⟩

def report : Reporter FaultLog :=
  fun log fault => ⟨log.entries.push fault⟩

def hasFault (log : FaultLog) : Bool :=
  !log.entries.isEmpty

def toList (log : FaultLog) : List Fault :=
  log.entries.toList

@[simp] theorem toList_empty : empty.toList = [] := rfl

@[simp] theorem toList_report (log : FaultLog) (fault : Fault) :
    (report log fault).toList = log.toList ++ [fault] := by
  simp [report, toList]

theorem hasFault_iff (log : FaultLog) : log.hasFault = true ↔ log.toList ≠ [] := by
  simp [hasFault, toList]

end FaultLog

end LoxLexer
