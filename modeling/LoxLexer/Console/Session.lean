import LoxLexer.Console.FileTree
import LoxLexer.Console.Report

/-!
# Sessions

A session is one call of the program: it takes the arguments, the standard input and what files
hold, and leaves two texts and an exit code.  A named file is scanned as a whole.  Without a file
each line of the standard input is scanned on its own, and faults on it do not show in the exit
code.

The standard input is taken as it stands.  A prompt that lets its lines be edited takes a backspace
(U+0008) in them for a key, so that of such a prompt only inputs without one are described here.
-/

namespace LoxLexer

structure Outcome where
  exitCode : UInt32
  stdout : String
  stderr : String
  deriving DecidableEq, Repr

namespace ExitCode

def success : UInt32 := 0

/-- The arguments cannot be accepted. -/
def usage : UInt32 := 2

/-- The source has a fault. -/
def dataError : UInt32 := 65

/-- The file cannot be read. -/
def noInput : UInt32 := 66

/-- A fault could not be shown. -/
def failure : UInt32 := 101

end ExitCode

def helpText : String :=
  "Scan Lox source and print its tokens\n" ++
    "\n" ++
    "Usage: lox [OPTIONS] [FILE]\n" ++
    "\n" ++
    "Arguments:\n" ++
    "  [FILE]  Path to a .lox file to scan; starts a prompt when omitted\n" ++
    "\n" ++
    "Options:\n" ++
    "      --pretty  Show the offending source line under each error\n" ++
    "      --time    Print how long scanning took\n" ++
    "  -h, --help    Print help\n"

namespace Outcome

def help : Outcome := ⟨ExitCode.success, helpText, ""⟩

def misused (error : UsageError) : Outcome :=
  ⟨ExitCode.usage, "", "error: " ++ error.message ++ "\n"⟩

def unreadable (path : String) (failure : ReadFailure) : Outcome :=
  ⟨ExitCode.noInput, "", "error: could not read '" ++ path ++ "': " ++ failure.message ++ "\n"⟩

def ofReport (options : Options) (elapsed : String) (report : Report) : Outcome :=
  match report.log.overflow? with
  | some overflow =>
    ⟨ExitCode.failure, "", report.log.text ++ "error: " ++ overflow.message ++ "\n"⟩
  | none =>
    ⟨if report.log.hasFault then ExitCode.dataError else ExitCode.success,
      report.text options elapsed, report.log.text⟩

/-- The texts of two outcomes in turn, and the exit code of the later one. -/
def append (earlier later : Outcome) : Outcome :=
  ⟨later.exitCode, earlier.stdout ++ later.stdout, earlier.stderr ++ later.stderr⟩

end Outcome

/-! ## A file -/

def scanFile (options : Options) (elapsed path : String)
    (content : Except ReadFailure ByteArray) : Outcome :=
  match content >>= decodeText with
  | .error failure => .unreadable path failure
  | .ok source => .ofReport options elapsed (.ofSource options source (baseName path))

/-! ## The prompt -/

namespace Prompt

/-- The name under which the lines of the prompt are shown. -/
def fileName : String := "repl"

/-- Appends the lines of `bytes` to `done`; the bytes of `line` begin the first one. -/
def linesOnto (done : Array ByteArray) (line : ByteArray) : (bytes : List UInt8) → Array ByteArray
  | [] => if line.isEmpty then done else done.push line
  | byte :: bytes =>
    if byte = 0x0A then linesOnto (done.push (line.push byte)) .empty bytes
    else linesOnto done (line.push byte) bytes

/-- The lines of an input, each with the line feed that ends it. -/
def lines (input : ByteArray) : List ByteArray :=
  (linesOnto #[] .empty input.toList).toList

/-- A line without its line feed and a carriage return before that.  Nothing else of it is changed;
a backspace in it, which an editor of lines would apply, stays. -/
def chomp (line : String) : String :=
  match line.toList.reverse with
  | '\n' :: '\r' :: text => String.ofList text.reverse
  | '\n' :: text => String.ofList text.reverse
  | _ => line

/-- The source that a line holds, if its bytes are a text.  Like `chomp` it is that of an edited line
only if there is no backspace in it. -/
def decodeLine (line : ByteArray) : Except ReadFailure String :=
  (decodeText line).map chomp

def scanLine (options : Options) (source : String) : Report :=
  .ofSource options source fileName

/-- The outcome of a line that is no text, which is the last one. -/
def broken (failure : ReadFailure) : Outcome :=
  ⟨ExitCode.success, "", "error: " ++ failure.message ++ "\n"⟩

/-- Scans lines in turn after `done`, up to one that is no text or whose faults cannot be shown. -/
def scanLines (options : Options) (elapsed : String) (done : Outcome) :
    (lines : List ByteArray) → Outcome
  | [] => done
  | line :: lines =>
    match decodeLine line with
    | .error failure => done.append (broken failure)
    | .ok source =>
      let outcome := Outcome.ofReport options elapsed (scanLine options source)
      if outcome.exitCode = ExitCode.failure then done.append outcome
      else
        scanLines options elapsed (done.append { outcome with exitCode := ExitCode.success }) lines

def scan (options : Options) (elapsed : String) (input : ByteArray) : Outcome :=
  scanLines options elapsed ⟨ExitCode.success, "", ""⟩ (lines input)

end Prompt

/-- A session, in which every scan takes the time `elapsed`. -/
def runSession (arguments : List String) (read : String → Except ReadFailure ByteArray)
    (input : ByteArray) (elapsed : String) : Outcome :=
  match Invocation.parse arguments with
  | .error error => .misused error
  | .ok .help => .help
  | .ok (.scan options (some path)) => scanFile options elapsed path (read path)
  | .ok (.scan options none) => Prompt.scan options elapsed input

end LoxLexer
