import LoxLexer.Console.Elapsed
import LoxLexer.Console.Session

/-!
# The program

Reads the file or the standard input, and writes what the session shows.
-/

namespace LoxLexer.Main

/-- Computes a report and tells how long that took. -/
def timed (compute : Unit → Report) : IO (Report × String) := do
  let before ← IO.monoNanosNow
  let report ← IO.lazyPure compute
  let after ← IO.monoNanosNow
  return (report, elapsedText (after - before))

def emit (outcome : Outcome) : IO UInt32 := do
  (← IO.getStderr).putStr outcome.stderr
  (← IO.getStdout).putStr outcome.stdout
  (← IO.getStdout).flush
  return outcome.exitCode

/-- Why the operating system did not deliver a file. -/
def readFailure : IO.Error → ReadFailure
  | .noFileOrDirectory .. => .notFound
  | .inappropriateType file? code details =>
    if code = 20 ∨ code = 0 - 20 then .notADirectory
    else if code = 21 ∨ code = 0 - 21 then .isADirectory
    else .other (toString (IO.Error.inappropriateType file? code details))
  | error => .other (toString error)

def readFile (path : String) : IO (Except ReadFailure ByteArray) := do
  try
    return .ok (← IO.FS.readBinFile path)
  catch error =>
    return .error (readFailure error)

def runFile (options : Options) (path : String) : IO UInt32 := do
  match (← readFile path) >>= decodeText with
  | .error failure => emit (.unreadable path failure)
  | .ok source =>
    let (report, elapsed) ← timed fun _ => .ofSource options source (baseName path)
    emit (.ofReport options elapsed report)

/-- Reads one line of an input, which is empty at the end, behind what is read of it already. -/
partial def readLine (input : IO.FS.Stream) (line : ByteArray) : IO ByteArray := do
  let bytes ← input.read 1
  let line := line ++ bytes
  if bytes.isEmpty || bytes.toList = [0x0A] then return line
  readLine input line

/-- Scans the lines of an input as they come. -/
partial def runPrompt (options : Options) (input : IO.FS.Stream) : IO UInt32 := do
  let line ← readLine input .empty
  if line.isEmpty then return ExitCode.success
  match Prompt.decodeLine line with
  | .error failure => emit (Prompt.broken failure)
  | .ok source =>
    let (report, elapsed) ← timed fun _ => Prompt.scanLine options source
    let exitCode ← emit (.ofReport options elapsed report)
    if exitCode = ExitCode.failure then return exitCode
    runPrompt options input

end LoxLexer.Main

def main (arguments : List String) : IO UInt32 :=
  match LoxLexer.Invocation.parse arguments with
  | .error error => LoxLexer.Main.emit (.misused error)
  | .ok .help => LoxLexer.Main.emit .help
  | .ok (.scan options (some path)) => LoxLexer.Main.runFile options path
  | .ok (.scan options none) => do
    LoxLexer.Main.runPrompt options (← IO.getStdin)
