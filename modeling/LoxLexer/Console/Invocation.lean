import LoxLexer.Console.ControlSequence

/-!
# The command line

The arguments are read from left to right, and the first one that cannot be accepted ends the
reading, as does a request for help.  A file name is accepted as it stands; that it is empty is
noticed at the next flag or at the end of the arguments.
-/

namespace LoxLexer

inductive Flag where
  /-- Show the source under each fault. -/
  | pretty
  /-- Show how long scanning took. -/
  | time
  /-- Show how to call the program, and do nothing else. -/
  | help
  deriving DecidableEq, Repr

namespace Flag

def name : Flag → String
  | .pretty => "pretty"
  | .time => "time"
  | .help => "help"

def all : List Flag := [.pretty, .time, .help]

def ofName? (name : String) : Option Flag :=
  all.find? (·.name = name)

/-- The flag that a single dash and a letter stand for. -/
def ofLetter? : Char → Option Flag
  | 'h' => some .help
  | _ => none

end Flag

inductive UsageError where
  | unexpectedArgument (argument : String)
  | unexpectedValue (flag : Flag) (value : String)
  | repeatedFlag (flag : Flag)
  | missingFile
  deriving DecidableEq, Repr

/-- What is wrong, with the offending text in quotes. -/
def UsageError.message : UsageError → String
  | .unexpectedArgument argument => "unexpected argument '" ++ withoutControls argument ++ "' found"
  | .unexpectedValue flag value =>
    "unexpected value '" ++ withoutControls value ++ "' for '--" ++ flag.name ++
      "' found; no more were expected"
  | .repeatedFlag flag => "the argument '--" ++ flag.name ++ "' cannot be used multiple times"
  | .missingFile => "a value is required for '[FILE]' but none was supplied"

inductive Argument where
  /-- Two dashes; behind them every argument is a file name. -/
  | separator
  | flag (known : Flag)
  | file (name : String)
  | refused (error : UsageError)
  deriving DecidableEq, Repr

namespace Argument

/-- Two dashes and a text: the name of a flag, and a value if there is an equals sign. -/
def ofLong (text : List Char) : Argument :=
  let name := String.ofList (text.takeWhile (· ≠ '='))
  match Flag.ofName? name, text.dropWhile (· ≠ '=') with
  | none, _ => .refused (.unexpectedArgument ("--" ++ name))
  | some known, [] => .flag known
  | some known, _ :: value => .refused (.unexpectedValue known (String.ofList value))

/-- One dash and letters, of which the first decides. -/
def ofShort (letter : Char) : Argument :=
  match Flag.ofLetter? letter with
  | none => .refused (.unexpectedArgument ("-" ++ letter.toString))
  | some known => .flag known

def ofString (argument : String) : Argument :=
  match argument.toList with
  | ['-', '-'] => .separator
  | '-' :: '-' :: text => ofLong text
  | '-' :: letter :: _ => ofShort letter
  | _ => .file argument

end Argument

/-- How a scan is to be shown. -/
structure Options where
  pretty : Bool
  time : Bool
  deriving DecidableEq, Repr

inductive Invocation where
  | help
  /-- Scan a file, or without one the lines of the standard input. -/
  | scan (options : Options) (file? : Option String)
  deriving DecidableEq, Repr

/-- The arguments accepted so far. -/
structure Request where
  options : Options
  file? : Option String
  deriving DecidableEq, Repr

namespace Request

def empty : Request := ⟨⟨false, false⟩, none⟩

/-- The request, unless its file name is empty. -/
def settle (request : Request) : Except UsageError Request :=
  if request.file? = some "" then .error .missingFile else .ok request

def addFile (request : Request) (file : String) : Except UsageError Request :=
  match request.file? with
  | none => .ok { request with file? := some file }
  | some _ => .error (.unexpectedArgument file)

/-- Switches something on that was off; asking for help switches nothing. -/
def addFlag (request : Request) (flag : Flag) : Except UsageError Request :=
  match flag with
  | .help => .ok request
  | .pretty =>
    if request.options.pretty then .error (.repeatedFlag .pretty)
    else .ok { request with options.pretty := true }
  | .time =>
    if request.options.time then .error (.repeatedFlag .time)
    else .ok { request with options.time := true }

def toInvocation (request : Request) : Except UsageError Invocation := do
  let request ← request.settle
  return .scan request.options request.file?

def read (request : Request) : (arguments : List String) → Except UsageError Invocation
  | [] => request.toInvocation
  | argument :: arguments =>
    match Argument.ofString argument with
    | .separator => do (← arguments.foldlM addFile request).toInvocation
    | .file name => do (← request.addFile name).read arguments
    | .refused error => .error error
    | .flag flag => do
      let request ← request.settle
      if flag = .help then return .help
      (← request.addFlag flag).read arguments

end Request

def Invocation.parse (arguments : List String) : Except UsageError Invocation :=
  Request.empty.read arguments

end LoxLexer
