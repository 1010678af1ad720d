/-!
# Control sequences

A text quoted in a message is shown without what would control a terminal: the sequences that an
escape character opens, and control characters other than white space.

White space within a sequence is shown as well, and interrupts it: the text behind it is shown up to
the next control character, behind which the sequence goes on.  A character outside ASCII in such a
text ends the sequence for good.
-/

namespace LoxLexer

/-- How far a text has gone into a control sequence. -/
inductive ControlState where
  | outside
  | escape
  /-- Behind the escape character and intermediate characters. -/
  | intermediate
  /-- Behind `ESC [`. -/
  | sequence
  /-- Behind `ESC P`, which opens a string for a device. -/
  | deviceStart
  /-- Among the parameters of such a string. -/
  | deviceParameter
  /-- Among the intermediate characters of such a string. -/
  | deviceIntermediate
  /-- In a string that a byte `9C` ends. -/
  | string
  /-- Behind `ESC ]`, in a string that a bell ends. -/
  | systemCommand
  deriving DecidableEq, Repr

/-- A control character that is white space. -/
def isControlSpace (c : Char) : Bool :=
  c = '\t' || c = '\n' || c = '\x0c' || c = '\r'

/-- A character that is shown outside of sequences. -/
def isPrinted (c : Char) : Bool :=
  ' ' ≤ c && c ≠ '\x7f' || isControlSpace c

namespace ControlState

def isIntermediate (c : Char) : Bool :=
  ' ' ≤ c && c ≤ '/'

def isParameter (c : Char) : Bool :=
  '0' ≤ c && c ≤ '?'

def isFinal (c : Char) : Bool :=
  '@' ≤ c && c ≤ '~'

/-- Whether the UTF-8 form of a character holds the byte that ends a string. -/
def endsString (c : Char) : Bool :=
  (String.utf8EncodeChar c).contains 0x9C

/-- The state behind an escape character and one more character. -/
def afterEscape (c : Char) : ControlState :=
  match c with
  | '[' => .sequence
  | ']' => .systemCommand
  | 'P' => .deviceStart
  | 'X' | '^' | '_' => .string
  | _ =>
    if isIntermediate c then .intermediate
    else if isParameter c || isFinal c then .outside
    else .escape

/-- The state behind one more character.  An escape character opens a sequence in every state, and
the characters cancel and substitute end every sequence. -/
def next (state : ControlState) (c : Char) : ControlState :=
  if c = '\x1b' then .escape
  else if c = '\x18' || c = '\x1a' then .outside
  else
    match state with
    | .outside => .outside
    | .escape => afterEscape c
    | .intermediate => if isParameter c || isFinal c then .outside else .intermediate
    | .sequence => if isFinal c then .outside else .sequence
    | .deviceStart =>
      if isIntermediate c then .deviceIntermediate
      else if isParameter c then .deviceParameter
      else if isFinal c then .string
      else .deviceStart
    | .deviceParameter =>
      if isIntermediate c then .deviceIntermediate
      else if '<' ≤ c && isParameter c || isFinal c then .string
      else .deviceParameter
    | .deviceIntermediate => if isParameter c || isFinal c then .string else .deviceIntermediate
    | .string => if endsString c then .outside else .string
    | .systemCommand => if c = '\x07' then .outside else .systemCommand

def showsSpace : ControlState → Bool
  | .outside | .escape | .intermediate | .sequence => true
  | .deviceStart | .deviceParameter | .deviceIntermediate | .string | .systemCommand => false

end ControlState

/-- What is shown of a text up to some place, and what was open there. -/
structure VisibleText where
  shown : Array Char
  state : ControlState
  /-- Whether white space has interrupted the sequence. -/
  interrupted : Bool

namespace VisibleText

def empty : VisibleText := ⟨#[], .outside, false⟩

def add (text : VisibleText) (c : Char) : VisibleText :=
  if text.state = .outside || text.interrupted then
    if isPrinted c then
      { text with
        shown := text.shown.push c
        state := if c.toNat < 0x80 then text.state else .outside }
    else { text with state := text.state.next c, interrupted := false }
  else if isControlSpace c && text.state.showsSpace then
    { text with shown := text.shown.push c, interrupted := true }
  else { text with state := text.state.next c }

end VisibleText

def withoutControls (text : String) : String :=
  String.ofList (text.toList.foldl VisibleText.add .empty).shown.toList

end LoxLexer
