import LoxLexer.Text.Cursor

/-!
# Lines of a source

Lines end with a line feed only, which belongs to the line it ends.  `lineAt?` finds the line that
holds a given byte of the source; every byte of a character, the line feed included, lies on the
line of that character.
-/

namespace LoxLexer

/-- A line of a source, seen from one of its bytes. -/
structure SourceLine where
  /-- The number of the line, from one. -/
  number : Nat
  /-- The line with its line feed, if it has one. -/
  text : List Char
  /-- The bytes of the line before the one it is seen from. -/
  offset : Nat
  deriving DecidableEq, Repr

namespace SourceLine

/-- The first line of a text, with its line feed. -/
def firstLine (text : List Char) : List Char :=
  text.takeWhile (· ≠ '\n') ++ (text.dropWhile (· ≠ '\n')).take 1

/-- Looks for the byte `distance` bytes ahead in `rest`.  The current line has the given number and
begins with `lineText`, of which `offset` bytes have been passed. -/
def find? (number : Nat) (lineText : List Char) (offset : Nat) :
    (distance : Nat) → (rest : List Char) → Option SourceLine
  | _, [] => none
  | distance, c :: rest =>
    if distance < c.utf8Size then
      some ⟨number, firstLine lineText, offset + distance⟩
    else if c = '\n' then
      find? (number + 1) rest 0 (distance - c.utf8Size) rest
    else
      find? number lineText (offset + c.utf8Size) (distance - c.utf8Size) rest

end SourceLine

/-- The line that holds the byte at `position`; there is none from the end of the source on. -/
def lineAt? (source : List Char) (position : Nat) : Option SourceLine :=
  SourceLine.find? 1 source 0 position source

end LoxLexer
