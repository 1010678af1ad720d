import LoxLexer.Fault.Basic
import LoxLexer.Number.Rounding
import LoxLexer.Text.Cursor
import LoxLexer.Token.Basic

/-!
# Segments of a source

A source is cut into segments: blanks, comments, the texts of tokens, and texts that are faulty.
Each segment is as long as its class allows.  `cut` loses nothing (`flatMap_chars_cut`): the
segments in their order are the source again.

A segment stands for at most one token and at most one fault.
-/

namespace LoxLexer

/-- A character that separates tokens. -/
def isBlank (c : Char) : Bool :=
  c = ' ' || c = '\t' || c = '\r' || c = '\n'

/-- A character that begins a word: an ASCII letter or an underscore. -/
def isWordStart (c : Char) : Bool :=
  c.isAlpha || c = '_'

/-- A character that continues a word: an ASCII letter or digit, or an underscore. -/
def isWordPart (c : Char) : Bool :=
  c.isAlphanum || c = '_'

inductive Segment where
  | blank (c : Char)
  /-- Two slashes and all that follows them on their line. -/
  | comment (body : List Char)
  | operator (op : Operator)
  | number (numeral : Numeral)
  | word (text : List Char)
  /-- The characters between two quotes. -/
  | string (body : List Char)
  /-- The characters behind a quote that is not followed by another. -/
  | openString (body : List Char)
  /-- A character that begins nothing else. -/
  | stray (c : Char)
  deriving DecidableEq, Repr

namespace Segment

/-- The part of the source that the segment takes. -/
def chars : Segment → List Char
  | .blank c => [c]
  | .comment body => '/' :: '/' :: body
  | .operator op => op.chars
  | .number numeral => numeral.chars
  | .word text => text
  | .string body => '"' :: body ++ ['"']
  | .openString body => '"' :: body
  | .stray c => [c]

/-! ## Cutting -/

/-- The string behind an opening quote, and what follows it. -/
def readString (text : List Char) : Segment × List Char :=
  match text.dropWhile (· ≠ '"') with
  | [] => (.openString text, [])
  | _ :: rest => (.string (text.takeWhile (· ≠ '"')), rest)

theorem chars_readString_append (text : List Char) :
    (readString text).1.chars ++ (readString text).2 = '"' :: text := by
  have hsplit := List.takeWhile_append_dropWhile (p := (· ≠ '"')) (l := text)
  unfold readString
  split
  · simp [chars]
  · next c rest hrest =>
    have hquote : c = '"' := by
      have hnot := List.head?_dropWhile_not (· ≠ '"') text
      rw [hrest] at hnot
      simpa using hnot
    rw [hrest, hquote] at hsplit
    simpa [chars] using hsplit

/-- The first segment of the text `c :: rest`, and what follows it. -/
def read (c : Char) (rest : List Char) : Segment × List Char :=
  if isBlank c then (.blank c, rest)
  else if c = '/' ∧ rest.head? = some '/' then
    (.comment (rest.tail.takeWhile (· ≠ '\n')), rest.tail.dropWhile (· ≠ '\n'))
  else if c = '"' then readString rest
  else if c.isDigit then
    let (numeral, after) := Numeral.read (c :: rest)
    (.number numeral, after)
  else if isWordStart c then
    (.word (c :: rest.takeWhile isWordPart), rest.dropWhile isWordPart)
  else
    match Operator.read? c rest with
    | some (op, after) => (.operator op, after)
    | none => (.stray c, rest)

/-- Reading loses nothing. -/
theorem chars_read_append (c : Char) (rest : List Char) :
    (read c rest).1.chars ++ (read c rest).2 = c :: rest := by
  unfold read
  split
  · rfl
  split
  · next hslash =>
    obtain ⟨hc, hrest⟩ := hslash
    obtain ⟨tail, rfl⟩ := List.head?_eq_some_iff.mp hrest
    simp [chars, hc]
  split
  · next hquote => rw [chars_readString_append, hquote]
  split
  · exact Numeral.chars_read_append (c :: rest)
  split
  · simp [chars]
  split
  · next op after hread => exact Operator.chars_append_of_read? hread
  · rfl

theorem chars_read_ne_nil (c : Char) (rest : List Char) : (read c rest).1.chars ≠ [] := by
  unfold read
  split
  · simp [chars]
  split
  · simp [chars]
  split
  · unfold readString
    split <;> simp [chars]
  split
  · next hdigit =>
    apply Numeral.chars_ne_nil
    simp [Numeral.whole_read, hdigit]
  split
  · simp [chars]
  split
  · next op _ _ => exact op.chars_ne_nil
  · simp [chars]

theorem length_read_lt (c : Char) (rest : List Char) :
    (read c rest).2.length < (c :: rest).length := by
  have hlength := congrArg List.length (chars_read_append c rest)
  have hpos := List.length_pos_iff.mpr (chars_read_ne_nil c rest)
  rw [List.length_append] at hlength
  omega

/-- Appends the segments of a text to `done`. -/
def cutOnto (done : Array Segment) : (text : List Char) → Array Segment
  | [] => done
  | c :: rest => cutOnto (done.push (read c rest).1) (read c rest).2
termination_by text => text.length
decreasing_by exact length_read_lt c rest

def cut (text : List Char) : List Segment :=
  (cutOnto #[] text).toList

theorem toList_cutOnto (done : Array Segment) (text : List Char) :
    (cutOnto done text).toList = done.toList ++ cut text := by
  match text with
  | [] => simp [cutOnto, cut]
  | c :: rest =>
    have hcut : cut (c :: rest) = (cutOnto (#[].push (read c rest).1) (read c rest).2).toList := by
      rw [cut, cutOnto]
    rw [hcut, cutOnto, toList_cutOnto, toList_cutOnto]
    simp
termination_by text.length
decreasing_by all_goals exact length_read_lt c rest

@[simp] theorem cut_nil : cut [] = [] := by
  simp [cut, cutOnto]

theorem cut_cons (c : Char) (rest : List Char) :
    cut (c :: rest) = (read c rest).1 :: cut (read c rest).2 := by
  rw [cut, cutOnto, toList_cutOnto]
  simp

theorem flatMap_chars_cut (text : List Char) : (cut text).flatMap chars = text := by
  match text with
  | [] => simp
  | c :: rest =>
    rw [cut_cons, List.flatMap_cons, flatMap_chars_cut, chars_read_append]
termination_by text.length
decreasing_by exact length_read_lt c rest

/-! ## Meaning -/

/-- The token that a segment on the given line stands for. -/
def token? (line : Nat) : Segment → Option Token
  | .operator op => some ⟨.operator op, String.ofList op.chars, none, line⟩
  | .number numeral =>
    some ⟨.number, String.ofList numeral.chars, some (.number numeral.toBinary64), line⟩
  | .word text => some ⟨.ofWord (String.ofList text), String.ofList text, none, line⟩
  | .string body =>
    let lexeme := String.ofList ('"' :: body ++ ['"'])
    some ⟨.string, lexeme, some (.string (String.ofList body)), line⟩
  | .blank _ | .comment _ | .openString _ | .stray _ => none

/-- The fault in a segment from `start` to `stop`.  An open string is noticed where it stops. -/
def fault? (start stop : Cursor) : Segment → Option Fault
  | .openString _ => some ⟨.unterminatedString, stop.line, start.position⟩
  | .stray c => some ⟨.unexpectedCharacter c, start.line, start.position⟩
  | .blank _ | .comment _ | .operator _ | .number _ | .word _ | .string _ => none

end Segment

end LoxLexer
