/-!
# Operators and punctuation

The nineteen operators, each with its name and its fixed text.  Fifteen consist of one character;
the other four add an equals sign to one of those, and reading prefers the longer one.
-/

namespace LoxLexer

inductive Operator where
  | leftParen | rightParen | leftBrace | rightBrace
  | comma | dot | minus | plus | semicolon | star | slash
  | bang | bangEqual
  | equal | equalEqual
  | less | lessEqual
  | greater | greaterEqual
  deriving DecidableEq, Repr

namespace Operator

def all : List Operator :=
  [.leftParen, .rightParen, .leftBrace, .rightBrace, .comma, .dot, .minus, .plus, .semicolon,
    .star, .slash, .bang, .bangEqual, .equal, .equalEqual, .less, .lessEqual, .greater,
    .greaterEqual]

def name : Operator → String
  | .leftParen => "LeftParen"
  | .rightParen => "RightParen"
  | .leftBrace => "LeftBrace"
  | .rightBrace => "RightBrace"
  | .comma => "Comma"
  | .dot => "Dot"
  | .minus => "Minus"
  | .plus => "Plus"
  | .semicolon => "Semicolon"
  | .star => "Star"
  | .slash => "Slash"
  | .bang => "Bang"
  | .bangEqual => "BangEqual"
  | .equal => "Equal"
  | .equalEqual => "EqualEqual"
  | .less => "Less"
  | .lessEqual => "LessEqual"
  | .greater => "Greater"
  | .greaterEqual => "GreaterEqual"

def chars : Operator → List Char
  | .leftParen => ['(']
  | .rightParen => [')']
  | .leftBrace => ['{']
  | .rightBrace => ['}']
  | .comma => [',']
  | .dot => ['.']
  | .minus => ['-']
  | .plus => ['+']
  | .semicolon => [';']
  | .star => ['*']
  | .slash => ['/']
  | .bang => ['!']
  | .bangEqual => ['!', '=']
  | .equal => ['=']
  | .equalEqual => ['=', '=']
  | .less => ['<']
  | .lessEqual => ['<', '=']
  | .greater => ['>']
  | .greaterEqual => ['>', '=']

theorem chars_ne_nil (op : Operator) : op.chars ≠ [] := by
  cases op <;> simp [chars]

/-- The operator that consists of one character. -/
def ofChar? : Char → Option Operator
  | '(' => some .leftParen
  | ')' => some .rightParen
  | '{' => some .leftBrace
  | '}' => some .rightBrace
  | ',' => some .comma
  | '.' => some .dot
  | '-' => some .minus
  | '+' => some .plus
  | ';' => some .semicolon
  | '*' => some .star
  | '/' => some .slash
  | '!' => some .bang
  | '=' => some .equal
  | '<' => some .less
  | '>' => some .greater
  | _ => none

/-- The operator that consists of the given one and an equals sign. -/
def withEqual? : Operator → Option Operator
  | .bang => some .bangEqual
  | .equal => some .equalEqual
  | .less => some .lessEqual
  | .greater => some .greaterEqual
  | _ => none

theorem chars_of_ofChar? {c : Char} {op : Operator} (hop : ofChar? c = some op) :
    op.chars = [c] := by
  unfold ofChar? at hop
  split at hop <;> cases hop <;> rfl

theorem chars_of_withEqual? {op wide : Operator} (hwide : op.withEqual? = some wide) :
    wide.chars = op.chars ++ ['='] := by
  cases op <;> cases hwide <;> rfl

/-- The longest operator at the beginning of a text, and what follows it. -/
def read? (c : Char) (rest : List Char) : Option (Operator × List Char) :=
  match ofChar? c with
  | none => none
  | some op =>
    match op.withEqual?, rest with
    | some wide, '=' :: rest => some (wide, rest)
    | _, rest => some (op, rest)

theorem chars_append_of_read? {c : Char} {rest after : List Char} {op : Operator}
    (hread : read? c rest = some (op, after)) : op.chars ++ after = c :: rest := by
  unfold read? at hread
  cases hop : ofChar? c with
  | none => simp [hop] at hread
  | some narrow =>
    simp only [hop] at hread
    split at hread
    · next wide tail hwide =>
      cases hread
      simp [chars_of_withEqual? hwide, chars_of_ofChar? hop]
    · cases hread
      simp [chars_of_ofChar? hop]

end Operator

end LoxLexer
