import LoxLexer.Token.Keyword
import LoxLexer.Token.Operator

/-!
# Kinds of tokens
-/

namespace LoxLexer

inductive TokenKind where
  | operator (op : Operator)
  | keyword (reserved : Keyword)
  | string
  | number
  | identifier
  | endOfSource
  deriving DecidableEq, Repr

namespace TokenKind

def name : TokenKind → String
  | .operator op => op.name
  | .keyword reserved => reserved.name
  | .string => "String"
  | .number => "Number"
  | .identifier => "Identifier"
  | .endOfSource => "EOF"

def all : List TokenKind :=
  Operator.all.map .operator ++ Keyword.all.map .keyword ++
    [.string, .number, .identifier, .endOfSource]

def ofName? (name : String) : Option TokenKind :=
  all.find? (·.name = name)

theorem ofName?_name (kind : TokenKind) : ofName? kind.name = some kind := by
  cases kind with
  | operator op => cases op <;> decide +kernel
  | keyword reserved => cases reserved <;> decide +kernel
  | string => decide +kernel
  | number => decide +kernel
  | identifier => decide +kernel
  | endOfSource => decide +kernel

/-- The kind of a word: a keyword, or else an identifier. -/
def ofWord (word : String) : TokenKind :=
  match Keyword.ofText? word with
  | some reserved => .keyword reserved
  | none => .identifier

end TokenKind

end LoxLexer
