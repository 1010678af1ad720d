import LoxLexer.Number.Shortest
import LoxLexer.Token.Kind

/-!
# Tokens

A token records its kind, the text it was cut from, the value that text denotes if it denotes one,
and the line it begins on.  It is shown as the first three of these, separated by spaces, with
nothing in the third place if there is no value.
-/

namespace LoxLexer

inductive Literal where
  | string (value : String)
  | number (value : Binary64)
  deriving DecidableEq, Repr

namespace Literal

def text : Literal → String
  | .string value => value
  | .number value => value.text

/-- Equality of values, where numbers are equal as numbers. -/
def equals : Literal → Literal → Bool
  | .string left, .string right => left == right
  | .number left, .number right => left.equals right
  | _, _ => false

end Literal

structure Token where
  kind : TokenKind
  lexeme : String
  literal : Option Literal
  line : Nat
  deriving DecidableEq, Repr

namespace Token

/-- Whether two places for a literal are both empty or hold equal values. -/
def sameLiteral : Option Literal → Option Literal → Bool
  | none, none => true
  | some left, some right => left.equals right
  | _, _ => false

/-- Equality in every field, where numbers are equal as numbers. -/
def equals (left right : Token) : Bool :=
  left.kind == right.kind && left.lexeme == right.lexeme &&
    sameLiteral left.literal right.literal && left.line == right.line

def text (token : Token) : String :=
  token.kind.name ++ " " ++ token.lexeme ++ " " ++ (token.literal.map Literal.text).getD ""

/-- Whether the kind is the keyword that the lexeme spells. -/
def isKeyword (token : Token) : Bool :=
  match Keyword.ofText? token.lexeme with
  | some reserved => token.kind = .keyword reserved
  | none => false

def number? (token : Token) : Option Binary64 :=
  match token.literal with
  | some (.number value) => some value
  | _ => none

def string? (token : Token) : Option String :=
  match token.literal with
  | some (.string value) => some value
  | _ => none

def endOfSource (line : Nat) : Token :=
  ⟨.endOfSource, "", none, line⟩

end Token

end LoxLexer
