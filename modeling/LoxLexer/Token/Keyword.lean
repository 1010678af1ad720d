/-!
# Keywords

The sixteen reserved words.  Each is written in lower case, and a word is looked up as it stands.
-/

namespace LoxLexer

inductive Keyword where
  | and | «class» | else | false | for | fun | if | nil
  | or | print | return | super | this | true | var | while
  deriving DecidableEq, Repr

namespace Keyword

def all : List Keyword :=
  [.and, .class, .else, .false, .for, .fun, .if, .nil, .or, .print, .return, .super, .this, .true,
    .var, .while]

def name : Keyword → String
  | .and => "And"
  | .class => "Class"
  | .else => "Else"
  | .false => "False"
  | .for => "For"
  | .fun => "Fun"
  | .if => "If"
  | .nil => "Nil"
  | .or => "Or"
  | .print => "Print"
  | .return => "Return"
  | .super => "Super"
  | .this => "This"
  | .true => "True"
  | .var => "Var"
  | .while => "While"

def text : Keyword → String
  | .and => "and"
  | .class => "class"
  | .else => "else"
  | .false => "false"
  | .for => "for"
  | .fun => "fun"
  | .if => "if"
  | .nil => "nil"
  | .or => "or"
  | .print => "print"
  | .return => "return"
  | .super => "super"
  | .this => "this"
  | .true => "true"
  | .var => "var"
  | .while => "while"

def ofText? (word : String) : Option Keyword :=
  all.find? (·.text = word)

theorem ofText?_text (keyword : Keyword) : ofText? keyword.text = some keyword := by
  cases keyword <;> decide

theorem text_of_ofText? {word : String} {keyword : Keyword} (hword : ofText? word = some keyword) :
    keyword.text = word := by
  simpa using List.find?_some hword

end Keyword

end LoxLexer
