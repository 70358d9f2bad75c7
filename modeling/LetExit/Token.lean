import LetExit.Text.Decimal

/-!
# Tokens

A token is a word or a symbol of the source together with its kind, the number it
writes if it is an integer, and the position of its first character.
-/

set_option autoImplicit false

namespace LetExit

/-- A place in a source text.  Lines and columns are counted from 1. -/
structure Position where
  line : Int
  column : Int
deriving DecidableEq, Repr

namespace Position

/-- The position of the first character of a text. -/
def start : Position :=
  ⟨1, 1⟩

/-- The position after a character: only a line feed starts a new line, and every other
character takes one column. -/
def advance (p : Position) (c : Char) : Position :=
  if c = '\n' then ⟨p.line + 1, 1⟩ else ⟨p.line, p.column + 1⟩

/-- The text that names a position in messages. -/
def text (p : Position) : String :=
  "line " ++ Decimal.text p.line ++ ", column " ++ Decimal.text p.column

end Position

/-- The kinds of tokens.  A source text yields only the first eight; a token from elsewhere may
carry a code that stands for none of them. -/
inductive Token.Kind where
  | equals
  | letWord
  | exitWord
  | semicolon
  | parenOpen
  | parenClose
  | identifier
  | integer
  | other (code : Int)
deriving DecidableEq, Repr

namespace Token.Kind

/-- The number that stands for a kind. -/
def code : Kind → Int
  | equals => 0
  | letWord => 1
  | exitWord => 2
  | semicolon => 3
  | parenOpen => 4
  | parenClose => 5
  | identifier => 6
  | integer => 7
  | other n => n

/-- The kind that a number stands for. -/
def ofCode (n : Int) : Kind :=
  if n = 0 then equals
  else if n = 1 then letWord
  else if n = 2 then exitWord
  else if n = 3 then semicolon
  else if n = 4 then parenOpen
  else if n = 5 then parenClose
  else if n = 6 then identifier
  else if n = 7 then integer
  else other n

/-- The name of a kind in messages. -/
def name : Kind → String
  | equals => "EQ"
  | letWord => "LET"
  | exitWord => "EXIT"
  | semicolon => "SEMI"
  | parenOpen => "PAREN_OPEN"
  | parenClose => "PAREN_CLOSE"
  | identifier => "IDENT"
  | integer => "I64"
  | other n => "TokenType(" ++ Decimal.text n ++ ")"

/-- The kind of a symbol. -/
def ofSymbol? (c : Char) : Option Kind :=
  if c = '=' then some equals
  else if c = ';' then some semicolon
  else if c = '(' then some parenOpen
  else if c = ')' then some parenClose
  else none

/-- The kind of a keyword. -/
def ofKeyword? (word : List Char) : Option Kind :=
  if word = ['l', 'e', 't'] then some letWord
  else if word = ['e', 'x', 'i', 't'] then some exitWord
  else none

end Token.Kind

/-- A token: `content` is its text as written, `value` the number of an integer and 0 for all
other kinds that a source text yields. -/
structure Token where
  kind : Token.Kind
  content : String
  value : Int64
  position : Position
deriving DecidableEq, Repr

/-- The text that shows a token in messages. -/
def Token.text (t : Token) : String :=
  match t.kind with
  | .identifier => t.kind.name ++ "(" ++ t.content ++ ")"
  | .integer => t.kind.name ++ "(" ++ Decimal.text t.value.toInt ++ ")"
  | kind => kind.name

end LetExit
