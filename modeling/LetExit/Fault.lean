import LetExit.Text.Printable
import LetExit.Text.Quoted
import LetExit.Token

/-!
# Faults of a source text

Everything that can stop the reading of a program, from the bytes up to the scoping
rules, is a `Fault`.  The wording is in `Fault.message` alone.
-/

set_option autoImplicit false

namespace LetExit

/-- Why a token or a program could not be read. -/
inductive Fault where
  /-- The text ended.  This is an answer rather than an error where more may be asked for. -/
  | endOfInput
  /-- The source of the text failed with a reason of its own. -/
  | readFailed (reason : String)
  /-- The byte at this position belongs to no character. -/
  | invalidEncoding (position : Position)
  /-- A character that starts no token. -/
  | invalidCharacter (point : CodePoint) (position : Position)
  /-- A word that is neither a keyword, an integer in range nor a name. -/
  | invalidWord (word : Bytes) (position : Position)
  /-- A token that starts no statement or no expression. -/
  | unexpectedToken (token : Token)
  /-- A token other than the only kind that can stand here. -/
  | expectedToken (expected : Token.Kind) (token : Token)
  /-- A `let` of a name that has been declared before. -/
  | duplicateDeclaration (name : String) (token : Token)
  /-- An expression that names no completed `let`. -/
  | undeclaredReference (name : String) (token : Token)
  /-- The tokens ended inside a statement. -/
  | tokensExhausted
deriving DecidableEq, Repr

namespace Fault

/-- What is wrong with a byte that belongs to no character. -/
def encodingCause : String :=
  "invalid utf-8 encoding"

/-- The message of a fault, for a choice of the characters that show as themselves. -/
def messageWith (printable : Char → Bool) : Fault → String
  | endOfInput => "EOF"
  | readFailed reason => reason
  | invalidEncoding p => "Tokenizer: " ++ encodingCause ++ " at " ++ p.text
  | invalidCharacter point p =>
    "Tokenizer: invalid control character " ++ String.ofList (Quoted.codePoint printable point)
      ++ " at " ++ p.text
  | invalidWord word p =>
    "Tokenizer: invalid token " ++ String.ofList (Quoted.bytes printable word) ++ " at " ++ p.text
  | unexpectedToken t => "Parser: unexpected token " ++ t.text ++ " at " ++ t.position.text
  | expectedToken kind t =>
    "Parser: expected " ++ kind.name ++ " but got " ++ t.text ++ " at " ++ t.position.text
  | duplicateDeclaration name t =>
    "Parser: identifier " ++ name ++ " is already declared, redeclared at " ++ t.position.text
  | undeclaredReference name t =>
    "Parser: identifier " ++ name ++ " is not declared, referenced at " ++ t.position.text
  | tokensExhausted => "Parser: unexpected end of token stream"

/-- The message of a fault. -/
def message : Fault → String :=
  messageWith isPrintable

end Fault

end LetExit
