import LetExit.Text.Printable
import LetExit.Text.Quoted

/-!
# Log lines

A log entry is one line of `key=value` pairs: the level, the message, and then the
fields sorted by key.  A value stands as it is if it is made of letters, digits and a
few signs, and is quoted otherwise.
-/

set_option autoImplicit false

namespace LetExit

namespace Log

/-- How important an entry is. -/
inductive Level where
  | debug
  | info
  | error
deriving DecidableEq, Repr

/-- The name of a level. -/
def Level.name : Level → String
  | .debug => "debug"
  | .info => "info"
  | .error => "error"

/-- A log entry. -/
structure Entry where
  level : Level
  message : Bytes
  fields : List (String × Bytes)
deriving DecidableEq, Repr

/-- Whether a character needs no quotes around it. -/
def isPlain (c : Char) : Bool :=
  c.isAlphanum || ['-', '.', '_', '/', '@', '^', '+'].contains c

/-- A value, in quotes unless it is plain. -/
def value (bytes : Bytes) : String :=
  let pieces := Utf8.pieces bytes
  let plain := pieces.all fun
    | .char c => isPlain c
    | .stray _ => false
  String.ofList (if plain then pieces.map Utf8.Piece.toChar else Quoted.bytes isPrintable bytes)

/-- The line of an entry. -/
def Entry.line (entry : Entry) : String :=
  let sorted := entry.fields.mergeSort fun a b => a.1 ≤ b.1
  let pairs := ("level", Utf8.ofString entry.level.name) :: ("msg", entry.message) :: sorted
  " ".intercalate (pairs.map fun (key, content) => key ++ "=" ++ value content) ++ "\n"

end Log

end LetExit
