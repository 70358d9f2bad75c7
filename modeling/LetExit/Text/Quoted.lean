import LetExit.Text.CharClass
import LetExit.Text.Utf8

/-!
# Quoted text

Text that comes from a source file is quoted in messages, so that a message stays
on one line and shows what cannot be seen.  A quoted text stands between two
delimiters.  Inside, the delimiter and the backslash follow a backslash, printable
characters stand for themselves, and all else is an escape: a letter for the seven
common controls, `\x` with two hexadecimal digits for the other ASCII controls and for
bytes that belong to no character, `\u` with four digits and `\U` with eight for the
remaining characters.

Which characters are printable is a parameter.
-/

set_option autoImplicit false

namespace LetExit

namespace Quoted

/-- The last `width` hexadecimal digits of a number, in lower case. -/
def hex : Nat → Nat → List Char
  | 0, _ => []
  | width + 1, n => hex width (n / 16) ++ [Nat.digitChar (n % 16)]

/-- The letter that stands for a common control character after a backslash. -/
def controlLetter? (c : Char) : Option Char :=
  match c.toNat with
  | 0x07 => some 'a'
  | 0x08 => some 'b'
  | 0x09 => some 't'
  | 0x0A => some 'n'
  | 0x0B => some 'v'
  | 0x0C => some 'f'
  | 0x0D => some 'r'
  | _ => none

/-- One character between delimiters. -/
def char (printable : Char → Bool) (delimiter c : Char) : List Char :=
  if c = delimiter || c = '\\' then ['\\', c]
  else if printable c then [c]
  else match controlLetter? c with
    | some letter => ['\\', letter]
    | none =>
      if c.toNat < 0x20 || c.toNat = 0x7F then '\\' :: 'x' :: hex 2 c.toNat
      else if c.toNat < 0x10000 then '\\' :: 'u' :: hex 4 c.toNat
      else '\\' :: 'U' :: hex 8 c.toNat

/-- One piece of a byte string between delimiters. -/
def piece (printable : Char → Bool) (delimiter : Char) : Utf8.Piece → List Char
  | .char c => char printable delimiter c
  | .stray b => '\\' :: 'x' :: hex 2 b.toNat

/-- A byte string between double quotes. -/
def bytes (printable : Char → Bool) (text : Bytes) : List Char :=
  '"' :: (Utf8.pieces text).flatMap (piece printable '"') ++ ['"']

/-- The character a code point names, where U+FFFD stands in for a number that names none. -/
def charOf (p : CodePoint) : Char :=
  if p.toNat.isValidChar && 0 ≤ p then Char.ofNat p.toNat else '�'

/-- A code point between single quotes. -/
def codePoint (printable : Char → Bool) (p : CodePoint) : List Char :=
  '\'' :: char printable '\'' (charOf p) ++ ['\'']

end Quoted

end LetExit
