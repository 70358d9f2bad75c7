/-!
# Character classes of the language

The classes are asked of code points, which are any integers: a number that names
no character belongs to no ASCII class, and so counts as a word character.

Words are cut by `isWord` together with white space; `isIdentifier` then decides
which words can name a variable.
-/

set_option autoImplicit false

namespace LetExit

/-- A number that may or may not name a character. -/
abbrev CodePoint := Int

/-- The code point of a character. -/
def CodePoint.ofChar (c : Char) : CodePoint :=
  c.toNat

namespace CharClass

/-- The ASCII digits. -/
def isDigit (p : CodePoint) : Bool :=
  0x30 ≤ p && p ≤ 0x39

/-- The underscore. -/
def isUnderscore (p : CodePoint) : Bool :=
  p == 0x5F

/-- The ASCII letters. -/
def isLetter (p : CodePoint) : Bool :=
  (0x61 ≤ p && p ≤ 0x7A) || (0x41 ≤ p && p ≤ 0x5A)

/-- The characters a name may hold after its first one. -/
def isNameChar (p : CodePoint) : Bool :=
  isLetter p || isUnderscore p || isDigit p

/-- The printable ASCII characters that are neither letters, digits nor the space. -/
def isPunctuation (p : CodePoint) : Bool :=
  (0x21 ≤ p && p ≤ 0x2F) || (0x3A ≤ p && p ≤ 0x40) || (0x5B ≤ p && p ≤ 0x60)
    || (0x7B ≤ p && p ≤ 0x7E)

/-- The characters that can stand inside a word: all but punctuation, and of that the
underscore and the two signs, so that `a_b` and `-5` stay in one piece.  White space belongs
to this class too and ends a word by a rule of its own. -/
def isWord (p : CodePoint) : Bool :=
  p == 0x5F || p == 0x2D || p == 0x2B || !isPunctuation p

end CharClass

/-- Whether a word can name a variable: an ASCII letter followed by ASCII letters, digits and
underscores. -/
def isIdentifier : List Char → Bool
  | [] => false
  | c :: rest =>
    CharClass.isLetter (.ofChar c) && rest.all fun d => CharClass.isNameChar (.ofChar d)

end LetExit
