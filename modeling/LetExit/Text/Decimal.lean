/-!
# Decimal integers

`Decimal.ofInt` writes an integer in its shortest form.  `Decimal.toInt?` reads an
optional sign followed by at least one digit, with any number of leading zeros, and
`Decimal.toInt64?` also refuses what does not fit into 64 bits.
-/

set_option autoImplicit false

namespace LetExit

namespace Decimal

/-- The decimal digits of an integer, with `-` in front of a negative one. -/
def ofInt (n : Int) : List Char :=
  if n < 0 then '-' :: Nat.toDigits 10 n.natAbs else Nat.toDigits 10 n.natAbs

/-- The text of an integer. -/
def text (n : Int) : String :=
  String.ofList (ofInt n)

/-- The number written by one or more digits. -/
def toNat? (digits : List Char) : Option Nat :=
  if digits.isEmpty || !digits.all Char.isDigit then none else some (Nat.ofDigitChars 10 digits 0)

/-- The number written by an optional sign and one or more digits. -/
def toInt? : List Char → Option Int
  | '-' :: digits => (toNat? digits).map fun (n : Nat) => -(n : Int)
  | '+' :: digits => (toNat? digits).map Int.ofNat
  | digits => (toNat? digits).map Int.ofNat

/-- Whether an integer fits into a signed 64-bit word. -/
def fits64 (n : Int) : Bool :=
  -9223372036854775808 ≤ n && n ≤ 9223372036854775807

/-- The signed 64-bit number written by an optional sign and one or more digits. -/
def toInt64? (word : List Char) : Option Int64 :=
  match toInt? word with
  | some n => if fits64 n then some (Int64.ofInt n) else none
  | none => none

end Decimal

end LetExit
