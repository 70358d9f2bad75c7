/-!
# UTF-8

Characters are read from bytes one at a time.  The bytes in front of the reader
either start with a well-formed encoding, which is the next character, or they do
not, and then the first byte alone is set aside as a stray byte.  Well-formed means
the shortest form of a Unicode scalar value: no surrogate, no overlong form and
nothing above U+10FFFF.

The main definitions are `decode?`, which reads one character, `pieces`, which cuts
a whole byte string into characters and stray bytes, and `isSettled`, which says
whether more bytes could still change how the string starts.
-/

set_option autoImplicit false

namespace LetExit

/-- A string of bytes. -/
abbrev Bytes := List UInt8

namespace Utf8

/-- The bytes of a sequence of characters. -/
def encode (text : List Char) : Bytes :=
  text.flatMap String.utf8EncodeChar

/-- The bytes of a string. -/
def ofString (text : String) : Bytes :=
  encode text.toList

/-- What a leading byte announces: the length of the encoding and, where it depends on the
leading byte, the range of the second byte. -/
inductive Lead where
  | one
  | two
  | three (low high : UInt8)
  | four (low high : UInt8)
deriving DecidableEq, Repr

/-- The leading bytes of well-formed encodings. -/
def lead? (b : UInt8) : Option Lead :=
  if b ≤ 0x7F then some .one
  else if b < 0xC2 then none
  else if b ≤ 0xDF then some .two
  else if b = 0xE0 then some (.three 0xA0 0xBF)
  else if b = 0xED then some (.three 0x80 0x9F)
  else if b ≤ 0xEF then some (.three 0x80 0xBF)
  else if b = 0xF0 then some (.four 0x90 0xBF)
  else if b ≤ 0xF3 then some (.four 0x80 0xBF)
  else if b = 0xF4 then some (.four 0x80 0x8F)
  else none

/-- Whether a byte lies between two others, both included. -/
def within (low high b : UInt8) : Bool :=
  low ≤ b && b ≤ high

/-- Whether a byte continues an encoding. -/
def isTail (b : UInt8) : Bool :=
  within 0x80 0xBF b

/-- The character at the front of the bytes and the bytes after it, if they start with a
well-formed encoding. -/
def decode? : Bytes → Option (Char × Bytes)
  | [] => none
  | b₀ :: rest =>
    match lead? b₀, rest with
    | some .one, rest => some (Char.ofNat b₀.toNat, rest)
    | some .two, b₁ :: rest =>
      if isTail b₁ then
        some (Char.ofNat (b₀.toNat % 32 * 64 + b₁.toNat % 64), rest)
      else none
    | some (.three low high), b₁ :: b₂ :: rest =>
      if within low high b₁ && isTail b₂ then
        some (Char.ofNat (b₀.toNat % 16 * 4096 + b₁.toNat % 64 * 64 + b₂.toNat % 64), rest)
      else none
    | some (.four low high), b₁ :: b₂ :: b₃ :: rest =>
      if within low high b₁ && isTail b₂ && isTail b₃ then
        some (Char.ofNat (b₀.toNat % 8 * 262144 + b₁.toNat % 64 * 4096 + b₂.toNat % 64 * 64
          + b₃.toNat % 64), rest)
      else none
    | _, _ => none

/-- Whether the start of the bytes is settled: they begin with a whole character, or with a
sequence that no further byte can complete.  The empty string is not settled. -/
def isSettled : Bytes → Bool
  | [] => false
  | b₀ :: rest =>
    match lead? b₀, rest with
    | none, _ => true
    | some .one, _ => true
    | some .two, rest => !rest.isEmpty
    | some (.three _ _), [] => false
    | some (.three low high), [b₁] => !within low high b₁
    | some (.three _ _), _ :: _ :: _ => true
    | some (.four _ _), [] => false
    | some (.four low high), [b₁] => !within low high b₁
    | some (.four low high), [b₁, b₂] => !(within low high b₁ && isTail b₂)
    | some (.four _ _), _ :: _ :: _ :: _ => true

/-- A character takes at least one byte. -/
theorem length_lt_of_decode? {bytes rest : Bytes} {c : Char}
    (h : decode? bytes = some (c, rest)) : rest.length < bytes.length := by
  cases bytes with
  | nil => simp [decode?] at h
  | cons b₀ tail =>
    simp only [decode?] at h
    split at h
    · simp_all
    · split at h
      · simp only [Option.some.injEq, Prod.mk.injEq] at h
        simp only [List.length_cons, ← h.2]
        omega
      · simp at h
    · split at h
      · simp only [Option.some.injEq, Prod.mk.injEq] at h
        simp only [List.length_cons, ← h.2]
        omega
      · simp at h
    · split at h
      · simp only [Option.some.injEq, Prod.mk.injEq] at h
        simp only [List.length_cons, ← h.2]
        omega
      · simp at h
    · simp at h

/-- One step of reading: a character, or a byte that starts none. -/
inductive Piece where
  | char (c : Char)
  | stray (b : UInt8)
deriving DecidableEq, Repr

/-- The first piece of a byte string that is not empty, and the bytes after it. -/
def first (b : UInt8) (rest : Bytes) : Piece × Bytes :=
  match decode? (b :: rest) with
  | some (c, after) => (.char c, after)
  | none => (.stray b, rest)

/-- The first piece takes at least the first byte. -/
theorem length_first_le (b : UInt8) (rest : Bytes) : (first b rest).2.length ≤ rest.length := by
  unfold first
  split
  case h_1 c after h =>
    have := length_lt_of_decode? h
    simp only [List.length_cons] at this
    exact Nat.lt_succ_iff.mp this
  case h_2 => exact Nat.le_refl _

/-- The characters and stray bytes of a byte string, in order. -/
def pieces : Bytes → List Piece
  | [] => []
  | b :: rest =>
    let step := first b rest
    step.1 :: pieces step.2
termination_by bytes => bytes.length
decreasing_by exact Nat.lt_succ_of_le (length_first_le b rest)

/-- The character a piece stands for, where U+FFFD replaces a stray byte. -/
def Piece.toChar : Piece → Char
  | .char c => c
  | .stray _ => '�'

end Utf8

end LetExit
