import LetExit.Fault
import LetExit.Proofs.Decimal
import LetExit.Proofs.Utf8

/-!
# Messages say which word was refused, and where

A quoted byte string can be read back.  `Quoted.unquote?` knows the escapes and nothing of the
characters that were printable when the text was quoted: a character that is no backslash and no
delimiter stands for itself, and everything else starts with a backslash, whose next character
tells what kind of escape it is and how long.  So quoting loses nothing, whatever follows the
closing delimiter (`Quoted.unquote?_bytes`).

The text of a position can be read back too, so the message of an invalid word determines the word
and its position (`Fault.messageWith_invalidWord_inj`).  The other faults open their messages
differently (`Fault.source_or_word_of_messageWith`).
-/

set_option autoImplicit false

namespace LetExit

namespace Quoted

/-! ## Reading quoted text -/

/-- The number that a hexadecimal digit in lower case stands for. -/
def digitValue (d : Char) : Nat :=
  if d.isDigit then d.toNat - '0'.toNat else d.toNat - 'a'.toNat + 10

/-- The number that hexadecimal digits write. -/
def number (digits : List Char) : Nat :=
  digits.foldl (fun n d => 16 * n + digitValue d) 0

/-- The control character that a letter stands for after a backslash. -/
def control? (letter : Char) : Option Char :=
  if letter = 'a' then some (Char.ofNat 0x07)
  else if letter = 'b' then some (Char.ofNat 0x08)
  else if letter = 't' then some (Char.ofNat 0x09)
  else if letter = 'n' then some (Char.ofNat 0x0A)
  else if letter = 'v' then some (Char.ofNat 0x0B)
  else if letter = 'f' then some (Char.ofNat 0x0C)
  else if letter = 'r' then some (Char.ofNat 0x0D)
  else none

/-- How many digits follow the letter of an escape that writes a number. -/
def width? (letter : Char) : Option Nat :=
  if letter = 'x' then some 2
  else if letter = 'u' then some 4
  else if letter = 'U' then some 8
  else none

/-- The bytes that the number of an escape stands for: a byte after `x`, a character after the
other letters. -/
def numbered (letter : Char) (n : Nat) : Bytes :=
  if letter = 'x' then [UInt8.ofNat n] else String.utf8EncodeChar (Char.ofNat n)

/-- The bytes that an escape stands for and the text after it, where `letter` is the character
after the backslash. -/
def escaped (letter : Char) (rest : List Char) : Bytes × List Char :=
  match width? letter with
  | some width => (numbered letter (number (rest.take width)), rest.drop width)
  | none => (String.utf8EncodeChar ((control? letter).getD letter), rest)

/-- The bytes that the first character or escape of a text stands for and the text after it, if
it is not the closing delimiter that comes first. -/
def first? : List Char → Option (Bytes × List Char)
  | [] => none
  | c :: rest =>
    if c = '"' then none
    else if c = '\\' then
      match rest with
      | [] => none
      | letter :: later => some (escaped letter later)
    else some (String.utf8EncodeChar c, rest)

/-- An escape does not give back more than follows it. -/
theorem length_escaped_le (letter : Char) (rest : List Char) :
    (escaped letter rest).2.length ≤ rest.length := by
  unfold escaped
  split
  · rw [List.length_drop]
    exact Nat.sub_le _ _
  · exact Nat.le_refl _

/-- What is read from the front of a quoted text is at least one character. -/
theorem length_lt_of_first? {text rest : List Char} {bytes : Bytes}
    (h : first? text = some (bytes, rest)) : rest.length < text.length := by
  cases text with
  | nil => cases h
  | cons c tail =>
    simp only [first?] at h
    split at h
    · cases h
    · split at h
      · cases tail with
        | nil => cases h
        | cons letter later =>
          have hle := length_escaped_le letter later
          rw [Option.some.inj h] at hle
          exact Nat.lt_succ_of_le (Nat.le_succ_of_le hle)
      · obtain ⟨-, rfl⟩ := Prod.mk.inj (Option.some.inj h)
        exact Nat.lt_succ_self _

/-- The bytes in front of the closing delimiter, and the text after it. -/
def inside? (text : List Char) : Option (Bytes × List Char) :=
  match _h : first? text with
  | some (bytes, rest) => (inside? rest).map fun found => (bytes ++ found.1, found.2)
  | none => if text.head? = some '"' then some ([], text.tail) else none
termination_by text.length
decreasing_by exact length_lt_of_first? _h

/-- The byte string between the double quotes at the front of a text, and the text after them. -/
def unquote? : List Char → Option (Bytes × List Char)
  | [] => none
  | c :: rest => if c = '"' then inside? rest else none

/-! ## Quoted text is read back -/

/-- A hexadecimal digit has the value it is written for. -/
theorem digitValue_digitChar {d : Nat} (h : d < 16) : digitValue (Nat.digitChar d) = d := by
  have hall : ∀ d, d < 16 → digitValue (Nat.digitChar d) = d := by decide
  exact hall d h

/-- A further digit behind a number multiplies it by sixteen. -/
theorem number_concat (digits : List Char) (d : Char) :
    number (digits ++ [d]) = 16 * number digits + digitValue d := by
  rw [number, List.foldl_append]
  rfl

/-- A hexadecimal number has the width that is asked for. -/
theorem length_hex (width n : Nat) : (hex width n).length = width := by
  induction width generalizing n with
  | zero => rfl
  | succ width ih => rw [hex, List.length_append, ih, List.length_singleton]

/-- As many digits as a number needs write that number. -/
theorem number_hex {width n : Nat} (h : n < Nat.pow 16 width) : number (hex width n) = n := by
  induction width generalizing n with
  | zero =>
    have hn : n = 0 := Nat.lt_one_iff.mp h
    rw [hn]
    rfl
  | succ width ih =>
    have hlast : n % 16 < 16 := Nat.mod_lt _ (by decide)
    have hfront : n / 16 < Nat.pow 16 width := by
      apply Nat.div_lt_of_lt_mul
      rw [Nat.mul_comm]
      exact h
    rw [hex, number_concat, ih hfront, digitValue_digitChar hlast]
    omega

/-- The digits behind the letter of an escape are read back as their number. -/
theorem escaped_hex {letter : Char} {width n : Nat} (hwidth : width? letter = some width)
    (hn : n < Nat.pow 16 width) (rest : List Char) :
    escaped letter (hex width n ++ rest) = (numbered letter n, rest) := by
  have hlength := length_hex width n
  rw [escaped, hwidth]
  dsimp only
  rw [List.take_left' hlength, List.drop_left' hlength, number_hex hn]

/-- The letters of the common controls are read back, and none of them starts a number. -/
theorem escaped_controlLetter {c letter : Char} (h : controlLetter? c = some letter)
    (rest : List Char) : escaped letter rest = (String.utf8EncodeChar c, rest) := by
  have hc : c = Char.ofNat c.toNat := (Char.ofNat_toNat c).symm
  unfold controlLetter? at h
  split at h
  case h_8 => cases h
  all_goals
    rename_i hcode
    rw [hcode] at hc
    cases h
    rw [hc]
    rfl

/-- A backslash and a letter are read as an escape. -/
theorem first?_backslash (letter : Char) (rest : List Char) :
    first? ('\\' :: letter :: rest) = some (escaped letter rest) := by
  rw [first?, if_neg (by decide), if_pos rfl]

/-- A character that is neither a quote nor a backslash stands for itself. -/
theorem first?_cons {c : Char} (hquote : c ≠ '"') (hbackslash : c ≠ '\\') (rest : List Char) :
    first? (c :: rest) = some (String.utf8EncodeChar c, rest) := by
  rw [first?.eq_def]
  dsimp only
  rw [if_neg hquote, if_neg hbackslash]

/-- A byte that is written as its number is read back. -/
theorem first?_byte {n : Nat} (h : n < 256) (rest : List Char) :
    first? ('\\' :: 'x' :: hex 2 n ++ rest) = some ([UInt8.ofNat n], rest) := by
  rw [List.cons_append, List.cons_append, first?_backslash, escaped_hex rfl h]
  rfl

/-- A character that is written as its number is read back, if there are digits enough. -/
theorem first?_scalar {letter c : Char} {width : Nat} (hwidth : width? letter = some width)
    (hletter : letter ≠ 'x') (hc : c.toNat < Nat.pow 16 width) (rest : List Char) :
    first? ('\\' :: letter :: hex width c.toNat ++ rest) =
      some (String.utf8EncodeChar c, rest) := by
  rw [List.cons_append, List.cons_append, first?_backslash, escaped_hex hwidth hc, numbered,
    if_neg hletter, Char.ofNat_toNat]

/-- What stands for a character is read back as its encoding. -/
theorem first?_char (printable : Char → Bool) (c : Char) (rest : List Char) :
    first? (char printable '"' c ++ rest) = some (String.utf8EncodeChar c, rest) := by
  unfold char
  split
  · rename_i hspecial
    -- neither the delimiter nor the backslash is the letter of another escape
    rw [Bool.or_eq_true, decide_eq_true_eq, decide_eq_true_eq] at hspecial
    rcases hspecial with rfl | rfl
    · exact first?_backslash _ _
    · exact first?_backslash _ _
  · rename_i hplain
    rw [Bool.or_eq_true, decide_eq_true_eq, decide_eq_true_eq, not_or] at hplain
    -- printable, a letter, and then two, four or eight digits
    split
    · exact first?_cons hplain.1 hplain.2 rest
    · split
      · rename_i letter hletter
        rw [List.cons_append, List.cons_append, first?_backslash, escaped_controlLetter hletter]
        rfl
      · split
        · rename_i hcontrol
          rw [Bool.or_eq_true, decide_eq_true_eq, decide_eq_true_eq] at hcontrol
          rw [first?_byte (by omega), Utf8.utf8EncodeChar_of_le (by omega)]
        · split
          · rename_i hsmall
            exact first?_scalar rfl (by decide) hsmall rest
          · have hvalid : c.toNat < 0xD800 ∨ 0xDFFF < c.toNat ∧ c.toNat < 0x110000 := c.valid
            have hlarge : c.toNat < Nat.pow 16 8 :=
              Nat.lt_trans (by omega : c.toNat < 0x110000) (by decide)
            exact first?_scalar rfl (by decide) hlarge rest

/-- What one piece is written as is read as its bytes. -/
theorem first?_piece (printable : Char → Bool) (p : Utf8.Piece) (rest : List Char) :
    first? (piece printable '"' p ++ rest) = some (p.bytes, rest) := by
  cases p with
  | char c => exact first?_char printable c rest
  | stray b =>
    rw [piece, first?_byte b.toNat_lt, UInt8.ofNat_toNat]
    rfl

/-- A quote ends the quoted text. -/
theorem inside?_delimiter (rest : List Char) : inside? ('"' :: rest) = some ([], rest) := by
  rw [inside?]
  rfl

/-- What is inside quotes is read from the front. -/
theorem inside?_of_first? {text rest : List Char} {bytes : Bytes}
    (h : first? text = some (bytes, rest)) :
    inside? text = (inside? rest).map fun found => (bytes ++ found.1, found.2) := by
  rw [inside?.eq_def, h]

/-- One piece after the other is read back, up to the closing delimiter. -/
theorem inside?_flatMap_piece (printable : Char → Bool) (ps : List Utf8.Piece)
    (rest : List Char) :
    inside? (ps.flatMap (piece printable '"') ++ '"' :: rest) =
      some (ps.flatMap Utf8.Piece.bytes, rest) := by
  induction ps with
  | nil => exact inside?_delimiter rest
  | cons p later ih =>
    rw [List.flatMap_cons, List.append_assoc, inside?_of_first? (first?_piece printable p _), ih,
      List.flatMap_cons]
    rfl

/-- A quoted byte string is read back, whichever characters were printable and whatever is behind
it. -/
theorem unquote?_bytes (printable : Char → Bool) (text : Bytes) (rest : List Char) :
    unquote? (bytes printable text ++ rest) = some (text, rest) := by
  have hinside := inside?_flatMap_piece printable (Utf8.pieces text) rest
  rw [Utf8.flatMap_bytes_pieces] at hinside
  rw [bytes, List.cons_append, List.cons_append, List.append_assoc, unquote?, if_pos rfl]
  exact hinside

/-- Two texts that start with quoted byte strings are equal only if these are, and all that is
behind them. -/
theorem bytes_append_inj {printable printable' : Char → Bool} {text text' : Bytes}
    {rest rest' : List Char}
    (h : bytes printable text ++ rest = bytes printable' text' ++ rest') :
    text = text' ∧ rest = rest' := by
  have hread := unquote?_bytes printable text rest
  rw [h, unquote?_bytes, Option.some.injEq, Prod.mk.injEq] at hread
  exact ⟨hread.1.symm, hread.2.symm⟩

-- a character that is not printable, and the word that spells its escape
example : bytes isPrintable (Utf8.ofString "\u200b") = "\"\\u200b\"".toList ∧
    bytes isPrintable (Utf8.ofString "\\u200b") = "\"\\\\u200b\"".toList := by
  decide +kernel

end Quoted

/-! ## Positions -/

/-- Equal texts with equal fixed parts have equal characters between and behind these. -/
theorem between_eq {front behind s s' : String} {inner inner' : List Char}
    (h : front ++ String.ofList inner ++ behind ++ s =
      front ++ String.ofList inner' ++ behind ++ s') :
    inner ++ (behind.toList ++ s.toList) = inner' ++ (behind.toList ++ s'.toList) := by
  have hlist := congrArg String.toList h
  simp only [String.toList_append, String.toList_ofList, List.append_assoc] at hlist
  exact List.append_cancel_left hlist

/-- The text of a position determines its line and its column. -/
theorem Position.text_inj {p q : Position} (h : p.text = q.text) : p = q := by
  obtain ⟨hline, hbehind⟩ := Decimal.ofInt_append_inj (by decide) (between_eq h)
  have hcolumn := String.ofList_injective (String.toList_inj.mp hbehind)
  cases p
  cases q
  rw [Position.mk.injEq]
  exact ⟨hline, Decimal.ofInt_inj hcolumn⟩

/-! ## Messages -/

namespace Fault

variable {printable printable' : Char → Bool}

/-- The message of an invalid word determines the word and its position. -/
theorem messageWith_invalidWord_inj {word word' : Bytes} {p p' : Position}
    (h : (invalidWord word p).messageWith printable =
      (invalidWord word' p').messageWith printable') : word = word' ∧ p = p' := by
  obtain ⟨hword, hbehind⟩ := Quoted.bytes_append_inj (between_eq h)
  have htext := String.toList_inj.mp (List.append_cancel_left hbehind)
  exact ⟨hword, Position.text_inj htext⟩

/-- How the message of a fault opens, unless a source has worded it. -/
def opening? : Fault → Option String
  | endOfInput => some "EOF"
  | readFailed _ => none
  | invalidEncoding _ => some ("Tokenizer: " ++ encodingCause)
  | invalidCharacter _ _ => some "Tokenizer: invalid control character "
  | invalidWord _ _ => some "Tokenizer: invalid token "
  | unexpectedToken _ => some "Parser: unexpected token "
  | expectedToken _ _ => some "Parser: expected "
  | duplicateDeclaration _ _ => some "Parser: identifier "
  | undeclaredReference _ _ => some "Parser: identifier "
  | tokensExhausted => some "Parser: unexpected end of token stream"

/-- A front stays a front when more follows. -/
theorem isPrefix_append {front s : String} (h : front.toList <+: s.toList) (t : String) :
    front.toList <+: (s ++ t).toList := by
  rw [String.toList_append]
  exact List.prefix_append_of_prefix h

/-- The message of a fault with an opening starts with it. -/
theorem isPrefix_of_opening? {fault : Fault} {front : String} (h : fault.opening? = some front) :
    front.toList <+: (fault.messageWith printable).toList := by
  cases fault with
  | readFailed reason => cases h
  | endOfInput | tokensExhausted =>
    cases h
    exact List.prefix_rfl
  | invalidEncoding p =>
    cases h
    exact isPrefix_append (isPrefix_append List.prefix_rfl _) _
  | invalidCharacter _ _ | invalidWord _ _ | unexpectedToken _ | duplicateDeclaration _ _
  | undeclaredReference _ _ =>
    cases h
    exact isPrefix_append (isPrefix_append (isPrefix_append List.prefix_rfl _) _) _
  | expectedToken kind t =>
    cases h
    refine isPrefix_append (isPrefix_append ?_ _) _
    exact isPrefix_append (isPrefix_append (isPrefix_append List.prefix_rfl _) _) _

/-- Only an invalid word, or a source, can word a message as that of an invalid word. -/
theorem source_or_word_of_messageWith {fault : Fault} {word : Bytes} {p : Position}
    (h : fault.messageWith printable = (invalidWord word p).messageWith printable') :
    (∃ reason, fault = readFailed reason) ∨ ∃ word' p', fault = invalidWord word' p' := by
  have hword : "Tokenizer: invalid token ".toList <+: (fault.messageWith printable).toList := by
    rw [h]
    exact isPrefix_of_opening? rfl
  -- of two openings of one message, one goes on where the other ends
  have hcomparable : ∀ front, fault.opening? = some front →
      front.toList <+: "Tokenizer: invalid token ".toList ∨
        "Tokenizer: invalid token ".toList <+: front.toList := by
    intro front hfront
    exact List.prefix_or_prefix_of_prefix (isPrefix_of_opening? hfront) hword
  cases fault with
  | readFailed reason => exact Or.inl ⟨reason, rfl⟩
  | invalidWord word' p' => exact Or.inr ⟨word', p', rfl⟩
  | _ => exact absurd (hcomparable _ rfl) (by decide +kernel)

/-- **The message of an invalid word says which word it was, and where.**  Whichever characters
are printable, two such messages are the same text exactly if the words have the same bytes and
the positions the same line and column.  No other fault is worded like one of them, except by a
source that fails with just that text as its reason. -/
theorem invalidWord_messages_unambiguous (printable : Char → Bool) (word : Bytes)
    (line column : Int) :
    (∀ (word' : Bytes) (line' column' : Int),
      (invalidWord word ⟨line, column⟩).messageWith printable =
          (invalidWord word' ⟨line', column'⟩).messageWith printable ↔
        word = word' ∧ line = line' ∧ column = column') ∧
    ∀ fault : Fault,
      fault.messageWith printable = (invalidWord word ⟨line, column⟩).messageWith printable ↔
        fault = invalidWord word ⟨line, column⟩ ∨
          fault = readFailed ((invalidWord word ⟨line, column⟩).messageWith printable) := by
  refine ⟨fun word' line' column' => ⟨fun h => ?_, ?_⟩, fun fault => ⟨fun h => ?_, ?_⟩⟩
  · obtain ⟨hword, hposition⟩ := messageWith_invalidWord_inj h
    exact ⟨hword, Position.mk.inj hposition⟩
  · rintro ⟨rfl, rfl, rfl⟩
    rfl
  · rcases source_or_word_of_messageWith h with ⟨reason, rfl⟩ | ⟨word', p', rfl⟩
    · exact Or.inr (congrArg readFailed h)
    · obtain ⟨rfl, rfl⟩ := messageWith_invalidWord_inj h
      exact Or.inl rfl
  · rintro (rfl | rfl)
    · rfl
    · rfl

end Fault

end LetExit
