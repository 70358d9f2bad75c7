import LetExit.Text.Utf8

/-!
# Reading undoes encoding

`Utf8.WellFormed` is the table of well-formed byte sequences with the numbers they
stand for: the shortest forms of the Unicode scalar values and nothing else.  Both the
encoder and the reader follow it, so a byte string starts with a character exactly if
it starts with the encoding of that character (`Utf8.decode?_eq_some_iff`).

It follows that the pieces of a byte string are all characters exactly if it is the
encoding of them (`Utf8.pieces_eq_map_char_iff`), and then `Utf8.chars?` gives them.  Cutting
a byte string into pieces loses nothing in any case (`Utf8.flatMap_bytes_pieces`).

Ill-formed sequences end at the next byte that continues none: what is in front of such a byte
and what starts with it are read independently (`Utf8.pieces_append_of_not_isTail`).
-/

set_option autoImplicit false

namespace LetExit

namespace Utf8

/-- The byte sequences that encode one character, with the number of that character. -/
def WellFormed : Bytes → Nat → Prop
  | [a], n => a.toNat ≤ 0x7F ∧ n = a.toNat
  | [a, b], n =>
    0xC2 ≤ a.toNat ∧ a.toNat ≤ 0xDF ∧ isTail b = true ∧
      n = (a.toNat - 0xC0) * 64 + (b.toNat - 0x80)
  | [a, b, c], n =>
    0xE0 ≤ a.toNat ∧ a.toNat ≤ 0xEF ∧ isTail b = true ∧ isTail c = true ∧
      -- no overlong form and no surrogate
      (a.toNat = 0xE0 → 0xA0 ≤ b.toNat) ∧ (a.toNat = 0xED → b.toNat ≤ 0x9F) ∧
      n = (a.toNat - 0xE0) * 4096 + (b.toNat - 0x80) * 64 + (c.toNat - 0x80)
  | [a, b, c, d], n =>
    0xF0 ≤ a.toNat ∧ a.toNat ≤ 0xF4 ∧ isTail b = true ∧ isTail c = true ∧ isTail d = true ∧
      -- no overlong form and nothing above U+10FFFF
      (a.toNat = 0xF0 → 0x90 ≤ b.toNat) ∧ (a.toNat = 0xF4 → b.toNat ≤ 0x8F) ∧
      n = (a.toNat - 0xF0) * 262144 + (b.toNat - 0x80) * 4096 + (c.toNat - 0x80) * 64
        + (d.toNat - 0x80)
  | _, _ => False

/-- A valid number is the number of its character. -/
theorem toNat_ofNat_of_isValidChar {n : Nat} (h : n.isValidChar) : (Char.ofNat n).toNat = n := by
  rw [Char.ofNat, dif_pos h]
  rfl

/-- A byte is within bounds, in numbers. -/
theorem within_eq_true_iff {low high b : UInt8} :
    within low high b = true ↔ low.toNat ≤ b.toNat ∧ b.toNat ≤ high.toNat := by
  simp [within, UInt8.le_iff_toNat_le]

/-- The bytes that continue a character, in numbers. -/
theorem isTail_eq_true_iff {b : UInt8} :
    isTail b = true ↔ 0x80 ≤ b.toNat ∧ b.toNat ≤ 0xBF :=
  within_eq_true_iff

/-- The encoding of a character is well-formed. -/
theorem wellFormed_utf8EncodeChar (c : Char) : WellFormed (String.utf8EncodeChar c) c.toNat := by
  have hvalid : c.toNat < 0xD800 ∨ 0xDFFF < c.toNat ∧ c.toNat < 0x110000 := c.valid
  have hv : c.val.toNat = c.toNat := rfl
  simp only [String.utf8EncodeChar, hv]
  generalize c.toNat = v at hvalid
  -- one case for each length of the encoding
  split
  · simp only [WellFormed, UInt8.toNat_ofNat']
    omega
  · split
    · simp only [WellFormed, isTail_eq_true_iff, UInt8.toNat_ofNat']
      omega
    · split
      · simp only [WellFormed, isTail_eq_true_iff, UInt8.toNat_ofNat']
        omega
      · simp only [WellFormed, isTail_eq_true_iff, UInt8.toNat_ofNat']
        omega

/-- Well-formed bytes encode a valid number: none of a surrogate, and none too large. -/
theorem WellFormed.isValidChar {enc : Bytes} {n : Nat} (h : WellFormed enc n) :
    n.isValidChar := by
  unfold WellFormed at h
  unfold Nat.isValidChar
  simp only [isTail_eq_true_iff] at h
  split at h
  · omega
  · omega
  · omega
  · omega
  · contradiction

/-- A number has only one well-formed sequence, and that is the encoding of its character. -/
theorem WellFormed.eq_utf8EncodeChar {enc : Bytes} {n : Nat} (h : WellFormed enc n) :
    enc = String.utf8EncodeChar (Char.ofNat n) := by
  have hv : (Char.ofNat n).val.toNat = n := toNat_ofNat_of_isValidChar h.isValidChar
  simp only [String.utf8EncodeChar, hv]
  unfold WellFormed at h
  simp only [isTail_eq_true_iff] at h
  split at h
  · rw [if_pos (by omega)]
    simp only [List.cons.injEq, and_true, ← UInt8.toNat_inj, UInt8.toNat_ofNat']
    omega
  · rw [if_neg (by omega), if_pos (by omega)]
    simp only [List.cons.injEq, and_true, ← UInt8.toNat_inj, UInt8.toNat_ofNat']
    omega
  · rw [if_neg (by omega), if_neg (by omega), if_pos (by omega)]
    simp only [List.cons.injEq, and_true, ← UInt8.toNat_inj, UInt8.toNat_ofNat']
    omega
  · rw [if_neg (by omega), if_neg (by omega), if_neg (by omega)]
    simp only [List.cons.injEq, and_true, ← UInt8.toNat_inj, UInt8.toNat_ofNat']
    omega
  · contradiction

/-- A character of the ASCII range is encoded as one byte. -/
theorem utf8EncodeChar_of_le {c : Char} (h : c.toNat ≤ 0x7F) :
    String.utf8EncodeChar c = [UInt8.ofNat c.toNat] := by
  have hwf : WellFormed [UInt8.ofNat c.toNat] c.toNat := by
    simp only [WellFormed, UInt8.toNat_ofNat']
    omega
  rw [hwf.eq_utf8EncodeChar, Char.ofNat_toNat]

/-- What a first byte announces, as a case distinction on its number. -/
theorem lead?_eq (b : UInt8) : lead? b =
    if b.toNat ≤ 0x7F then some .one
    else if b.toNat < 0xC2 then none
    else if b.toNat ≤ 0xDF then some .two
    else if b.toNat = 0xE0 then some (.three 0xA0 0xBF)
    else if b.toNat = 0xED then some (.three 0x80 0x9F)
    else if b.toNat ≤ 0xEF then some (.three 0x80 0xBF)
    else if b.toNat = 0xF0 then some (.four 0x90 0xBF)
    else if b.toNat ≤ 0xF3 then some (.four 0x80 0xBF)
    else if b.toNat = 0xF4 then some (.four 0x80 0x8F)
    else none := by
  simp only [lead?, UInt8.le_iff_toNat_le, UInt8.lt_iff_toNat_lt, ← UInt8.toNat_inj]
  rfl

/-- The bytes that stand alone. -/
theorem lead?_eq_one_iff {b : UInt8} : lead? b = some .one ↔ b.toNat ≤ 0x7F := by
  rw [lead?_eq]
  grind

/-- The bytes that start a character of two bytes. -/
theorem lead?_eq_two_iff {b : UInt8} :
    lead? b = some .two ↔ 0xC2 ≤ b.toNat ∧ b.toNat ≤ 0xDF := by
  rw [lead?_eq]
  grind

/-- The bytes that start a character of three bytes, and the bounds of the second. -/
theorem lead?_eq_three_iff {b low high : UInt8} :
    lead? b = some (.three low high) ↔ 0xE0 ≤ b.toNat ∧ b.toNat ≤ 0xEF ∧
      low = (if b.toNat = 0xE0 then 0xA0 else 0x80) ∧
      high = (if b.toNat = 0xED then 0x9F else 0xBF) := by
  rw [lead?_eq]
  grind

/-- The bytes that start a character of four bytes, and the bounds of the second. -/
theorem lead?_eq_four_iff {b low high : UInt8} :
    lead? b = some (.four low high) ↔ 0xF0 ≤ b.toNat ∧ b.toNat ≤ 0xF4 ∧
      low = (if b.toNat = 0xF0 then 0x90 else 0x80) ∧
      high = (if b.toNat = 0xF4 then 0x8F else 0xBF) := by
  rw [lead?_eq]
  grind

/-- The second of three bytes is neither overlong nor part of a surrogate. -/
theorem within_iff_of_lead?_eq_three {b low high x : UInt8}
    (h : lead? b = some (.three low high)) : within low high x = true ↔
      isTail x = true ∧ (b.toNat = 0xE0 → 0xA0 ≤ x.toNat) ∧ (b.toNat = 0xED → x.toNat ≤ 0x9F) := by
  obtain ⟨-, -, hlow, hhigh⟩ := lead?_eq_three_iff.mp h
  have hlow' : low.toNat = if b.toNat = 0xE0 then 0xA0 else 0x80 := by rw [hlow]; split <;> rfl
  have hhigh' : high.toNat = if b.toNat = 0xED then 0x9F else 0xBF := by rw [hhigh]; split <;> rfl
  rw [within_eq_true_iff, isTail_eq_true_iff, hlow', hhigh']
  grind

/-- The second of four bytes is neither overlong nor too large. -/
theorem within_iff_of_lead?_eq_four {b low high x : UInt8}
    (h : lead? b = some (.four low high)) : within low high x = true ↔
      isTail x = true ∧ (b.toNat = 0xF0 → 0x90 ≤ x.toNat) ∧ (b.toNat = 0xF4 → x.toNat ≤ 0x8F) := by
  obtain ⟨-, -, hlow, hhigh⟩ := lead?_eq_four_iff.mp h
  have hlow' : low.toNat = if b.toNat = 0xF0 then 0x90 else 0x80 := by rw [hlow]; split <;> rfl
  have hhigh' : high.toNat = if b.toNat = 0xF4 then 0x8F else 0xBF := by rw [hhigh]; split <;> rfl
  rw [within_eq_true_iff, isTail_eq_true_iff, hlow', hhigh']
  grind

/-- What is decoded is well-formed. -/
theorem exists_wellFormed_of_decode? {bytes rest : Bytes} {c : Char}
    (h : decode? bytes = some (c, rest)) :
    ∃ enc n, bytes = enc ++ rest ∧ WellFormed enc n ∧ c = Char.ofNat n := by
  cases bytes with
  | nil => cases h
  | cons b₀ tail =>
    simp only [decode?] at h
    split at h
    · rename_i hlead
      obtain ⟨rfl, rfl⟩ := Prod.mk.inj (Option.some.inj h)
      exact ⟨[b₀], b₀.toNat, rfl, ⟨lead?_eq_one_iff.mp hlead, rfl⟩, rfl⟩
    · rename_i b₁ after hlead
      obtain ⟨hlow, hhigh⟩ := lead?_eq_two_iff.mp hlead
      split at h
      · rename_i htail
        obtain ⟨rfl, rfl⟩ := Prod.mk.inj (Option.some.inj h)
        refine ⟨[b₀, b₁], _, rfl, ⟨hlow, hhigh, htail, rfl⟩, congrArg Char.ofNat ?_⟩
        rw [isTail_eq_true_iff] at htail
        omega
      · cases h
    · rename_i low high b₁ b₂ after hlead
      obtain ⟨hlow, hhigh, -, -⟩ := lead?_eq_three_iff.mp hlead
      split at h
      · rename_i htails
        rw [Bool.and_eq_true, within_iff_of_lead?_eq_three hlead] at htails
        obtain ⟨⟨h₁, hoverlong, hsurrogate⟩, h₂⟩ := htails
        obtain ⟨rfl, rfl⟩ := Prod.mk.inj (Option.some.inj h)
        refine ⟨[b₀, b₁, b₂], _, rfl, ⟨hlow, hhigh, h₁, h₂, hoverlong, hsurrogate, rfl⟩,
          congrArg Char.ofNat ?_⟩
        rw [isTail_eq_true_iff] at h₁ h₂
        omega
      · cases h
    · rename_i low high b₁ b₂ b₃ after hlead
      obtain ⟨hlow, hhigh, -, -⟩ := lead?_eq_four_iff.mp hlead
      split at h
      · rename_i htails
        rw [Bool.and_eq_true, Bool.and_eq_true, within_iff_of_lead?_eq_four hlead] at htails
        obtain ⟨⟨⟨h₁, hoverlong, hlarge⟩, h₂⟩, h₃⟩ := htails
        obtain ⟨rfl, rfl⟩ := Prod.mk.inj (Option.some.inj h)
        refine ⟨[b₀, b₁, b₂, b₃], _, rfl, ⟨hlow, hhigh, h₁, h₂, h₃, hoverlong, hlarge, rfl⟩,
          congrArg Char.ofNat ?_⟩
        rw [isTail_eq_true_iff] at h₁ h₂ h₃
        omega
      · cases h
    · cases h

/-- Well-formed bytes are decoded, whatever follows them. -/
theorem decode?_append_of_wellFormed {enc : Bytes} {n : Nat} (h : WellFormed enc n)
    (rest : Bytes) : decode? (enc ++ rest) = some (Char.ofNat n, rest) := by
  unfold WellFormed at h
  split at h
  · obtain ⟨ha, rfl⟩ := h
    exact decode?.eq_2 _ _ (lead?_eq_one_iff.mpr ha)
  · rename_i _ a b
    obtain ⟨hlow, hhigh, htail, hn⟩ := h
    have hread := decode?.eq_3 a b rest (lead?_eq_two_iff.mpr ⟨hlow, hhigh⟩)
    rw [if_pos htail] at hread
    rw [isTail_eq_true_iff] at htail
    have hvalue : a.toNat % 32 * 64 + b.toNat % 64 = n := by omega
    rw [hvalue] at hread
    exact hread
  · rename_i _ a b c
    obtain ⟨hlow, hhigh, hb, hc, hoverlong, hsurrogate, hn⟩ := h
    have hlead := lead?_eq_three_iff.mpr ⟨hlow, hhigh, rfl, rfl⟩
    have hwithin := (within_iff_of_lead?_eq_three hlead).mpr ⟨hb, hoverlong, hsurrogate⟩
    have hread := decode?.eq_4 a _ _ b c rest hlead
    rw [hwithin, hc, Bool.and_true, if_pos rfl] at hread
    rw [isTail_eq_true_iff] at hb hc
    have hvalue : a.toNat % 16 * 4096 + b.toNat % 64 * 64 + c.toNat % 64 = n := by omega
    rw [hvalue] at hread
    exact hread
  · rename_i _ a b c d
    obtain ⟨hlow, hhigh, hb, hc, hd, hoverlong, hlarge, hn⟩ := h
    have hlead := lead?_eq_four_iff.mpr ⟨hlow, hhigh, rfl, rfl⟩
    have hwithin := (within_iff_of_lead?_eq_four hlead).mpr ⟨hb, hoverlong, hlarge⟩
    have hread := decode?.eq_5 a _ _ b c d rest hlead
    rw [hwithin, hc, hd, Bool.and_true, Bool.and_true, if_pos rfl] at hread
    rw [isTail_eq_true_iff] at hb hc hd
    have hvalue : a.toNat % 8 * 262144 + b.toNat % 64 * 4096 + c.toNat % 64 * 64
        + d.toNat % 64 = n := by
      omega
    rw [hvalue] at hread
    exact hread
  · contradiction

/-- A byte string starts with a character exactly if it starts with its encoding. -/
theorem decode?_eq_some_iff {bytes rest : Bytes} {c : Char} :
    decode? bytes = some (c, rest) ↔ bytes = String.utf8EncodeChar c ++ rest := by
  constructor
  · intro h
    obtain ⟨enc, n, rfl, hwf, rfl⟩ := exists_wellFormed_of_decode? h
    rw [hwf.eq_utf8EncodeChar]
  · rintro rfl
    rw [decode?_append_of_wellFormed (wellFormed_utf8EncodeChar c), Char.ofNat_toNat]

/-- An encoded character in front is the first piece. -/
theorem pieces_utf8EncodeChar_append (c : Char) (rest : Bytes) :
    pieces (String.utf8EncodeChar c ++ rest) = .char c :: pieces rest := by
  have hread : decode? (String.utf8EncodeChar c ++ rest) = some (c, rest) :=
    decode?_eq_some_iff.mpr rfl
  cases henc : String.utf8EncodeChar c ++ rest with
  | nil =>
    rw [henc] at hread
    cases hread
  | cons b tail =>
    rw [henc] at hread
    rw [pieces, first, hread]

/-- The pieces of a byte string are characters exactly if it is the encoding of these. -/
theorem pieces_eq_map_char_iff {bytes : Bytes} {text : List Char} :
    pieces bytes = text.map .char ↔ bytes = encode text := by
  induction text generalizing bytes with
  | nil =>
    cases bytes with
    | nil => simp [pieces, encode]
    | cons b rest =>
      rw [pieces]
      simp [encode]
  | cons c cs ih =>
    rw [encode, List.flatMap_cons, ← encode, List.map_cons]
    constructor
    · intro h
      cases bytes with
      | nil =>
        rw [pieces] at h
        cases h
      | cons b rest =>
        rw [pieces, List.cons.injEq] at h
        obtain ⟨hfirst, hlater⟩ := h
        -- a stray byte would be no character
        unfold first at hfirst hlater
        split at hfirst
        · rename_i d after hread
          rw [hread] at hlater
          rw [Piece.char.injEq] at hfirst
          have hafter : after = encode cs := ih.mp hlater
          rw [decode?_eq_some_iff.mp hread, hfirst, hafter]
        · cases hfirst
    · rintro rfl
      rw [pieces_utf8EncodeChar_append, ih.mpr rfl]

/-- A byte that continues no encoding ends whatever is in front of it: what is read there depends
neither on that byte nor on what is behind it. -/
theorem decode?_append_of_not_isTail {x : UInt8} (hx : isTail x = false) (b : UInt8)
    (rest later : Bytes) :
    decode? (b :: (rest ++ x :: later)) =
      (decode? (b :: rest)).map fun (c, after) => (c, after ++ x :: later) := by
  cases hlead : lead? b with
  | none => simp [decode?, hlead]
  | some lead =>
    cases lead with
    | one => simp [decode?, hlead]
    | two =>
      cases rest with
      | nil => simp [decode?, hlead, hx]
      | cons b₁ rest =>
        simp only [decode?, hlead, List.cons_append]
        split <;> rfl
    | three low high =>
      have hout : within low high x = false := by
        rw [Bool.eq_false_iff]
        intro hin
        simp [(within_iff_of_lead?_eq_three hlead).mp hin] at hx
      rcases rest with _ | ⟨b₁, _ | ⟨b₂, rest⟩⟩
      · cases later <;> simp [decode?, hlead, hout]
      · simp [decode?, hlead, hx]
      · simp only [decode?, hlead, List.cons_append]
        split <;> rfl
    | four low high =>
      have hout : within low high x = false := by
        rw [Bool.eq_false_iff]
        intro hin
        simp [(within_iff_of_lead?_eq_four hlead).mp hin] at hx
      rcases rest with _ | ⟨b₁, _ | ⟨b₂, _ | ⟨b₃, rest⟩⟩⟩
      · rcases later with _ | ⟨y, _ | ⟨z, later⟩⟩ <;> simp [decode?, hlead, hout]
      · cases later <;> simp [decode?, hlead, hx]
      · simp [decode?, hlead, hx]
      · simp only [decode?, hlead, List.cons_append]
        split <;> rfl

/-- The pieces of a byte string are those in front of a byte that continues no encoding, and those
from there on. -/
theorem pieces_append_of_not_isTail {x : UInt8} (hx : isTail x = false) (bytes later : Bytes) :
    pieces (bytes ++ x :: later) = pieces bytes ++ pieces (x :: later) := by
  fun_induction pieces bytes with
  | case1 => simp
  | case2 b rest step ih =>
    have hfirst : first b (rest ++ x :: later) = (step.1, step.2 ++ x :: later) := by
      unfold step first
      rw [decode?_append_of_not_isTail hx]
      cases decode? (b :: rest) <;> rfl
    rw [List.cons_append, pieces, hfirst, List.cons_append, ← ih]

/-- An encoding starts with a byte that continues none. -/
theorem exists_cons_utf8EncodeChar (c : Char) :
    ∃ x rest, String.utf8EncodeChar c = x :: rest ∧ isTail x = false := by
  have hwf := wellFormed_utf8EncodeChar c
  cases henc : String.utf8EncodeChar c with
  | nil => simp [henc, WellFormed] at hwf
  | cons x rest =>
    refine ⟨x, rest, rfl, ?_⟩
    rw [Bool.eq_false_iff]
    intro htail
    rw [isTail_eq_true_iff] at htail
    rw [henc] at hwf
    rcases rest with _ | ⟨b, _ | ⟨c, _ | ⟨d, _ | ⟨e, rest⟩⟩⟩⟩ <;>
      simp only [WellFormed] at hwf <;> omega

/-- The first piece of a byte string is in front of the rest, and a character is there with its
encoding. -/
theorem exists_append_first (b : UInt8) (rest : Bytes) :
    ∃ enc, b :: rest = enc ++ (first b rest).2 ∧
      ∀ c, (first b rest).1 = .char c → enc = String.utf8EncodeChar c := by
  unfold first
  split
  · rename_i c after hread
    refine ⟨String.utf8EncodeChar c, decode?_eq_some_iff.mp hread, ?_⟩
    intro d hd
    rw [Piece.char.inj hd]
  · exact ⟨[b], rfl, by simp⟩

/-- Bytes whose last piece is a character end with its encoding. -/
theorem exists_append_of_getLast?_pieces {bytes : Bytes} {c : Char}
    (h : (pieces bytes).getLast? = some (.char c)) :
    ∃ front, bytes = front ++ String.utf8EncodeChar c := by
  fun_induction pieces bytes with
  | case1 => simp at h
  | case2 b rest step ih =>
    obtain ⟨enc, hbytes, henc⟩ := exists_append_first b rest
    rw [hbytes]
    cases hrest : step.2 with
    | nil =>
      -- nothing is behind the first piece
      rw [hrest, pieces, List.getLast?_singleton, Option.some.injEq] at h
      exact ⟨[], by rw [henc c h, List.append_nil, List.nil_append]⟩
    | cons x more =>
      rw [hrest, pieces, List.getLast?_cons_cons, ← pieces, ← hrest] at h
      obtain ⟨front, hfront⟩ := ih h
      exact ⟨enc ++ front, by rw [← hrest, hfront, List.append_assoc]⟩

/-- The last piece of a byte string is a character exactly if the string ends with its encoding. -/
theorem getLast?_pieces_eq_char_iff {bytes : Bytes} {c : Char} :
    (pieces bytes).getLast? = some (.char c) ↔
      ∃ front, bytes = front ++ String.utf8EncodeChar c := by
  refine ⟨exists_append_of_getLast?_pieces, ?_⟩
  rintro ⟨front, rfl⟩
  obtain ⟨x, rest, henc, hx⟩ := exists_cons_utf8EncodeChar c
  have hlast : pieces (x :: rest) = [.char c] := by
    have hpieces := pieces_utf8EncodeChar_append c []
    rwa [List.append_nil, henc, pieces] at hpieces
  rw [henc, pieces_append_of_not_isTail hx, hlast, List.getLast?_concat]

/-- The bytes that a piece was read from. -/
def Piece.bytes : Piece → Bytes
  | .char c => String.utf8EncodeChar c
  | .stray b => [b]

/-- The pieces of a byte string have all of its bytes, in their order. -/
theorem flatMap_bytes_pieces (bytes : Bytes) : (pieces bytes).flatMap Piece.bytes = bytes := by
  fun_induction pieces bytes with
  | case1 => rfl
  | case2 b rest step ih =>
    rw [List.flatMap_cons, ih]
    unfold step first
    split
    · rename_i c after hread
      exact (decode?_eq_some_iff.mp hread).symm
    · rfl

/-- The characters of a byte string, if it is well-formed as a whole. -/
def chars? (bytes : Bytes) : Option (List Char) :=
  (pieces bytes).mapM fun
    | .char c => some c
    | .stray _ => none

/-- Texts are encoded one after the other. -/
theorem encode_append (text later : List Char) :
    encode (text ++ later) = encode text ++ encode later :=
  List.flatMap_append

/-- An encoded text is well-formed and decodes to itself. -/
theorem chars?_encode (text : List Char) : chars? (encode text) = some text := by
  rw [chars?, pieces_eq_map_char_iff.mpr rfl]
  induction text with
  | nil => rfl
  | cons c cs ih =>
    rw [List.map_cons, List.mapM_cons, ih]
    rfl

end Utf8

end LetExit
