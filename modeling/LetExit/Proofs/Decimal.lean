import LetExit.Text.Decimal

/-!
# Decimal integers as numbers

`Decimal.Spells` says which number a word writes: an optional sign in front of digits
that are weighed by their places.  Reading finds exactly this number
(`Decimal.toInt?_eq_some_iff`), and writing an integer spells it (`Decimal.spells_ofInt`).
So no two integers are written alike, not even in front of more text, if that starts with a
comma (`Decimal.ofInt_append_inj`).
-/

set_option autoImplicit false

namespace LetExit

namespace Decimal

/-- The number that digits write: each digit counts by the power of ten of its place. -/
def placeValue : List Char → Nat
  | [] => 0
  | d :: later => (d.toNat - '0'.toNat) * Nat.pow 10 later.length + placeValue later

/-- One or more decimal digits. -/
def IsDigits (digits : List Char) : Prop :=
  digits ≠ [] ∧ ∀ d ∈ digits, '0' ≤ d ∧ d ≤ '9'

/-- The words that write an integer, with that integer. -/
inductive Spells : List Char → Int → Prop
  | unsigned {digits : List Char} : IsDigits digits → Spells digits (placeValue digits)
  | plus {digits : List Char} : IsDigits digits → Spells ('+' :: digits) (placeValue digits)
  | minus {digits : List Char} : IsDigits digits → Spells ('-' :: digits) (-(placeValue digits))

/-- Digits are the characters from `0` to `9`. -/
theorem isDigit_iff {c : Char} : c.isDigit = true ↔ '0' ≤ c ∧ c ≤ '9' := by
  simp [Char.isDigit, Char.le_def]

/-- Reading digits from the left gives their place value. -/
theorem ofDigitChars_eq_placeValue (digits : List Char) :
    Nat.ofDigitChars 10 digits 0 = placeValue digits := by
  induction digits with
  | nil => rfl
  | cons d later ih =>
    rw [Nat.ofDigitChars_cons, Nat.ofDigitChars_eq_ofDigitChars_zero, ih, placeValue, Nat.mul_zero,
      Nat.zero_add, Nat.mul_comm, Nat.pow_eq]

/-- A word is a natural number exactly if it is digits, and then it is their place value. -/
theorem toNat?_eq_some_iff {digits : List Char} {n : Nat} :
    toNat? digits = some n ↔ IsDigits digits ∧ n = placeValue digits := by
  simp only [toNat?, IsDigits, ofDigitChars_eq_placeValue, ← isDigit_iff]
  by_cases hnil : digits = []
  · simp [hnil]
  · by_cases hall : ∀ d ∈ digits, d.isDigit = true
    · have hbool : digits.all Char.isDigit = true := List.all_eq_true.mpr hall
      simp only [hbool, Bool.not_true, Bool.or_false, List.isEmpty_iff, hnil, if_false,
        Option.some.injEq]
      constructor
      · intro h
        exact ⟨⟨hnil, hall⟩, h.symm⟩
      · intro h
        exact h.2.symm
    · have hbool : digits.all Char.isDigit = false := by
        rw [Bool.eq_false_iff, ne_eq, List.all_eq_true]
        exact hall
      simp only [hbool, Bool.not_false, Bool.or_true, if_true]
      constructor
      · intro h
        cases h
      · intro h
        exact absurd h.1.2 hall

/-- A word is read as an integer exactly if it writes that integer. -/
theorem toInt?_eq_some_iff {word : List Char} {n : Int} :
    toInt? word = some n ↔ Spells word n := by
  constructor
  · intro h
    unfold toInt? at h
    split at h
    · obtain ⟨m, hm, rfl⟩ := Option.map_eq_some_iff.mp h
      obtain ⟨hdigits, rfl⟩ := toNat?_eq_some_iff.mp hm
      exact .minus hdigits
    · obtain ⟨m, hm, rfl⟩ := Option.map_eq_some_iff.mp h
      obtain ⟨hdigits, rfl⟩ := toNat?_eq_some_iff.mp hm
      exact .plus hdigits
    · obtain ⟨m, hm, rfl⟩ := Option.map_eq_some_iff.mp h
      obtain ⟨hdigits, rfl⟩ := toNat?_eq_some_iff.mp hm
      exact .unsigned hdigits
  · intro h
    cases h with
    | plus hdigits =>
      have hread := toNat?_eq_some_iff.mpr ⟨hdigits, rfl⟩
      simp only [toInt?, hread]
      rfl
    | minus hdigits =>
      have hread := toNat?_eq_some_iff.mpr ⟨hdigits, rfl⟩
      simp only [toInt?, hread]
      rfl
    | unsigned hdigits =>
      have hread := toNat?_eq_some_iff.mpr ⟨hdigits, rfl⟩
      -- a digit is not a sign
      have hsign : ∀ sign rest, word = sign :: rest → sign ≠ '-' ∧ sign ≠ '+' := by
        rintro sign rest rfl
        have hsign := hdigits.2 sign (List.mem_cons_self ..)
        constructor
        · rintro rfl
          exact absurd hsign (by decide)
        · rintro rfl
          exact absurd hsign (by decide)
      unfold toInt?
      split
      · rename_i rest
        exact absurd rfl (hsign _ _ rfl).1
      · rename_i rest
        exact absurd rfl (hsign _ _ rfl).2
      · rw [hread]
        rfl

/-- The digits of a number are digits, and at least one. -/
theorem isDigits_toDigits (n : Nat) : IsDigits (Nat.toDigits 10 n) := by
  refine ⟨Nat.toDigits_ne_nil, fun d hd => ?_⟩
  exact isDigit_iff.mp (Nat.isDigit_of_mem_toDigits (by decide) (by decide) hd)

/-- The text of an integer writes it. -/
theorem spells_ofInt (n : Int) : Spells (ofInt n) n := by
  have hvalue : placeValue (Nat.toDigits 10 n.natAbs) = n.natAbs := by
    rw [← ofDigitChars_eq_placeValue, Nat.ofDigitChars_ten_toDigits]
  rw [ofInt]
  split
  · have hspells := Spells.minus (isDigits_toDigits n.natAbs)
    rw [hvalue] at hspells
    have hn : -(n.natAbs : Int) = n := by omega
    rwa [hn] at hspells
  · have hspells := Spells.unsigned (isDigits_toDigits n.natAbs)
    rw [hvalue] at hspells
    have hn : (n.natAbs : Int) = n := by omega
    rwa [hn] at hspells

/-- A number that is written can be read back. -/
theorem toInt?_ofInt (n : Int) : toInt? (ofInt n) = some n :=
  toInt?_eq_some_iff.mpr (spells_ofInt n)

/-- Different numbers are written differently. -/
theorem ofInt_inj {m n : Int} (h : ofInt m = ofInt n) : m = n := by
  have hread := toInt?_ofInt m
  rw [h, toInt?_ofInt] at hread
  exact (Option.some.inj hread).symm

/-- A spelling has no characters but digits and signs. -/
theorem Spells.isDigit_or_sign {word : List Char} {n : Int} (h : Spells word n) :
    ∀ c ∈ word, c.isDigit = true ∨ c = '+' ∨ c = '-' := by
  intro c hc
  cases h with
  | unsigned hdigits => exact Or.inl (isDigit_iff.mpr (hdigits.2 c hc))
  | plus hdigits =>
    cases hc with
    | head => exact Or.inr (Or.inl rfl)
    | tail _ hc => exact Or.inl (isDigit_iff.mpr (hdigits.2 c hc))
  | minus hdigits =>
    cases hc with
    | head => exact Or.inr (Or.inr rfl)
    | tail _ hc => exact Or.inl (isDigit_iff.mpr (hdigits.2 c hc))

/-- Any other character is not in the decimal of a number. -/
theorem notMem_ofInt {c : Char} (h : ¬(c.isDigit = true ∨ c = '+' ∨ c = '-')) (n : Int) :
    c ∉ ofInt n := by
  intro hc
  exact h ((spells_ofInt n).isDigit_or_sign c hc)

/-- An integer ends where a comma follows. -/
theorem ofInt_append_inj {m n : Int} {separator rest rest' : List Char}
    (hcomma : separator.head? = some ',')
    (h : ofInt m ++ (separator ++ rest) = ofInt n ++ (separator ++ rest')) :
    m = n ∧ rest = rest' := by
  obtain ⟨later, rfl⟩ := List.head?_eq_some_iff.mp hcomma
  have hfront : ∀ (k : Int) (behind : List Char),
      (ofInt k ++ (',' :: later ++ behind)).takeWhile (· != ',') = ofInt k := by
    intro k behind
    have hne : ∀ c ∈ ofInt k, (c != ',') = true := by
      intro c hc
      rw [bne_iff_ne]
      rintro rfl
      exact notMem_ofInt (by decide) k hc
    rw [List.takeWhile_append_of_pos hne, List.cons_append,
      List.takeWhile_cons_of_neg (by decide), List.append_nil]
  have hdigits : ofInt m = ofInt n := by rw [← hfront m rest, h, hfront]
  rw [hdigits] at h
  exact ⟨ofInt_inj hdigits, List.append_cancel_left (List.append_cancel_left h)⟩

/-- No number is spelled by nothing. -/
theorem Spells.ne_nil {word : List Char} {n : Int} (h : Spells word n) : word ≠ [] := by
  cases h with
  | unsigned hdigits => exact hdigits.1
  | plus hdigits => exact List.cons_ne_nil _ _
  | minus hdigits => exact List.cons_ne_nil _ _

/-- The 64-bit range by its limits. -/
theorem fits64_eq_true_iff {n : Int} :
    fits64 n = true ↔ -9223372036854775808 ≤ n ∧ n ≤ 9223372036854775807 := by
  simp only [fits64, Bool.and_eq_true, decide_eq_true_eq]

/-- A 64-bit value is in the 64-bit range. -/
theorem fits64_toInt (value : Int64) : fits64 value.toInt = true := by
  have hlow := Int64.le_toInt value
  have hhigh := Int64.toInt_lt value
  rw [fits64_eq_true_iff]
  omega

/-- A word is read as a 64-bit number exactly if it writes that number. -/
theorem toInt64?_eq_some_iff {word : List Char} {value : Int64} :
    toInt64? word = some value ↔ Spells word value.toInt := by
  rw [← toInt?_eq_some_iff, toInt64?]
  cases hword : toInt? word with
  | none => simp
  | some n =>
    dsimp only
    rw [Option.some.injEq]
    constructor
    · intro h
      split at h
      · rename_i hfits
        obtain ⟨hlow, hhigh⟩ := fits64_eq_true_iff.mp hfits
        rw [← Option.some.inj h, Int64.toInt_ofInt_of_le (by omega) (by omega)]
      · cases h
    · rintro rfl
      rw [if_pos (fits64_toInt value), Int64.ofInt_toInt]

end Decimal

end LetExit
