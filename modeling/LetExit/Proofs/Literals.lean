import LetExit.Proofs.Machine
import LetExit.Proofs.Recovery

/-!
# Integer literals

An integer keeps its value on the whole way from a word of the text to a line of the assembly.
The word may have a sign and any number of leading zeros, and it is an integer exactly if its
value is a 64-bit number; the line has the canonical decimal of that value, which can be read
again.

`Decimal.Canonical` says without reference to a printer which decimals are canonical, and there
is one for every integer (`Decimal.canonical_iff`).  For that, digits are split into leading
zeros and the digits that a number needs (`Decimal.IsDigits.exists_zeros`).
-/

set_option autoImplicit false

namespace LetExit

namespace Decimal

/-- A decimal in which nothing could be left out: it has no `+`, no leading zero and, if it is
zero, no sign. -/
inductive Canonical : List Char → Prop
  | zero : Canonical ['0']
  | positive {digits : List Char} : IsDigits digits → digits.head? ≠ some '0' → Canonical digits
  | negative {digits : List Char} : IsDigits digits → digits.head? ≠ some '0' →
      Canonical ('-' :: digits)

/-- The integers that are signed 64-bit numbers. -/
def InRange (n : Int) : Prop :=
  -9223372036854775808 ≤ n ∧ n ≤ 9223372036854775807

/-- A digit is the character of its value. -/
theorem digitChar_of_isDigit {d : Char} (h : '0' ≤ d ∧ d ≤ '9') :
    Nat.digitChar (d.toNat - '0'.toNat) = d := by
  have hrange := isDigit_iff_toNat.mp (isDigit_iff.mpr h)
  have hzero : '0'.toNat = 48 := rfl
  apply Char.toNat_inj.mp
  rw [hzero, Nat.toNat_digitChar_of_lt_ten (by omega)]
  omega

/-- Digits behind a number that is not zero become its last digits. -/
theorem toDigits_ofDigitChars {digits : List Char} (h : ∀ d ∈ digits, '0' ≤ d ∧ d ≤ '9')
    {n : Nat} (hn : 0 < n) :
    Nat.toDigits 10 (Nat.ofDigitChars 10 digits n) = Nat.toDigits 10 n ++ digits := by
  induction digits generalizing n with
  | nil => simp
  | cons d later ih =>
    obtain ⟨hd, hlater⟩ := List.forall_mem_cons.mp h
    have hdigit : d.toNat - '0'.toNat < 10 := by
      have hrange := isDigit_iff_toNat.mp (isDigit_iff.mpr hd)
      have hzero : '0'.toNat = 48 := rfl
      omega
    have happend := Nat.toDigits_append_toDigits (by decide) hn hdigit
    rw [Nat.toDigits_of_lt_base hdigit, digitChar_of_isDigit hd] at happend
    rw [Nat.ofDigitChars_cons, ih hlater (by omega), ← happend, List.append_assoc]
    rfl

/-- Digits are leading zeros and the digits of the number that they write. -/
theorem IsDigits.exists_zeros {digits : List Char} (h : IsDigits digits) :
    ∃ zeros, digits = List.replicate zeros '0' ++ Nat.toDigits 10 (placeValue digits) := by
  obtain ⟨hne, hdigits⟩ := h
  induction digits with
  | nil => exact absurd rfl hne
  | cons d later ih =>
    obtain ⟨hd, hlater⟩ := List.forall_mem_cons.mp hdigits
    by_cases hzero : d = '0'
    · subst hzero
      have hvalue : placeValue ('0' :: later) = placeValue later :=
        placeValue_replicate_append 1 later
      rw [hvalue]
      by_cases hnil : later = []
      · subst hnil
        exact ⟨0, rfl⟩
      · obtain ⟨zeros, hzeros⟩ := ih hnil hlater
        refine ⟨zeros + 1, ?_⟩
        rw [List.replicate_succ, List.cons_append, ← hzeros]
    · -- the number has all of the digits
      have hcode : d.toNat ≠ '0'.toNat := fun heq => hzero (Char.toNat_inj.mp heq)
      have hrange := isDigit_iff_toNat.mp (isDigit_iff.mpr hd)
      have hchar : '0'.toNat = 48 := rfl
      refine ⟨0, ?_⟩
      rw [← ofDigitChars_eq_placeValue, Nat.ofDigitChars_cons, Nat.mul_zero, Nat.zero_add,
        toDigits_ofDigitChars hlater (by omega), Nat.toDigits_of_lt_base (by omega),
        digitChar_of_isDigit hd]
      rfl

/-- The spellings of an integer are the words that write it. -/
theorem renders_iff_spells {n : Int} {word : List Char} : Renders n word ↔ Spells word n := by
  refine ⟨Renders.spells, fun h => ?_⟩
  cases h with
  | unsigned hdigits =>
    obtain ⟨zeros, hzeros⟩ := hdigits.exists_zeros
    have hrenders := Renders.unsigned zeros (Int.natCast_nonneg (placeValue word))
    rwa [Int.natAbs_natCast, ← hzeros] at hrenders
  | @plus digits hdigits =>
    obtain ⟨zeros, hzeros⟩ := hdigits.exists_zeros
    have hrenders := Renders.plus zeros (Int.natCast_nonneg (placeValue digits))
    rwa [Int.natAbs_natCast, ← hzeros] at hrenders
  | @minus digits hdigits =>
    obtain ⟨zeros, hzeros⟩ := hdigits.exists_zeros
    have hrenders := Renders.minus zeros (n := -(placeValue digits : Int)) (by omega)
    rwa [Int.natAbs_neg, Int.natAbs_natCast, ← hzeros] at hrenders

/-- The decimal of a positive number does not start with a zero. -/
theorem head?_toDigits_ne {n : Nat} (hn : n ≠ 0) : (Nat.toDigits 10 n).head? ≠ some '0' := by
  induction n using Nat.strongRecOn with
  | ind n ih =>
    rw [Nat.toDigits_eq_if (by decide)]
    split
    · rename_i hlt
      intro hhead
      have hcode := congrArg Char.toNat (Option.some.inj hhead)
      rw [Nat.toNat_digitChar_of_lt_ten hlt] at hcode
      have hzero : '0'.toNat = 48 := rfl
      omega
    · rw [List.head?_append]
      intro hhead
      rcases Option.or_eq_some_iff.mp hhead with hfirst | ⟨hnone, -⟩
      · exact ih (n / 10) (by omega) (by omega) hfirst
      · exact Nat.toDigits_ne_nil (List.head?_eq_none_iff.mp hnone)

/-- Numbers are written canonically. -/
theorem canonical_ofInt (n : Int) : Canonical (ofInt n) := by
  rw [ofInt]
  split
  · exact .negative (isDigits_toDigits _) (head?_toDigits_ne (by omega))
  · by_cases hzero : n = 0
    · rw [hzero]
      exact .zero
    · exact .positive (isDigits_toDigits _) (head?_toDigits_ne (by omega))

/-- Digits without a leading zero are those of the number that they write, which is not zero. -/
theorem IsDigits.eq_toDigits {digits : List Char} (h : IsDigits digits)
    (hhead : digits.head? ≠ some '0') :
    digits = Nat.toDigits 10 (placeValue digits) ∧ placeValue digits ≠ 0 := by
  obtain ⟨zeros, hzeros⟩ := h.exists_zeros
  have hnone : zeros = 0 := by
    cases zeros with
    | zero => rfl
    | succ zeros =>
      rw [hzeros] at hhead
      exact absurd rfl hhead
  rw [hnone] at hzeros
  refine ⟨hzeros, fun hvalue => ?_⟩
  rw [hvalue] at hzeros
  rw [hzeros] at hhead
  exact hhead rfl

/-- Every integer has one canonical decimal, and that is how it is written. -/
theorem canonical_iff {n : Int} {word : List Char} :
    Canonical word ∧ Spells word n ↔ word = ofInt n := by
  constructor
  · rintro ⟨hcanonical, hspells⟩
    have hvalue : toInt? word = some n := toInt?_eq_some_iff.mpr hspells
    cases hcanonical with
    | zero =>
      obtain rfl : (0 : Int) = n := Option.some.inj hvalue
      rfl
    | positive hdigits hhead =>
      obtain ⟨hword, -⟩ := hdigits.eq_toDigits hhead
      rw [toInt?_eq_some_iff.mpr (.unsigned hdigits)] at hvalue
      obtain rfl := Option.some.inj hvalue
      rw [ofInt, if_neg (by omega), Int.natAbs_natCast]
      exact hword
    | @negative digits hdigits hhead =>
      obtain ⟨hword, hzero⟩ := hdigits.eq_toDigits hhead
      rw [toInt?_eq_some_iff.mpr (.minus hdigits)] at hvalue
      obtain rfl := Option.some.inj hvalue
      rw [ofInt, if_pos (by omega), Int.natAbs_neg, Int.natAbs_natCast, ← hword]
  · rintro rfl
    exact ⟨canonical_ofInt n, spells_ofInt n⟩

/-- A numeral starts with a digit or a sign, a name with a letter. -/
theorem Spells.isIdentifier_eq_false {word : List Char} {n : Int} (h : Spells word n) :
    isIdentifier word = false := by
  rw [Bool.eq_false_iff]
  intro hname
  obtain ⟨first, rest, rfl, hfirst, -⟩ := isIdentifier_eq_true_iff.mp hname
  have hdigit := h.isDigit_or_sign first List.mem_cons_self
  rw [isAlpha_iff_toNat] at hfirst
  rw [isDigit_iff_toNat] at hdigit
  obtain hdigit | rfl | rfl := hdigit
  · omega
  · exact absurd hfirst (by decide)
  · exact absurd hfirst (by decide)

end Decimal

namespace Token

variable {word : List Char} {n : Int}

/-- A spelling in the 64-bit range is an integer token with that value. -/
theorem ofWord_of_inRange (h : Decimal.Spells word n) (hn : Decimal.InRange n) (p : Position) :
    ∃ value : Int64, value.toInt = n ∧
      ofWord word p = .ok ⟨.integer, String.ofList word, value, p⟩ := by
  obtain ⟨hlow, hhigh⟩ := hn
  have hvalue : (Int64.ofInt n).toInt = n := Int64.toInt_ofInt_of_le (by omega) (by omega)
  refine ⟨Int64.ofInt n, hvalue, ?_⟩
  rw [← hvalue] at h
  exact (Lexeme.Word.integer h).ofWord_eq_ok rfl p

/-- A spelling out of the 64-bit range is refused as a word. -/
theorem ofWord_of_not_inRange (h : Decimal.Spells word n) (hn : ¬Decimal.InRange n)
    (p : Position) : ofWord word p = .error (.invalidWord (Utf8.encode word) p) := by
  have hfits : Decimal.fits64 n = false := by
    rw [Bool.eq_false_iff, ne_eq, Decimal.fits64_eq_true_iff]
    exact hn
  have hnumber : Decimal.toInt64? word = none := by
    rw [Decimal.toInt64?, Decimal.toInt?_eq_some_iff.mpr h]
    simp [hfits]
  rw [ofWord, h.ofKeyword?_eq_none, hnumber, h.isIdentifier_eq_false]
  rfl

/-- An integer token is a numeral with the value of the token. -/
theorem spells_of_ofWord {p : Position} {t : Token} (h : ofWord word p = .ok t)
    (hkind : t.kind = .integer) : Decimal.Spells word t.value.toInt := by
  obtain ⟨hlexeme, hcontent, -⟩ := ofWord_eq_ok_iff.mp h
  obtain ⟨kind, content, value, position⟩ := t
  dsimp only at hkind hcontent
  subst hkind
  cases hlexeme with
  | integer hspells =>
    rw [← String.ofList_inj.mp hcontent]
    exact hspells

end Token

/-- A text that is one word is taken as a whole. -/
theorem Lexer.next_memory_word {word : List Char} (hne : word ≠ [])
    (hword : ∀ c ∈ word, endsWord c = false) :
    (ofInput (.memory (Utf8.encode word))).next.1 = Token.ofWord word .start := by
  have hreadings : (Input.memory (Utf8.encode word)).readings = word.map .char :=
    Input.bytesReadings_eq_map_char_iff.mpr rfl
  have hview : (ofInput (.memory (Utf8.encode word))).view = ⟨word.map .char ++ [], .start⟩ := by
    rw [List.append_nil, ← hreadings]
    rfl
  rw [(next_of_view_eq hview).1]
  exact congrArg Prod.fst (@View.next_gap_word [] word hne (by simp) hword _ _ .nothing .start)

/-- No character of a spelling ends the word. -/
theorem Decimal.Spells.endsWord_eq_false {word : List Char} {n : Int} (h : Spells word n) :
    ∀ c ∈ word, Lexer.endsWord c = false := by
  intro c hc
  apply endsWord_eq_false_of_isWordChar
  obtain hdigit | rfl | rfl := h.isDigit_or_sign c hc
  · simp [isWordChar, Char.isAlphanum, hdigit]
  · rfl
  · rfl

/-- The file of a program that ends with the status that the given decimal writes. -/
def exitFile (decimal : List Char) : List Char :=
  "global _start\n\n_start:\n  mov rax, ".toList ++ decimal ++
    "\n  push rax\n  pop rdi\n  mov rax, 60\n  syscall\n".toList

namespace Program

/-- An exit statement with a spelled value is read with that value. -/
theorem parse_exit_literal {word : List Char} {value : Int64}
    (h : Decimal.Spells word value.toInt) :
    parse (.memory (Utf8.encode ("exit(".toList ++ word ++ ");".toList))) =
      .ok [.exit (.literal value)] := by
  have hgap : IsGap [] := by simp [IsGap]
  have hrenders : Program.Renders [.exit (.literal value)]
      ("exit(".toList ++ word ++ ");".toList) := by
    have hstatement := Statement.Renders.exit (.literal (Decimal.renders_iff_spells.mpr h))
      hgap hgap hgap hgap
    have hprogram := Program.Renders.cons hgap hstatement (.nil hgap)
    simpa using hprogram
  obtain ⟨layout, htext, hderives⟩ := hrenders.exists_layout
    (by simp [names, Statement.binds]) (by simp [Statement.expr?])
  have hreadings : (Lexer.ofInput (.memory (Utf8.encode layout.text))).view.readings =
      layout.text.map .char := Input.bytesReadings_eq_map_char_iff.mpr rfl
  obtain ⟨tokens, htokens, hlexemes⟩ := Lexer.exists_tokenize_of_layout layout hreadings
  rw [← htext]
  apply Parser.parse_eq_ok_iff.mpr
  refine ⟨tokens, Parser.ahead_lexer_iff.mpr htokens, hderives.of_lexemes ?_, ?_⟩
  · rw [hlexemes, List.map_map]
    exact (List.map_id _).symm
  · apply Declarations.holds_empty.admitsAll_iff.mpr
    simp [names, Statement.binds, ScopedAfter, Statement.expr?]

/-- The assembly of an exit with a value holds the value in its canonical form. -/
theorem assemblyFile_exit_literal (value : Int64) :
    assemblyFile (stackCode [] [.exit (.literal value)]).instructions =
      Utf8.encode (exitFile (Decimal.ofInt value.toInt)) := by
  have hcode : (stackCode [] [.exit (.literal value)]).instructions =
      .load value.toInt :: .push (.register "rax") :: exitCode := rfl
  have hfront : "global _start\n\n_start:\n  mov rax, ".toList =
      "global _start\n\n_start:\n".toList ++ "  mov rax, ".toList := rfl
  have hback : "\n  push rax\n  pop rdi\n  mov rax, 60\n  syscall\n".toList =
      ['\n'] ++ (.push (.register "rax") :: exitCode).flatMap
        (fun i => Assembly.lineOf i ++ ['\n']) := by
    decide +kernel
  -- the texts are only put together here, so that none of them is compared with another
  have hsplice {first second third rest front back : List Char} (hfront : front = first ++ second)
      (hback : back = third ++ rest) (decimal : List Char) :
      first ++ (second ++ decimal ++ third ++ rest) = front ++ decimal ++ back := by
    simp only [hfront, hback, List.append_assoc]
  rw [hcode, Assembly.assemblyFile_eq_encode, List.flatMap_cons, Assembly.lineOf_load]
  exact congrArg Utf8.encode (hsplice hfront hback _)

/-- However a value is spelled, compiling writes its canonical form. -/
theorem compile_exit_literal {word : List Char} {value : Int64}
    (h : Decimal.Spells word value.toInt) : ∃ sink,
      compile (.memory (Utf8.encode ("exit(".toList ++ word ++ ");".toList))) (.fresh none) =
        (.ok (), sink) ∧
      sink.written = Utf8.encode (exitFile (Decimal.ofInt value.toInt)) := by
  obtain ⟨sink, hgenerate, hwritten⟩ := generate_fresh (p := [.exit (.literal value)]) rfl
  refine ⟨sink, ?_, hwritten.trans (assemblyFile_exit_literal value)⟩
  rw [compile, parse_exit_literal h]
  exact hgenerate

end Program

open Decimal (Spells InRange Canonical)

/-- **Integers are exact, from the word to the assembly.**  Let a text be one word, of characters
that belong to words.  It is read as an integer exactly if it is an optional sign and one or more
digits, with any number of leading zeros, and its value is a 64-bit number.  Then the token has that
value, and a program that exits with the word is compiled to a file that loads the canonical decimal
of the value.  A numeral whose value is no 64-bit number is refused as a bad word.  The decimal that
a generator writes for a number is read as an integer with that number as its value. -/
theorem integers_exact {word : List Char} (hne : word ≠ [])
    (hword : ∀ c ∈ word, isBlank c = false ∧ CharClass.isWord (.ofChar c) = true) :
    let answer := (Lexer.ofInput (.memory (Utf8.encode word))).next.1
    ((∃ t, answer = .ok t ∧ t.kind = .integer) ↔ ∃ n, Spells word n ∧ InRange n) ∧
    (∀ n, Spells word n → InRange n →
      (∃ value : Int64, value.toInt = n ∧
        answer = .ok ⟨.integer, String.ofList word, value, .start⟩) ∧
      ∃ decimal sink, (∀ other, Canonical other ∧ Spells other n ↔ other = decimal) ∧
        compile (.memory (Utf8.encode ("exit(".toList ++ word ++ ");".toList))) (.fresh none) =
          (.ok (), sink) ∧
        sink.written = Utf8.encode (exitFile decimal)) ∧
    (∀ n, Spells word n → ¬InRange n →
      answer = .error (.invalidWord (Utf8.encode word) .start)) ∧
    ∀ (value : Int64) (frame : Frame), ∃ decimal load push after,
      (Expr.literal value).code frame = .ok ([load, push], after) ∧
      load.text = "mov rax, " ++ String.ofList decimal ∧
      (Lexer.ofInput (.memory (Utf8.encode decimal))).next.1 =
        .ok ⟨.integer, String.ofList decimal, value, .start⟩ := by
  intro answer
  have hchars : ∀ c ∈ word, Lexer.endsWord c = false := by
    intro c hc
    obtain ⟨hblank, hclass⟩ := hword c hc
    simp [Lexer.endsWord, hblank, hclass]
  have hanswer : answer = Token.ofWord word .start := Lexer.next_memory_word hne hchars
  rw [hanswer]
  refine ⟨⟨?_, ?_⟩, ?_, ?_, ?_⟩
  · rintro ⟨t, ht, hkind⟩
    exact ⟨t.value.toInt, Token.spells_of_ofWord ht hkind,
      Decimal.fits64_eq_true_iff.mp (Decimal.fits64_toInt t.value)⟩
  · rintro ⟨n, hn, hrange⟩
    obtain ⟨value, -, hvalue⟩ := Token.ofWord_of_inRange hn hrange .start
    exact ⟨_, hvalue, rfl⟩
  · intro n hn hrange
    obtain ⟨value, rfl, hvalue⟩ := Token.ofWord_of_inRange hn hrange .start
    obtain ⟨sink, hcompile, hwritten⟩ := Program.compile_exit_literal hn
    exact ⟨⟨value, rfl, hvalue⟩, Decimal.ofInt value.toInt, sink,
      fun other => Decimal.canonical_iff, hcompile, hwritten⟩
  · intro n hn hrange
    exact Token.ofWord_of_not_inRange hn hrange .start
  · intro value frame
    have hspells := Decimal.spells_ofInt value.toInt
    refine ⟨Decimal.ofInt value.toInt, .load value.toInt, _, _, rfl, rfl, ?_⟩
    rw [Lexer.next_memory_word hspells.ne_nil hspells.endsWord_eq_false]
    exact (Lexeme.Word.integer hspells).ofWord_eq_ok rfl .start

/-- The least 64-bit number with leading zeros, and a numeral just outside the range. -/
theorem integers_exact_limits :
    (∀ c ∈ "-0009223372036854775808".toList,
      isBlank c = false ∧ CharClass.isWord (.ofChar c) = true) ∧
    (∃ value : Int64, value.toInt = -9223372036854775808 ∧
      (Lexer.ofInput (.memory (Utf8.encode "-0009223372036854775808".toList))).next.1 =
        .ok ⟨.integer, "-0009223372036854775808", value, .start⟩) ∧
    (∃ sink, compile (.memory (Utf8.encode
        ("exit(".toList ++ "-0009223372036854775808".toList ++ ");".toList))) (.fresh none) =
          (.ok (), sink) ∧
      sink.written = Utf8.encode (exitFile "-9223372036854775808".toList)) ∧
    (Lexer.ofInput (.memory (Utf8.encode "+9223372036854775808".toList))).next.1 =
      .error (.invalidWord (Utf8.encode "+9223372036854775808".toList) .start) := by
  have hchars (word : List Char)
      (h : word.all (fun c => !isBlank c && CharClass.isWord (.ofChar c)) = true) :
      ∀ c ∈ word, isBlank c = false ∧ CharClass.isWord (.ofChar c) = true := by
    simpa using h
  have hleast := hchars "-0009223372036854775808".toList (by decide)
  have hspells : Spells "-0009223372036854775808".toList (-9223372036854775808) :=
    Decimal.toInt?_eq_some_iff.mp (by decide)
  have hcanonical : Canonical "-9223372036854775808".toList ∧
      Spells "-9223372036854775808".toList (-9223372036854775808) :=
    Decimal.canonical_iff.mpr (by decide)
  have houtside : Spells "+9223372036854775808".toList 9223372036854775808 :=
    Decimal.toInt?_eq_some_iff.mp (by decide)
  obtain ⟨-, hinteger, -, -⟩ := integers_exact (by decide) hleast
  obtain ⟨hvalue, decimal, sink, hdecimal, hcompile, hwritten⟩ :=
    hinteger _ hspells ⟨by decide, by decide⟩
  rw [← (hdecimal _).mp hcanonical] at hwritten
  refine ⟨hleast, hvalue, ⟨sink, hcompile, hwritten⟩, ?_⟩
  obtain ⟨-, -, hrefused, -⟩ := integers_exact (by decide)
    (hchars "+9223372036854775808".toList (by decide))
  exact hrefused _ houtside fun hrange => absurd hrange.2 (by decide)

end LetExit
