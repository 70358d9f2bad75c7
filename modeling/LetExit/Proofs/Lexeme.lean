import LetExit.Proofs.Decimal
import LetExit.Proofs.Readings

/-!
# The lexical grammar

A lexeme is a token without its position.  `Lexeme.Symbol` and `Lexeme.Word` are the
lexemes that a text can hold.  A lexer decides between them character by character, and
a word by the whole of it: `Token.Kind.ofSymbol?_eq_some_iff` and `Token.ofWord_eq_ok_iff`
say that it decides as the grammar does.
-/

set_option autoImplicit false

namespace LetExit

/-- The part of a token that does not depend on where it stands. -/
structure Lexeme where
  kind : Token.Kind
  content : String
  value : Int64
deriving DecidableEq, Repr

/-- The lexeme of a token. -/
def Token.lexeme (t : Token) : Lexeme :=
  ⟨t.kind, t.content, t.value⟩

namespace Lexeme

/-- The symbols. -/
inductive Symbol : Lexeme → Prop
  | equals : Symbol ⟨.equals, "=", 0⟩
  | semicolon : Symbol ⟨.semicolon, ";", 0⟩
  | parenOpen : Symbol ⟨.parenOpen, "(", 0⟩
  | parenClose : Symbol ⟨.parenClose, ")", 0⟩

/-- The words.  An integer is any numeral whose value is a 64-bit number, and a name is an ASCII
letter followed by ASCII letters, digits and underscores, but no keyword. -/
inductive Word : Lexeme → Prop
  | letWord : Word ⟨.letWord, "let", 0⟩
  | exitWord : Word ⟨.exitWord, "exit", 0⟩
  | integer {numeral : List Char} {value : Int64} :
      Decimal.Spells numeral value.toInt → Word ⟨.integer, String.ofList numeral, value⟩
  | identifier {first : Char} {rest : List Char} :
      first.isAlpha = true → (∀ c ∈ rest, c.isAlphanum = true ∨ c = '_') →
      String.ofList (first :: rest) ≠ "let" → String.ofList (first :: rest) ≠ "exit" →
      Word ⟨.identifier, String.ofList (first :: rest), 0⟩

end Lexeme

/-- Letters by their code points. -/
theorem isAlpha_iff_toNat {c : Char} :
    c.isAlpha = true ↔ (65 ≤ c.toNat ∧ c.toNat ≤ 90) ∨ (97 ≤ c.toNat ∧ c.toNat ≤ 122) := by
  show (decide (c.val ≥ 'A'.val ∧ c.val ≤ 'Z'.val) ||
    (decide (c.val ≥ 'a'.val) && decide (c.val ≤ 'z'.val))) = true ↔ _
  simp [UInt32.le_iff_toNat_le, ← Char.toNat_val]

/-- Digits by their code points. -/
theorem isDigit_iff_toNat {c : Char} : c.isDigit = true ↔ 48 ≤ c.toNat ∧ c.toNat ≤ 57 := by
  simp [Char.isDigit, UInt32.le_iff_toNat_le, ← Char.toNat_val]

namespace CharClass

/-- The class of letters by its ranges. -/
theorem isLetter_eq_true_iff (n : Int) :
    isLetter n = true ↔ (97 ≤ n ∧ n ≤ 122) ∨ (65 ≤ n ∧ n ≤ 90) := by
  simp [isLetter]

/-- Names go on with letters, underscores and digits. -/
theorem isNameChar_eq_true_iff (n : Int) :
    isNameChar n = true ↔ isLetter n = true ∨ n = 95 ∨ (48 ≤ n ∧ n ≤ 57) := by
  simp [isNameChar, isUnderscore, isDigit, or_assoc]

/-- The class of punctuation by its ranges. -/
theorem isPunctuation_eq_true_iff (n : Int) :
    isPunctuation n = true ↔
      (33 ≤ n ∧ n ≤ 47) ∨ (58 ≤ n ∧ n ≤ 64) ∨ (91 ≤ n ∧ n ≤ 96) ∨ (123 ≤ n ∧ n ≤ 126) := by
  simp [isPunctuation, or_assoc]

/-- Words have underscores and signs, and everything that is no punctuation. -/
theorem isWord_eq_true_iff (n : Int) :
    isWord n = true ↔ n = 95 ∨ n = 45 ∨ n = 43 ∨ ¬isPunctuation n = true := by
  simp [isWord, or_assoc]

/-- On characters, the class of letters is the one of the library. -/
theorem isLetter_ofChar_iff {c : Char} : isLetter (.ofChar c) = true ↔ c.isAlpha = true := by
  rw [isAlpha_iff_toNat, isLetter_eq_true_iff, CodePoint.ofChar]
  omega

/-- On characters, names go on with letters, digits and underscores. -/
theorem isNameChar_ofChar_iff {c : Char} :
    isNameChar (.ofChar c) = true ↔ c.isAlphanum = true ∨ c = '_' := by
  have hunderscore : c = '_' ↔ c.toNat = 95 := Char.toNat_inj.symm
  rw [isNameChar_eq_true_iff, isLetter_ofChar_iff, CodePoint.ofChar, Char.isAlphanum,
    Bool.or_eq_true, isAlpha_iff_toNat, isDigit_iff_toNat, hunderscore]
  omega

end CharClass

/-- A name is a letter followed by letters, digits and underscores. -/
theorem isIdentifier_eq_true_iff {word : List Char} :
    isIdentifier word = true ↔ ∃ first rest, word = first :: rest ∧ first.isAlpha = true ∧
      ∀ c ∈ rest, c.isAlphanum = true ∨ c = '_' := by
  cases word with
  | nil => simp [isIdentifier]
  | cons first rest =>
    simp only [isIdentifier, Bool.and_eq_true, List.all_eq_true, CharClass.isLetter_ofChar_iff,
      CharClass.isNameChar_ofChar_iff, List.cons.injEq]
    constructor
    · rintro ⟨hfirst, hrest⟩
      exact ⟨first, rest, ⟨rfl, rfl⟩, hfirst, hrest⟩
    · rintro ⟨_, _, ⟨rfl, rfl⟩, hfirst, hrest⟩
      exact ⟨hfirst, hrest⟩

/-- The ASCII characters that words are made of. -/
def isWordChar (c : Char) : Bool :=
  c.isAlphanum || c == '_' || c == '+' || c == '-'

/-- The characters of words do not end a word. -/
theorem endsWord_eq_false_of_isWordChar {c : Char} (h : isWordChar c = true) :
    Lexer.endsWord c = false := by
  have hcode (d : Char) : c = d ↔ c.toNat = d.toNat := Char.toNat_inj.symm
  simp only [isWordChar, Char.isAlphanum, Bool.or_eq_true, beq_iff_eq, isAlpha_iff_toNat,
    isDigit_iff_toNat, hcode] at h
  change (((((65 ≤ c.toNat ∧ c.toNat ≤ 90) ∨ (97 ≤ c.toNat ∧ c.toNat ≤ 122)) ∨
    (48 ≤ c.toNat ∧ c.toNat ≤ 57)) ∨ c.toNat = 95) ∨ c.toNat = 43) ∨ c.toNat = 45 at h
  have hword : CharClass.isWord (.ofChar c) = true := by
    rw [CharClass.isWord_eq_true_iff, CharClass.isPunctuation_eq_true_iff, CodePoint.ofChar]
    omega
  have hblank : isBlank c = false := by
    simp only [isBlank, Bool.or_eq_false_iff, Bool.and_eq_false_iff, decide_eq_false_iff_not,
      beq_eq_false_iff_ne]
    omega
  rw [Lexer.endsWord, hword, hblank]
  rfl

/-- The four symbols and their kinds. -/
theorem Token.Kind.ofSymbol?_eq_some_iff {c : Char} {kind : Token.Kind} :
    ofSymbol? c = some kind ↔ (c = '=' ∧ kind = .equals) ∨ (c = ';' ∧ kind = .semicolon) ∨
      (c = '(' ∧ kind = .parenOpen) ∨ (c = ')' ∧ kind = .parenClose) := by
  unfold ofSymbol?
  grind

/-- A lexer takes for symbols what the grammar does. -/
theorem Lexeme.symbol_iff {x : Lexeme} :
    x.Symbol ↔ ∃ c kind, Token.Kind.ofSymbol? c = some kind ∧ x = ⟨kind, String.singleton c, 0⟩ := by
  constructor
  · intro h
    cases h with
    | equals => exact ⟨'=', .equals, rfl, rfl⟩
    | semicolon => exact ⟨';', .semicolon, rfl, rfl⟩
    | parenOpen => exact ⟨'(', .parenOpen, rfl, rfl⟩
    | parenClose => exact ⟨')', .parenClose, rfl, rfl⟩
  · rintro ⟨c, kind, hkind, rfl⟩
    obtain ⟨rfl, rfl⟩ | ⟨rfl, rfl⟩ | ⟨rfl, rfl⟩ | ⟨rfl, rfl⟩ :=
      Token.Kind.ofSymbol?_eq_some_iff.mp hkind
    · exact .equals
    · exact .semicolon
    · exact .parenOpen
    · exact .parenClose

/-- A symbol ends the word in front of it and is no white space. -/
theorem endsWord_of_ofSymbol? {c : Char} {kind : Token.Kind}
    (h : Token.Kind.ofSymbol? c = some kind) : Lexer.endsWord c = true ∧ isBlank c = false := by
  obtain ⟨rfl, -⟩ | ⟨rfl, -⟩ | ⟨rfl, -⟩ | ⟨rfl, -⟩ := Token.Kind.ofSymbol?_eq_some_iff.mp h <;>
    decide

/-- A word is made of the characters of words. -/
theorem Lexeme.Word.isWordChar {x : Lexeme} (h : x.Word) :
    ∀ c ∈ x.content.toList, isWordChar c = true := by
  intro c hc
  cases h with
  | letWord =>
    have hletters : "let".toList.all LetExit.isWordChar = true := by decide
    exact List.all_eq_true.mp hletters c hc
  | exitWord =>
    have hletters : "exit".toList.all LetExit.isWordChar = true := by decide
    exact List.all_eq_true.mp hletters c hc
  | integer hspells =>
    rw [String.toList_ofList] at hc
    have := hspells.isDigit_or_sign c hc
    grind [LetExit.isWordChar, Char.isAlphanum]
  | identifier hfirst hrest hlet hexit =>
    rw [String.toList_ofList] at hc
    cases hc with
    | head => simp [LetExit.isWordChar, Char.isAlphanum, hfirst]
    | tail _ hc =>
      have := hrest c hc
      grind [LetExit.isWordChar]

/-- A word has a character. -/
theorem Lexeme.Word.toList_content_ne_nil {x : Lexeme} (h : x.Word) : x.content.toList ≠ [] := by
  cases h with
  | letWord => decide
  | exitWord => decide
  | integer hspells =>
    rw [String.toList_ofList]
    exact hspells.ne_nil
  | identifier hfirst hrest hlet hexit =>
    rw [String.toList_ofList]
    exact List.cons_ne_nil _ _

/-- A symbol is one character, which ends the word in front of it. -/
theorem Lexeme.Symbol.exists_toList_content {x : Lexeme} (h : x.Symbol) :
    ∃ c, x.content.toList = [c] ∧ Lexer.endsWord c = true := by
  obtain ⟨c, kind, hkind, rfl⟩ := Lexeme.symbol_iff.mp h
  exact ⟨c, String.toList_singleton c, (endsWord_of_ofSymbol? hkind).1⟩

/-- A word is a first character and others, none of which ends a word. -/
theorem Lexeme.Word.exists_toList_content {x : Lexeme} (h : x.Word) :
    ∃ c rest, x.content.toList = c :: rest ∧ ∀ d ∈ c :: rest, Lexer.endsWord d = false := by
  obtain ⟨c, rest, hcontent⟩ := List.exists_cons_of_ne_nil h.toList_content_ne_nil
  refine ⟨c, rest, hcontent, fun d hd => endsWord_eq_false_of_isWordChar (h.isWordChar d ?_)⟩
  rw [hcontent]
  exact hd

/-- No symbol is a word. -/
theorem Lexeme.Symbol.not_word {x : Lexeme} (h : x.Symbol) : ¬x.Word := by
  intro hword
  obtain ⟨c, hsymbol, hends⟩ := h.exists_toList_content
  obtain ⟨d, rest, hcontent, hchars⟩ := hword.exists_toList_content
  have hd := hchars d (List.mem_cons_self ..)
  rw [hsymbol, List.cons.injEq] at hcontent
  rw [← hcontent.1, hends] at hd
  cases hd

/-- The two keywords and their kinds. -/
theorem Token.Kind.ofKeyword?_eq_some_iff {word : List Char} {kind : Token.Kind} :
    ofKeyword? word = some kind ↔ (String.ofList word = "let" ∧ kind = .letWord) ∨
      (String.ofList word = "exit" ∧ kind = .exitWord) := by
  have hlet : String.ofList word = "let" ↔ word = ['l', 'e', 't'] := String.ofList_inj
  have hexit : String.ofList word = "exit" ↔ word = ['e', 'x', 'i', 't'] := String.ofList_inj
  rw [hlet, hexit]
  unfold ofKeyword?
  grind

/-- No number is spelled like a keyword. -/
theorem Decimal.Spells.ofKeyword?_eq_none {word : List Char} {n : Int} (h : Spells word n) :
    Token.Kind.ofKeyword? word = none := by
  unfold Token.Kind.ofKeyword?
  have hletter := h.isDigit_or_sign
  split
  · rename_i hword
    subst hword
    exact absurd (hletter 'l' (by simp)) (by decide)
  · split
    · rename_i hword
      subst hword
      exact absurd (hletter 'e' (by simp)) (by decide)
    · rfl

/-- The content of a word lexeme is read as that lexeme. -/
theorem Lexeme.Word.ofWord_eq_ok {x : Lexeme} (h : x.Word) {word : List Char}
    (hcontent : x.content = String.ofList word) (p : Position) :
    Token.ofWord word p = .ok ⟨x.kind, x.content, x.value, p⟩ := by
  cases h with
  | letWord =>
    have hkeyword := Token.Kind.ofKeyword?_eq_some_iff.mpr (Or.inl ⟨hcontent.symm, rfl⟩)
    rw [Token.ofWord, hkeyword, hcontent]
  | exitWord =>
    have hkeyword := Token.Kind.ofKeyword?_eq_some_iff.mpr (Or.inr ⟨hcontent.symm, rfl⟩)
    rw [Token.ofWord, hkeyword, hcontent]
  | integer hspells =>
    obtain rfl := String.ofList_inj.mp hcontent
    rw [Token.ofWord, hspells.ofKeyword?_eq_none, Decimal.toInt64?_eq_some_iff.mpr hspells]
  | @identifier first rest hfirst hrest hlet hexit =>
    obtain rfl := String.ofList_inj.mp hcontent
    have hkeyword : Token.Kind.ofKeyword? (first :: rest) = none := by
      rw [Option.eq_none_iff_forall_ne_some]
      intro kind hkind
      obtain ⟨h, -⟩ | ⟨h, -⟩ := Token.Kind.ofKeyword?_eq_some_iff.mp hkind
      · exact hlet h
      · exact hexit h
    -- a numeral starts with a digit or a sign, a name with a letter
    have hnumeral : Decimal.toInt64? (first :: rest) = none := by
      rw [Option.eq_none_iff_forall_ne_some]
      intro value hvalue
      have hdigit := (Decimal.toInt64?_eq_some_iff.mp hvalue).isDigit_or_sign first
        (List.mem_cons_self ..)
      rw [isAlpha_iff_toNat] at hfirst
      rw [isDigit_iff_toNat] at hdigit
      obtain hdigit | rfl | rfl := hdigit
      · omega
      · exact absurd hfirst (by decide)
      · exact absurd hfirst (by decide)
    have hname : isIdentifier (first :: rest) = true :=
      isIdentifier_eq_true_iff.mpr ⟨first, rest, rfl, hfirst, hrest⟩
    rw [Token.ofWord, hkeyword, hnumeral]
    exact if_pos hname

/-- A lexer takes for words what the grammar does. -/
theorem Token.ofWord_eq_ok_iff {word : List Char} {p : Position} {t : Token} :
    ofWord word p = .ok t ↔
      t.lexeme.Word ∧ t.content = String.ofList word ∧ t.position = p := by
  constructor
  · intro h
    unfold ofWord at h
    split at h
    · rename_i kind hkind
      obtain rfl := Except.ok.inj h
      refine ⟨?_, rfl, rfl⟩
      obtain ⟨hword, rfl⟩ | ⟨hword, rfl⟩ := Token.Kind.ofKeyword?_eq_some_iff.mp hkind
      · rw [hword]
        exact .letWord
      · rw [hword]
        exact .exitWord
    · rename_i hkeyword
      split at h
      · rename_i value hvalue
        obtain rfl := Except.ok.inj h
        exact ⟨.integer (Decimal.toInt64?_eq_some_iff.mp hvalue), rfl, rfl⟩
      · split at h
        · rename_i hname
          obtain rfl := Except.ok.inj h
          obtain ⟨first, rest, rfl, hfirst, hrest⟩ := isIdentifier_eq_true_iff.mp hname
          refine ⟨.identifier hfirst hrest ?_ ?_, rfl, rfl⟩
          · intro hlet
            have := Token.Kind.ofKeyword?_eq_some_iff.mpr (Or.inl ⟨hlet, rfl⟩)
            rw [hkeyword] at this
            cases this
          · intro hexit
            have := Token.Kind.ofKeyword?_eq_some_iff.mpr (Or.inr ⟨hexit, rfl⟩)
            rw [hkeyword] at this
            cases this
        · cases h
  · rintro ⟨hword, hcontent, rfl⟩
    exact hword.ofWord_eq_ok hcontent t.position

end LetExit
