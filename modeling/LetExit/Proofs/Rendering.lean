import LetExit.Proofs.Language
import LetExit.Proofs.TokenSequence

/-!
# Writing programs down

There are many texts for one program: any white space may stand before, between and behind
the tokens, as long as there is some behind `let`, and an integer may have a sign and
leading zeros.  `Program.Renders` says which texts these are, without any reference to how
a text is read.  Reading such a text gives the program back (`Program.parse_of_renders`).
-/

set_option autoImplicit false

namespace LetExit

/-- A run of white space. -/
def IsGap (gap : List Char) : Prop :=
  ∀ c ∈ gap, isBlank c = true

/-- The spellings of an integer: a sign, any number of zeros, and the digits of its absolute value.
A negative number has the sign `-`, a positive one `+` or none, and zero any of the three. -/
inductive Decimal.Renders (n : Int) : List Char → Prop
  | minus (zeros : Nat) : n ≤ 0 →
      Renders n ('-' :: (List.replicate zeros '0' ++ Nat.toDigits 10 n.natAbs))
  | plus (zeros : Nat) : 0 ≤ n →
      Renders n ('+' :: (List.replicate zeros '0' ++ Nat.toDigits 10 n.natAbs))
  | unsigned (zeros : Nat) : 0 ≤ n →
      Renders n (List.replicate zeros '0' ++ Nat.toDigits 10 n.natAbs)

/-- The words for an expression. -/
inductive Expr.Renders : Expr → List Char → Prop
  | literal {value : Int64} {numeral : List Char} : Decimal.Renders value.toInt numeral →
      Renders (.literal value) numeral
  | name (x : String) : Renders (.name x) x.toList

/-- The texts of a statement, from its keyword to its semicolon. -/
inductive Statement.Renders : Statement → List Char → Prop
  | bind {x : String} {e : Expr} {word g₁ g₂ g₃ g₄ : List Char} : e.Renders word →
      IsGap g₁ → g₁ ≠ [] → IsGap g₂ → IsGap g₃ → IsGap g₄ →
      Renders (.bind x e)
        ("let".toList ++ g₁ ++ x.toList ++ g₂ ++ "=".toList ++ g₃ ++ word ++ g₄ ++ ";".toList)
  | exit {e : Expr} {word g₁ g₂ g₃ g₄ : List Char} : e.Renders word →
      IsGap g₁ → IsGap g₂ → IsGap g₃ → IsGap g₄ →
      Renders (.exit e)
        ("exit".toList ++ g₁ ++ "(".toList ++ g₂ ++ word ++ g₃ ++ ")".toList ++ g₄ ++ ";".toList)

/-- The texts of a program: its statements in order, with white space before, between and behind
them. -/
inductive Program.Renders : Program → List Char → Prop
  | nil {gap : List Char} : IsGap gap → Renders [] gap
  | cons {s : Statement} {p : Program} {gap text later : List Char} : IsGap gap → s.Renders text →
      Renders p later → Renders (s :: p) (gap ++ text ++ later)

/-- A string that can be a name: an ASCII letter followed by ASCII letters, digits and underscores,
but no keyword. -/
def IsName (x : String) : Prop :=
  (∃ first rest, x.toList = first :: rest ∧ first.isAlpha = true ∧
    ∀ c ∈ rest, c.isAlphanum = true ∨ c = '_') ∧ x ≠ "let" ∧ x ≠ "exit"

namespace Decimal

/-- Leading zeros do not change the value. -/
theorem placeValue_replicate_append (zeros : Nat) (digits : List Char) :
    placeValue (List.replicate zeros '0' ++ digits) = placeValue digits := by
  induction zeros with
  | zero => rfl
  | succ zeros ih =>
    rw [List.replicate_succ, List.cons_append, placeValue, ih, Nat.sub_self, Nat.zero_mul,
      Nat.zero_add]

/-- Digits with leading zeros are digits. -/
theorem IsDigits.replicate_append {digits : List Char} (h : IsDigits digits) (zeros : Nat) :
    IsDigits (List.replicate zeros '0' ++ digits) := by
  refine ⟨?_, ?_⟩
  · intro hnil
    exact h.1 (List.append_eq_nil_iff.mp hnil).2
  · intro d hd
    rw [List.mem_append] at hd
    cases hd with
    | inl hzero =>
      rw [List.eq_of_mem_replicate hzero]
      decide
    | inr hdigit => exact h.2 d hdigit

/-- A spelling of an integer writes it. -/
theorem Renders.spells {n : Int} {word : List Char} (h : Renders n word) : Spells word n := by
  have hdigits (zeros : Nat) := (isDigits_toDigits n.natAbs).replicate_append zeros
  have hvalue (zeros : Nat) :
      placeValue (List.replicate zeros '0' ++ Nat.toDigits 10 n.natAbs) = n.natAbs := by
    rw [placeValue_replicate_append, ← ofDigitChars_eq_placeValue, Nat.ofDigitChars_ten_toDigits]
  cases h with
  | minus zeros hn =>
    have hspells := Spells.minus (hdigits zeros)
    have habs : -(n.natAbs : Int) = n := by omega
    rwa [hvalue, habs] at hspells
  | plus zeros hn =>
    have hspells := Spells.plus (hdigits zeros)
    have habs : (n.natAbs : Int) = n := by omega
    rwa [hvalue, habs] at hspells
  | unsigned zeros hn =>
    have hspells := Spells.unsigned (hdigits zeros)
    have habs : (n.natAbs : Int) = n := by omega
    rwa [hvalue, habs] at hspells

end Decimal

/-- A name is a word. -/
theorem IsName.word {x : String} (h : IsName x) : Lexeme.Word ⟨.identifier, x, 0⟩ := by
  obtain ⟨⟨first, rest, hx, hfirst, hrest⟩, hlet, hexit⟩ := h
  have hofList : x = String.ofList (first :: rest) := by rw [← hx, String.ofList_toList]
  subst hofList
  exact .identifier hfirst hrest hlet hexit

namespace Layout

/-- A symbol can stand in front of every layout. -/
theorem exists_symbol {gap : List Char} {x : Lexeme} (hgap : IsGap gap) (hx : x.Symbol)
    (later : Layout) : ∃ layout : Layout, layout.lexemes = x :: later.lexemes ∧
      layout.text = gap ++ (x.content.toList ++ later.text) := by
  have hseparated : ∀ second ∈ later.parts.head?, x.Word → second.1.Word → later.indent ≠ [] := by
    intro second _ hword
    exact absurd hword hx.not_word
  exact ⟨cons gap x later hgap (Or.inl hx) hseparated, rfl, text_cons _ _ _⟩

/-- A word can stand in front of a layout whose text does not go on with the word. -/
theorem exists_word {gap : List Char} {x : Lexeme} (hgap : IsGap gap) (hx : x.Word)
    (later : Layout) (hends : ∀ c ∈ later.text.head?, Lexer.endsWord c = true) :
    ∃ layout : Layout, layout.lexemes = x :: later.lexemes ∧
      layout.text = gap ++ (x.content.toList ++ later.text) := by
  have hseparated : ∀ second ∈ later.parts.head?, x.Word → second.1.Word → later.indent ≠ [] := by
    intro second hsecond _
    exact endsWord_head_text_iff.mp hends second hsecond
  exact ⟨cons gap x later hgap (Or.inr hx) hseparated, rfl, text_cons _ _ _⟩

end Layout

/-- White space that is not empty ends the word in front of it. -/
theorem IsGap.endsWord_head {gap : List Char} (h : IsGap gap) (hne : gap ≠ [])
    (later : List Char) : ∀ c ∈ (gap ++ later).head?, Lexer.endsWord c = true := by
  intro c hc
  obtain ⟨d, rest, rfl⟩ := List.exists_cons_of_ne_nil hne
  obtain rfl := Option.some.inj hc
  rw [Lexer.endsWord, h d (List.mem_cons_self ..), Bool.true_or]

/-- White space may be missing between a word and a symbol. -/
theorem IsGap.endsWord_head_symbol {gap : List Char} (h : IsGap gap) {x : Lexeme} (hx : x.Symbol)
    (later : List Char) :
    ∀ c ∈ (gap ++ (x.content.toList ++ later)).head?, Lexer.endsWord c = true := by
  by_cases hgap : gap = []
  · obtain ⟨c, hcontent, hends⟩ := hx.exists_toList_content
    rw [hgap, hcontent]
    intro d hd
    obtain rfl := Option.some.inj hd
    exact hends
  · exact h.endsWord_head hgap _

/-- A token of the given lexeme. -/
def Lexeme.token (x : Lexeme) : Token :=
  ⟨x.kind, x.content, x.value, .start⟩

/-- Which expression a token is does not depend on its position. -/
theorem Expr.Derives.of_lexeme {e : Expr} {t u : Token} (h : e.Derives t)
    (hlexeme : u.lexeme = t.lexeme) : e.Derives u := by
  have hkind : u.kind = t.kind := congrArg Lexeme.kind hlexeme
  have hcontent : u.content = t.content := congrArg Lexeme.content hlexeme
  have hvalue : u.value = t.value := congrArg Lexeme.value hlexeme
  cases h with
  | integer hinteger =>
    rw [← hvalue]
    exact .integer (hkind.trans hinteger)
  | name hname =>
    rw [← hcontent]
    exact .name (hkind.trans hname)

/-- Which statement tokens are does not depend on their positions. -/
theorem Statement.Derives.of_lexemes {s : Statement} {ts us : List Token} (h : s.Derives ts)
    (hlexemes : us.map Token.lexeme = ts.map Token.lexeme) : s.Derives us := by
  have hkind {t u : Token} (hlexeme : u.lexeme = t.lexeme) : u.kind = t.kind :=
    congrArg Lexeme.kind hlexeme
  cases h with
  | @bind _ ident _ _ _ _ hk hx hq he hz =>
    simp only [List.map_cons, List.map_nil, List.map_eq_cons_iff, List.map_eq_nil_iff] at hlexemes
    obtain ⟨k, _, rfl, hk', x, _, rfl, hx', q, _, rfl, hq', t, _, rfl, ht', z, _, rfl, hz', rfl⟩ :=
      hlexemes
    have hcontent : x.content = ident.content := congrArg Lexeme.content hx'
    rw [← hcontent]
    exact .bind ((hkind hk').trans hk) ((hkind hx').trans hx) ((hkind hq').trans hq)
      (he.of_lexeme ht') ((hkind hz').trans hz)
  | exit hk ho he hc hz =>
    simp only [List.map_cons, List.map_nil, List.map_eq_cons_iff, List.map_eq_nil_iff] at hlexemes
    obtain ⟨k, _, rfl, hk', o, _, rfl, ho', t, _, rfl, ht', c, _, rfl, hc', z, _, rfl, hz', rfl⟩ :=
      hlexemes
    exact .exit ((hkind hk').trans hk) ((hkind ho').trans ho) (he.of_lexeme ht')
      ((hkind hc').trans hc) ((hkind hz').trans hz)

/-- Which program tokens stand for does not depend on their positions. -/
theorem Program.Derives.of_lexemes {p : Program} {ts us : List Token} (h : p.Derives ts)
    (hlexemes : us.map Token.lexeme = ts.map Token.lexeme) : p.Derives us := by
  induction h generalizing us with
  | nil =>
    obtain rfl := List.map_eq_nil_iff.mp hlexemes
    exact .nil
  | cons hs _ ih =>
    rw [List.map_append, List.map_eq_append_iff] at hlexemes
    obtain ⟨us₁, us₂, rfl, hfirst, hlater⟩ := hlexemes
    exact .cons (hs.of_lexemes hfirst) (ih hlater)

/-- The rendering of an expression is a word that is read as the expression. -/
theorem Expr.Renders.exists_lexeme {e : Expr} {word : List Char} (h : e.Renders word)
    (hname : ∀ x, e = .name x → IsName x) :
    ∃ y : Lexeme, y.Word ∧ y.content.toList = word ∧ e.Derives y.token := by
  cases h with
  | @literal value _ hnumeral =>
    have hderives :=
      Expr.Derives.integer (t := Lexeme.token ⟨.integer, String.ofList word, value⟩) rfl
    exact ⟨⟨.integer, String.ofList word, value⟩, .integer hnumeral.spells, String.toList_ofList,
      hderives⟩
  | name x =>
    have hderives := Expr.Derives.name (t := Lexeme.token ⟨.identifier, x, 0⟩) rfl
    exact ⟨⟨.identifier, x, 0⟩, (hname x rfl).word, rfl, hderives⟩

/-- The text of a statement can stand in front of every layout. -/
theorem Statement.Renders.exists_layout {s : Statement} {gap text : List Char} (h : s.Renders text)
    (hgap : IsGap gap) (hbinds : ∀ x ∈ s.binds, IsName x)
    (hexpr : ∀ x, s.expr? = some (.name x) → IsName x) (later : Layout) :
    ∃ (xs : List Lexeme) (layout : Layout), layout.lexemes = xs ++ later.lexemes ∧
      layout.text = gap ++ text ++ later.text ∧ s.Derives (xs.map Lexeme.token) := by
  cases h with
  | @bind x e word g₁ g₂ g₃ g₄ hword hg₁ hne hg₂ hg₃ hg₄ =>
    have hx : IsName x := hbinds x (by simp [Statement.binds])
    obtain ⟨y, hy, hcontent, hderives⟩ :=
      hword.exists_lexeme fun x hx => hexpr x (congrArg some hx)
    -- from the semicolon to the keyword
    obtain ⟨l₅, hlexemes₅, htext₅⟩ := Layout.exists_symbol hg₄ .semicolon later
    obtain ⟨l₄, hlexemes₄, htext₄⟩ := Layout.exists_word hg₃ hy l₅
      (by rw [htext₅]; exact hg₄.endsWord_head_symbol .semicolon _)
    obtain ⟨l₃, hlexemes₃, htext₃⟩ := Layout.exists_symbol hg₂ .equals l₄
    obtain ⟨l₂, hlexemes₂, htext₂⟩ := Layout.exists_word hg₁ hx.word l₃
      (by rw [htext₃]; exact hg₂.endsWord_head_symbol .equals _)
    obtain ⟨l₁, hlexemes₁, htext₁⟩ := Layout.exists_word hgap .letWord l₂
      (by rw [htext₂]; exact hg₁.endsWord_head hne _)
    refine ⟨[⟨.letWord, "let", 0⟩, ⟨.identifier, x, 0⟩, ⟨.equals, "=", 0⟩, y,
      ⟨.semicolon, ";", 0⟩], l₁, ?_, ?_,
      .bind (x := Lexeme.token ⟨.identifier, x, 0⟩) rfl rfl rfl hderives rfl⟩
    · rw [hlexemes₁, hlexemes₂, hlexemes₃, hlexemes₄, hlexemes₅]
      rfl
    · rw [htext₁, htext₂, htext₃, htext₄, htext₅, hcontent]
      simp only [List.append_assoc]
  | @exit e word g₁ g₂ g₃ g₄ hword hg₁ hg₂ hg₃ hg₄ =>
    obtain ⟨y, hy, hcontent, hderives⟩ :=
      hword.exists_lexeme fun x hx => hexpr x (congrArg some hx)
    obtain ⟨l₅, hlexemes₅, htext₅⟩ := Layout.exists_symbol hg₄ .semicolon later
    obtain ⟨l₄, hlexemes₄, htext₄⟩ := Layout.exists_symbol hg₃ .parenClose l₅
    obtain ⟨l₃, hlexemes₃, htext₃⟩ := Layout.exists_word hg₂ hy l₄
      (by rw [htext₄]; exact hg₃.endsWord_head_symbol .parenClose _)
    obtain ⟨l₂, hlexemes₂, htext₂⟩ := Layout.exists_symbol hg₁ .parenOpen l₃
    obtain ⟨l₁, hlexemes₁, htext₁⟩ := Layout.exists_word hgap .exitWord l₂
      (by rw [htext₂]; exact hg₁.endsWord_head_symbol .parenOpen _)
    refine ⟨[⟨.exitWord, "exit", 0⟩, ⟨.parenOpen, "(", 0⟩, y, ⟨.parenClose, ")", 0⟩,
      ⟨.semicolon, ";", 0⟩], l₁, ?_, ?_, .exit rfl rfl hderives rfl rfl⟩
    · rw [hlexemes₁, hlexemes₂, hlexemes₃, hlexemes₄, hlexemes₅]
      rfl
    · rw [htext₁, htext₂, htext₃, htext₄, htext₅, hcontent]
      simp only [List.append_assoc]

/-- A text of a program is the text of a layout whose lexemes stand for the program. -/
theorem Program.Renders.exists_layout {p : Program} {text : List Char} (h : p.Renders text)
    (hnames : ∀ x ∈ p.names, IsName x)
    (hexprs : ∀ s ∈ p, ∀ x, s.expr? = some (.name x) → IsName x) :
    ∃ layout : Layout, layout.text = text ∧ p.Derives (layout.lexemes.map Lexeme.token) := by
  induction h with
  | nil hgap => exact ⟨.blank _ hgap, Layout.text_blank hgap, .nil⟩
  | @cons s p gap text later hgap hs _ ih =>
    obtain ⟨hexpr, hexprs⟩ := List.forall_mem_cons.mp hexprs
    rw [names_cons] at hnames
    obtain ⟨after, hafter, hlater⟩ := ih
      (fun x hx => hnames x (List.mem_append_right _ hx)) hexprs
    obtain ⟨xs, layout, hlexemes, htext, hderives⟩ := hs.exists_layout hgap
      (fun x hx => hnames x (List.mem_append_left _ hx)) hexpr after
    refine ⟨layout, ?_, ?_⟩
    · rw [htext, hafter]
    · rw [hlexemes, List.map_append]
      exact .cons hderives hlater

namespace Program

/-- In a scoped program, a name that is referred to is one of those that the program binds. -/
theorem Scoped.mem_names {p : Program} (h : p.Scoped) {s : Statement} (hs : s ∈ p) {x : String}
    (hx : s.expr? = some (.name x)) : x ∈ p.names := by
  obtain ⟨i, hi⟩ := List.mem_iff_getElem?.mp hs
  obtain ⟨j, -, e, hj⟩ := h i s x hi hx
  apply List.mem_flatMap.mpr
  exact ⟨.bind x e, List.mem_of_getElem? hj, Statement.mem_binds_iff.mpr ⟨e, rfl⟩⟩

/-- **Reading undoes writing.**  Let a program bind pairwise distinct names that can be names, and
refer only to names bound by a `let` of smaller index.  However it is written down, with any white
space and any spelling of its integers, reading the bytes of the text gives the program back. -/
theorem parse_of_renders {p : Program} {text : List Char} (hnodup : p.names.Nodup)
    (hnames : ∀ x ∈ p.names, IsName x) (hscoped : p.Scoped) (h : p.Renders text) :
    parse (.memory (Utf8.encode text)) = .ok p := by
  obtain ⟨layout, rfl, hderives⟩ := h.exists_layout hnames
    fun s hs x hx => hnames x (hscoped.mem_names hs hx)
  have hreadings : (Lexer.ofInput (.memory (Utf8.encode layout.text))).view.readings =
      layout.text.map .char := Input.bytesReadings_eq_map_char_iff.mpr rfl
  obtain ⟨tokens, htokens, hlexemes⟩ := Lexer.exists_tokenize_of_layout layout hreadings
  have htoken : Token.lexeme ∘ Lexeme.token = id := rfl
  apply Parser.parse_eq_ok_iff.mpr
  refine ⟨tokens, Parser.ahead_lexer_iff.mpr htokens, hderives.of_lexemes ?_, ?_⟩
  · rw [hlexemes, List.map_map, htoken, List.map_id]
  · apply Declarations.holds_empty.admitsAll_iff.mpr
    exact ⟨hnodup, by simp, scoped_iff_scopedAfter.mp hscoped⟩

/-- Unusual white space, a sign and leading zeros at the least number, and a negative zero. -/
theorem parse_of_renders_spaced :
    parse (.memory (Utf8.ofString
      "\u2003let\u00a0x_1=-009223372036854775808;let\n\tY = x_1 ;exit(-0) ;\n")) =
      .ok [.bind "x_1" (.literal (-9223372036854775808)), .bind "Y" (.name "x_1"),
        .exit (.literal 0)] := by
  have hgap (gap : List Char) (h : gap.all isBlank = true) : IsGap gap := List.all_eq_true.mp h
  have hleast : Expr.Renders (.literal (-9223372036854775808)) "-009223372036854775808".toList :=
    .literal (.minus 2 (by decide))
  have hzero : Expr.Renders (.literal 0) "-0".toList := .literal (.minus 0 (by decide))
  have hx : Statement.Renders (.bind "x_1" (.literal (-9223372036854775808)))
      ("let".toList ++ "\u00a0".toList ++ "x_1".toList ++ [] ++ "=".toList ++ [] ++
        "-009223372036854775808".toList ++ [] ++ ";".toList) :=
    .bind hleast (hgap _ rfl) (by decide) (hgap _ rfl) (hgap _ rfl) (hgap _ rfl)
  have hy : Statement.Renders (.bind "Y" (.name "x_1"))
      ("let".toList ++ "\n\t".toList ++ "Y".toList ++ " ".toList ++ "=".toList ++ " ".toList ++
        "x_1".toList ++ " ".toList ++ ";".toList) :=
    .bind (.name "x_1") (hgap _ rfl) (by decide) (hgap _ rfl) (hgap _ rfl) (hgap _ rfl)
  have hexit : Statement.Renders (.exit (.literal 0))
      ("exit".toList ++ [] ++ "(".toList ++ [] ++ "-0".toList ++ [] ++ ")".toList ++ " ".toList ++
        ";".toList) :=
    .exit hzero (hgap _ rfl) (hgap _ rfl) (hgap _ rfl) (hgap _ rfl)
  have hnames : ∀ x ∈ names [.bind "x_1" (.literal (-9223372036854775808)), .bind "Y" (.name "x_1"),
      .exit (.literal 0)], IsName x := by
    have hx : IsName "x_1" := ⟨⟨'x', ['_', '1'], rfl, rfl, by simp⟩, by decide, by decide⟩
    have hy : IsName "Y" := ⟨⟨'Y', [], rfl, rfl, by simp⟩, by decide, by decide⟩
    simp [names, Statement.binds, hx, hy]
  have hscoped : Scoped [.bind "x_1" (.literal (-9223372036854775808)), .bind "Y" (.name "x_1"),
      .exit (.literal 0)] := by
    simp [scoped_iff_scopedAfter, ScopedAfter, Statement.expr?, Statement.binds]
  have htext : Program.Renders [.bind "x_1" (.literal (-9223372036854775808)),
      .bind "Y" (.name "x_1"), .exit (.literal 0)] _ :=
    .cons (hgap "\u2003".toList rfl) hx (.cons (hgap [] rfl) hy (.cons (hgap [] rfl) hexit
      (.nil (hgap "\n".toList rfl))))
  rw [← parse_of_renders (by decide) hnames hscoped htext]
  apply congrArg (fun text => parse (.memory (Utf8.encode text)))
  decide +kernel

end Program

end LetExit
