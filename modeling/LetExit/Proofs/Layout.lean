import LetExit.Proofs.Lexeme
import LetExit.Proofs.Loops

/-!
# Layouts

A layout is a text cut into lexemes with white space before, between and after them.
Two words need white space between them, since a word reaches as far as it can; a symbol
needs none.  A lexer finds the layout of a text: it reads a byte string to its end
exactly if the bytes encode the text of a layout, and then its tokens are the lexemes of
that layout (`Lexer.tokenize_memory_eq_ok_iff`).
-/

set_option autoImplicit false

namespace LetExit

/-- The position behind a text. -/
def Position.after (p : Position) (text : List Char) : Position :=
  text.foldl Position.advance p

namespace Lexer

/-- What a word stops at, with what is ahead once it has been seen there: the end of the source, a
character that ends the word and stays ahead, or an end that is reported only once. -/
inductive WordEnd : List Reading → List Reading → Prop
  | nothing : WordEnd [] []
  | char {c : Char} {later : List Reading} :
      endsWord c = true → WordEnd (.char c :: later) (.char c :: later)
  | ended {later : List Reading} : WordEnd (.interrupted .ended :: later) later

/-- Among characters alone, a word stops at one that ends it, or where they are over. -/
theorem wordEnd_map_char_iff {text : List Char} {after : List Reading} :
    WordEnd (text.map .char) after ↔
      after = text.map .char ∧ ∀ c ∈ text.head?, endsWord c = true := by
  cases text with
  | nil =>
    constructor
    · rintro ⟨⟩
      exact ⟨rfl, by simp⟩
    · rintro ⟨rfl, -⟩
      exact .nothing
  | cons c text =>
    rw [List.map_cons, List.head?_cons]
    constructor
    · intro h
      cases h with
      | char hends =>
        refine ⟨rfl, fun d hd => ?_⟩
        obtain rfl := Option.some.inj hd
        exact hends
    · rintro ⟨rfl, hends⟩
      exact .char (hends c rfl)

namespace View

/-- Word characters are taken up to where the word stops. -/
theorem takeWord_append {word : List Char} (hword : ∀ c ∈ word, endsWord c = false)
    {rest after : List Reading} (hend : WordEnd rest after) (p : Position) :
    takeWord p (word.map .char ++ rest) = (.ok word, ⟨after, p.after word⟩) := by
  induction word generalizing p with
  | nil =>
    cases hend with
    | nothing => rfl
    | char hends => exact if_pos hends
    | ended => rfl
  | cons c word ih =>
    obtain ⟨hc, htail⟩ := List.forall_mem_cons.mp hword
    rw [List.map_cons, List.cons_append, takeWord, if_neg (Bool.eq_false_iff.mp hc), ih htail]
    rfl

/-- What is taken stands in front of a place where a word stops. -/
theorem exists_of_takeWord_ok {p : Position} {readings : List Reading} {word : List Char}
    {after : View} (h : takeWord p readings = (.ok word, after)) :
    ∃ rest, readings = word.map .char ++ rest ∧ WordEnd rest after.readings := by
  fun_induction takeWord p readings generalizing word after with
  | case1 p =>
    obtain ⟨hword, rfl⟩ := Prod.mk.inj h
    cases hword
    exact ⟨[], rfl, .nothing⟩
  | case2 p later => cases h
  | case3 p later =>
    obtain ⟨hword, rfl⟩ := Prod.mk.inj h
    cases hword
    exact ⟨_, rfl, .ended⟩
  | case4 p reason later => cases h
  | case5 p c later hends =>
    obtain ⟨hword, rfl⟩ := Prod.mk.inj h
    cases hword
    exact ⟨_, rfl, .char hends⟩
  | case6 p c later hends tail last htail ih =>
    obtain ⟨hword, rfl⟩ := Prod.mk.inj h
    cases hword
    obtain ⟨rest, rfl, hend⟩ := ih htail
    exact ⟨rest, rfl, hend⟩
  | case7 p c later hends fault last htail ih => cases h

/-- White space is skipped. -/
theorem next_blank_append {gap : List Char} (h : ∀ c ∈ gap, isBlank c = true) (p : Position)
    (readings : List Reading) :
    next p (gap.map .char ++ readings) = next (p.after gap) readings := by
  induction gap generalizing p with
  | nil => rfl
  | cons c gap ih =>
    obtain ⟨hc, hgap⟩ := List.forall_mem_cons.mp h
    rw [List.map_cons, List.cons_append, next, if_pos hc, ih hgap]
    rfl

/-- A symbol is the next token whatever comes behind it. -/
theorem next_symbol {x : Lexeme} (h : x.Symbol) (p : Position) (rest : List Reading) :
    next p (x.content.toList.map .char ++ rest) =
      (.ok ⟨x.kind, x.content, x.value, p⟩, ⟨rest, p.after x.content.toList⟩) := by
  obtain ⟨c, kind, hkind, rfl⟩ := Lexeme.symbol_iff.mp h
  have hblank : ¬isBlank c = true := by simp [(endsWord_of_ofSymbol? hkind).2]
  rw [String.toList_singleton]
  show next p (.char c :: rest) = _
  rw [next, if_neg hblank, hkind]
  rfl

/-- A word is the next token if it ends where it stands. -/
theorem next_word {x : Lexeme} (h : x.Word) (p : Position) {rest after : List Reading}
    (hend : WordEnd rest after) :
    next p (x.content.toList.map .char ++ rest) =
      (.ok ⟨x.kind, x.content, x.value, p⟩, ⟨after, p.after x.content.toList⟩) := by
  obtain ⟨c, word, hcontent, hchars⟩ := h.exists_toList_content
  have hofWord := h.ofWord_eq_ok String.ofList_toList.symm p
  obtain ⟨hc, hword⟩ := List.forall_mem_cons.mp hchars
  -- a symbol would end the word
  have hkind : Token.Kind.ofSymbol? c = none := by
    rw [Option.eq_none_iff_forall_ne_some]
    intro kind hkind
    rw [(endsWord_of_ofSymbol? hkind).1] at hc
    cases hc
  have htake := takeWord_append hword hend (p.advance c)
  rw [endsWord, Bool.or_eq_false_iff] at hc
  rw [hcontent] at hofWord ⊢
  rw [List.map_cons, List.cons_append, next, hc.1, hkind, hc.2, htake]
  dsimp only
  rw [hofWord]
  rfl

/-- The next token stands behind white space, and is a symbol or a word that ends there. -/
theorem exists_of_next_ok {p : Position} {readings : List Reading} {t : Token} {after : View}
    (h : next p readings = (.ok t, after)) :
    ∃ (gap : List Char) (rest : List Reading),
      readings = gap.map .char ++ (t.content.toList.map .char ++ rest) ∧
      (∀ c ∈ gap, isBlank c = true) ∧
      (t.lexeme.Symbol ∧ after.readings = rest ∨ t.lexeme.Word ∧ WordEnd rest after.readings) := by
  fun_induction next p readings with
  | case1 p => cases h
  | case2 p later => cases h
  | case3 p cause later => cases h
  | case4 p c later hblank ih =>
    obtain ⟨gap, rest, rfl, hgap, htoken⟩ := ih h
    exact ⟨c :: gap, rest, rfl, List.forall_mem_cons.mpr ⟨hblank, hgap⟩, htoken⟩
  | case5 p c later hblank kind hkind =>
    obtain ⟨ht, rfl⟩ := Prod.mk.inj h
    cases ht
    refine ⟨[], later, ?_, by simp, Or.inl ⟨Lexeme.symbol_iff.mpr ⟨c, kind, hkind, rfl⟩, rfl⟩⟩
    rw [String.toList_singleton]
    rfl
  | case6 p c later hblank hkind hword => cases h
  | case7 p c later hblank hkind hword tail last htail =>
    obtain ⟨ht, rfl⟩ := Prod.mk.inj h
    obtain ⟨hlexeme, hcontent, -⟩ := Token.ofWord_eq_ok_iff.mp ht
    obtain ⟨rest, rfl, hend⟩ := exists_of_takeWord_ok htail
    refine ⟨[], rest, ?_, by simp, Or.inr ⟨hlexeme, hend⟩⟩
    rw [hcontent, String.toList_ofList]
    rfl
  | case8 p c later hblank hkind hword fault last htail => cases h

/-- An end of the input finishes a word and is no fault of it. -/
theorem takeWord_ne_endOfInput (p : Position) (readings : List Reading) (after : View) :
    takeWord p readings ≠ (.error .endOfInput, after) := by
  intro h
  fun_induction takeWord p readings with
  | case1 p => cases h
  | case2 p later => cases h
  | case3 p later => cases h
  | case4 p reason later => cases h
  | case5 p c later hends => cases h
  | case6 p c later hends tail last htail ih => cases h
  | case7 p c later hends fault last htail ih =>
    rw [htail] at ih
    exact ih h

/-- Only white space is in front of an end of the input. -/
theorem exists_of_next_endOfInput {p : Position} {readings : List Reading} {after : View}
    (h : next p readings = (.error .endOfInput, after)) :
    ∃ (gap : List Char) (rest : List Reading), readings = gap.map .char ++ rest ∧
      (∀ c ∈ gap, isBlank c = true) ∧
      (rest = [] ∨ ∃ later, rest = .interrupted .ended :: later) := by
  fun_induction next p readings with
  | case1 p => exact ⟨[], [], rfl, by simp, Or.inl rfl⟩
  | case2 p later => cases h
  | case3 p cause later =>
    cases cause with
    | ended => exact ⟨[], _, rfl, by simp, Or.inr ⟨later, rfl⟩⟩
    | failed reason => cases h
  | case4 p c later hblank ih =>
    obtain ⟨gap, rest, rfl, hgap, hrest⟩ := ih h
    exact ⟨c :: gap, rest, rfl, List.forall_mem_cons.mpr ⟨hblank, hgap⟩, hrest⟩
  | case5 p c later hblank kind hkind => cases h
  | case6 p c later hblank hkind hword => cases h
  | case7 p c later hblank hkind hword tail last htail =>
    unfold Token.ofWord at h
    split at h
    · cases h
    · split at h
      · cases h
      · split at h <;> cases h
  | case8 p c later hblank hkind hword fault last htail =>
    obtain ⟨hfault, -⟩ := Prod.mk.inj h
    rw [Except.error.inj hfault] at htail
    exact absurd htail (takeWord_ne_endOfInput _ _ _)

end View

end Lexer

/-- A text cut into lexemes: white space in front, and each lexeme with the white space behind it.
Two words that follow each other have white space between them. -/
structure Layout where
  indent : List Char
  parts : List (Lexeme × List Char)
  blank_indent : ∀ c ∈ indent, isBlank c = true
  blank_gap : ∀ part ∈ parts, ∀ c ∈ part.2, isBlank c = true
  symbol_or_word : ∀ part ∈ parts, part.1.Symbol ∨ part.1.Word
  separated : ∀ (i : Nat) (first second : Lexeme × List Char), parts[i]? = some first →
    parts[i + 1]? = some second → first.1.Word → second.1.Word → first.2 ≠ []

namespace Layout

/-- The text of a layout. -/
def text (layout : Layout) : List Char :=
  layout.indent ++ layout.parts.flatMap fun part => part.1.content.toList ++ part.2

/-- The lexemes of a layout. -/
def lexemes (layout : Layout) : List Lexeme :=
  layout.parts.map Prod.fst

/-- White space alone. -/
def blank (gap : List Char) (h : ∀ c ∈ gap, isBlank c = true) : Layout where
  indent := gap
  parts := []
  blank_indent := h
  blank_gap := by simp
  symbol_or_word := by simp
  separated := by simp

/-- A lexeme and the white space before it, in front of a layout. -/
def cons (gap : List Char) (x : Lexeme) (later : Layout) (hgap : ∀ c ∈ gap, isBlank c = true)
    (hx : x.Symbol ∨ x.Word)
    (hseparated : ∀ second ∈ later.parts.head?, x.Word → second.1.Word → later.indent ≠ []) :
    Layout where
  indent := gap
  parts := (x, later.indent) :: later.parts
  blank_indent := hgap
  blank_gap := by
    intro part hpart
    cases hpart with
    | head => exact later.blank_indent
    | tail _ hpart => exact later.blank_gap part hpart
  symbol_or_word := by
    intro part hpart
    cases hpart with
    | head => exact hx
    | tail _ hpart => exact later.symbol_or_word part hpart
  separated := by
    intro i first second hfirst hsecond
    cases i with
    | zero =>
      obtain rfl := Option.some.inj hfirst
      rw [Nat.zero_add, List.getElem?_cons_succ, ← List.head?_eq_getElem?] at hsecond
      exact hseparated second hsecond
    | succ i => exact later.separated i first second hfirst hsecond

/-- Every layout is built from white space by putting lexemes in front. -/
@[elab_as_elim]
theorem rec_cons {motive : Layout → Prop} (hblank : ∀ gap h, motive (blank gap h))
    (hcons : ∀ gap x later hgap hx hseparated, motive later →
      motive (cons gap x later hgap hx hseparated))
    (layout : Layout) : motive layout := by
  obtain ⟨indent, parts, hindent, hgap, hlexeme, hseparated⟩ := layout
  induction parts generalizing indent with
  | nil => exact hblank indent hindent
  | cons part parts ih =>
    have hlater := ih part.2 (hgap part (List.mem_cons_self ..))
      (fun other hother => hgap other (List.mem_cons_of_mem _ hother))
      (fun other hother => hlexeme other (List.mem_cons_of_mem _ hother))
      (fun i first second hfirst hsecond => hseparated (i + 1) first second hfirst hsecond)
    apply hcons indent part.1 _ hindent (hlexeme part (List.mem_cons_self ..)) _ hlater
    intro second hsecond
    apply hseparated 0 part second rfl
    rw [Nat.zero_add, List.getElem?_cons_succ, ← List.head?_eq_getElem?]
    exact hsecond

variable {gap : List Char} {x : Lexeme} {later : Layout}

/-- A layout without lexemes is its white space. -/
theorem text_blank (h : ∀ c ∈ gap, isBlank c = true) : (blank gap h).text = gap := by
  simp [text, blank]

/-- A layout is white space, a lexeme, and the text of the rest. -/
theorem text_cons (hgap : ∀ c ∈ gap, isBlank c = true) (hx : x.Symbol ∨ x.Word)
    (hseparated : ∀ second ∈ later.parts.head?, x.Word → second.1.Word → later.indent ≠ []) :
    (cons gap x later hgap hx hseparated).text = gap ++ (x.content.toList ++ later.text) := by
  simp [text, cons]

/-- A word can stand in front of a layout exactly if the layout does not start with a word. -/
theorem endsWord_head_text_iff {layout : Layout} :
    (∀ c ∈ layout.text.head?, Lexer.endsWord c = true) ↔
      ∀ second ∈ layout.parts.head?, second.1.Word → layout.indent ≠ [] := by
  have hblank {c : Char} (h : isBlank c = true) : Lexer.endsWord c = true := by
    rw [Lexer.endsWord, h, Bool.true_or]
  cases layout using rec_cons with
  | hblank gap h =>
    rw [text_blank]
    constructor
    · intro _ second hsecond
      cases hsecond
    · intro _ c hc
      exact hblank (h c (List.mem_of_mem_head? hc))
  | hcons gap x later hgap hx hseparated =>
    -- the text starts with the gap, and with the lexeme if the gap is empty
    have hfirst : (cons gap x later hgap hx hseparated).parts.head? = some (x, later.indent) := rfl
    have hindent : (cons gap x later hgap hx hseparated).indent = gap := rfl
    rw [text_cons, hfirst, hindent]
    cases gap with
    | cons d gap =>
      constructor
      · intro _ _ _ _
        exact List.cons_ne_nil d gap
      · intro _ c hc
        obtain rfl := Option.some.inj hc
        exact hblank (hgap d (List.mem_cons_self ..))
    | nil =>
      rw [List.nil_append]
      cases hx with
      | inl hsymbol =>
        obtain ⟨c, hcontent, hends⟩ := hsymbol.exists_toList_content
        rw [hcontent]
        constructor
        · intro _ second hsecond hword
          obtain rfl := Option.some.inj hsecond
          exact absurd hword hsymbol.not_word
        · intro _ d hd
          obtain rfl := Option.some.inj hd
          exact hends
      | inr hword =>
        obtain ⟨c, rest, hcontent, hchars⟩ := hword.exists_toList_content
        have hc := hchars c (List.mem_cons_self ..)
        rw [hcontent]
        constructor
        · intro hends
          rw [hends c rfl] at hc
          cases hc
        · intro hne
          exact absurd rfl (hne _ rfl hword)

end Layout

namespace Lexer

/-- No interruption comes before the final end of the source. -/
def Uninterrupted (l : Lexer) : Prop :=
  ∀ cause, .interrupted cause ∉ l.view.readings

/-- The next token, seen through the view. -/
theorem view_next_of_eq {l after : Lexer} {answer : Except Fault Token}
    (h : l.next = (answer, after)) :
    View.next l.view.position l.view.readings = (answer, after.view) := by
  rw [← view_next, h]
  rfl

/-- What the view gives, the lexer gives. -/
theorem exists_next_of_view {l : Lexer} {answer : Except Fault Token} {v : View}
    (h : View.next l.view.position l.view.readings = (answer, v)) :
    ∃ after, l.next = (answer, after) ∧ after.view = v := by
  rw [← view_next] at h
  obtain ⟨hanswer, hafter⟩ := Prod.mk.inj h
  exact ⟨l.next.2, Prod.ext hanswer rfl, hafter⟩

/-- Without interruptions a word leaves ahead all that it stops at. -/
theorem WordEnd.eq_of_notMem {rest after : List Reading} (h : WordEnd rest after)
    (hnone : ∀ cause, .interrupted cause ∉ rest) : after = rest := by
  cases h with
  | nothing => rfl
  | char hends => rfl
  | ended => exact absurd (List.mem_cons_self ..) (hnone .ended)

/-- At an end of the input there are no tokens. -/
theorem tokenize_of_next_endOfInput {l after : Lexer} (h : l.next = (.error .endOfInput, after)) :
    l.tokenize.1 = .ok [] := by
  rw [collects_tokenize.unroll, tokenStep_eq_ok_none_iff.mpr h, unrolled]

/-- A token stands in front of the tokens that follow it. -/
theorem tokenize_of_next_ok {l after : Lexer} {t : Token} {tokens : List Token}
    (h : l.next = (.ok t, after)) (hrest : after.tokenize.1 = .ok tokens) :
    l.tokenize.1 = .ok (t :: tokens) := by
  rw [collects_tokenize.unroll, tokenStep_eq_ok_some_iff.mpr h, unrolled, hrest]
  rfl

/-- The tokens of a text that is read to its end are the lexemes of a layout. -/
theorem exists_layout_of_tokenize {l : Lexer} {tokens : List Token} (hl : l.Uninterrupted)
    (h : l.tokenize.1 = .ok tokens) : ∃ layout : Layout,
      layout.lexemes = tokens.map Token.lexeme ∧ l.view.readings = layout.text.map .char := by
  fun_induction tokenize l generalizing tokens with
  | case1 l fault after hstep => cases h
  | case2 l after hstep =>
    cases h
    have hnext := tokenStep_eq_ok_none_iff.mp hstep
    obtain ⟨gap, rest, hreadings, hgap, hrest⟩ :=
      View.exists_of_next_endOfInput (view_next_of_eq hnext)
    refine ⟨.blank gap hgap, rfl, ?_⟩
    rw [Layout.text_blank]
    obtain rfl | ⟨later, rfl⟩ := hrest
    · rw [hreadings, List.append_nil]
    · exact absurd (by simp [hreadings]) (hl .ended)
  | case3 l t after hstep rest last hrest ih =>
    cases h
    have hnext := tokenStep_eq_ok_some_iff.mp hstep
    obtain ⟨gap, ahead, hreadings, hgap, htoken⟩ := View.exists_of_next_ok (view_next_of_eq hnext)
    have hahead : ∀ cause, .interrupted cause ∉ ahead := fun cause hmem => by
      apply hl cause
      rw [hreadings]
      exact List.mem_append_right _ (List.mem_append_right _ hmem)
    -- without interruptions a word leaves ahead what it stopped at
    have hafter : after.view.readings = ahead := by
      cases htoken with
      | inl hsymbol => exact hsymbol.2
      | inr hword => exact hword.2.eq_of_notMem hahead
    have hrestOk : after.tokenize.1 = .ok rest := by rw [hrest]
    obtain ⟨later, hlexemes, htext⟩ := ih (by rw [Uninterrupted, hafter]; exact hahead) hrestOk
    have hx : t.lexeme.Symbol ∨ t.lexeme.Word := htoken.imp And.left And.left
    have hseparated : ∀ second ∈ later.parts.head?, t.lexeme.Word → second.1.Word →
        later.indent ≠ [] := by
      intro second hsecond hword
      cases htoken with
      | inl hsymbol => exact absurd hword hsymbol.1.not_word
      | inr hend =>
        rw [← hafter, htext, wordEnd_map_char_iff] at hend
        exact Layout.endsWord_head_text_iff.mp hend.2.2 second hsecond
    refine ⟨.cons gap t.lexeme later hgap hx hseparated, ?_, ?_⟩
    · rw [List.map_cons, ← hlexemes]
      rfl
    · rw [Layout.text_cons, hreadings, ← hafter, htext, List.map_append, List.map_append]
      rfl
  | case4 l t after hstep fault last hrest ih => cases h

/-- The first lexeme of a layout is the next token, unless it is a word that goes on behind it. -/
theorem View.next_text_cons {gap : List Char} {x : Lexeme} {later : Layout}
    (hgap : ∀ c ∈ gap, isBlank c = true) (hx : x.Symbol ∨ x.Word)
    (hseparated : ∀ second ∈ later.parts.head?, x.Word → second.1.Word → later.indent ≠ [])
    (p : Position) {rest : List Reading}
    (hend : x.Word → WordEnd (later.text.map .char ++ rest) (later.text.map .char ++ rest)) :
    next p ((Layout.cons gap x later hgap hx hseparated).text.map .char ++ rest) =
      (.ok ⟨x.kind, x.content, x.value, p.after gap⟩,
        ⟨later.text.map .char ++ rest, (p.after gap).after x.content.toList⟩) := by
  rw [Layout.text_cons, List.map_append, List.map_append, List.append_assoc, List.append_assoc,
    next_blank_append hgap]
  cases hx with
  | inl hsymbol => exact next_symbol hsymbol _ _
  | inr hword => exact next_word hword _ (hend hword)

/-- The text of a layout is read to its end, and its lexemes are the tokens. -/
theorem exists_tokenize_of_layout (layout : Layout) {l : Lexer}
    (h : l.view.readings = layout.text.map .char) :
    ∃ tokens, l.tokenize.1 = .ok tokens ∧ tokens.map Token.lexeme = layout.lexemes := by
  induction layout using Layout.rec_cons generalizing l with
  | hblank gap hgap =>
    rw [Layout.text_blank, ← List.append_nil (gap.map Reading.char)] at h
    have hend : View.next l.view.position l.view.readings =
        (.error .endOfInput, ⟨[], l.view.position.after gap⟩) := by
      rw [h, View.next_blank_append hgap]
      rfl
    obtain ⟨after, hnext, -⟩ := exists_next_of_view hend
    exact ⟨[], tokenize_of_next_endOfInput hnext, rfl⟩
  | hcons gap x later hgap hx hseparated ih =>
    have hend : x.Word → WordEnd (later.text.map .char ++ []) (later.text.map .char ++ []) := by
      intro hword
      rw [List.append_nil]
      apply wordEnd_map_char_iff.mpr
      refine ⟨rfl, Layout.endsWord_head_text_iff.mpr ?_⟩
      intro second hsecond
      exact hseparated second hsecond hword
    have htoken := View.next_text_cons hgap hx hseparated l.view.position hend
    rw [List.append_nil, List.append_nil, ← h] at htoken
    obtain ⟨after, hnext, hafter⟩ := exists_next_of_view htoken
    obtain ⟨tokens, htokens, hlexemes⟩ := ih (l := after) (by rw [hafter])
    refine ⟨_, tokenize_of_next_ok hnext htokens, ?_⟩
    rw [List.map_cons, hlexemes]
    rfl

/-- A byte string is read to its end exactly if it encodes the text of a layout, and then the tokens
are the lexemes of that layout. -/
theorem tokenize_memory_eq_ok_iff (bytes : Bytes) (xs : List Lexeme) :
    (∃ tokens, (ofInput (.memory bytes)).tokenize.1 = .ok tokens ∧
      tokens.map Token.lexeme = xs) ↔
    ∃ layout : Layout, layout.lexemes = xs ∧ bytes = Utf8.encode layout.text := by
  have hreadings : (ofInput (.memory bytes)).view.readings = Input.bytesReadings bytes := rfl
  have hwhole : (ofInput (.memory bytes)).Uninterrupted := by
    intro cause hmem
    rw [hreadings, Input.bytesReadings, List.mem_map] at hmem
    obtain ⟨piece, -, hpiece⟩ := hmem
    cases piece <;> cases hpiece
  have hbytes (text : List Char) :
      (ofInput (.memory bytes)).view.readings = text.map .char ↔ bytes = Utf8.encode text :=
    Input.bytesReadings_eq_map_char_iff
  constructor
  · rintro ⟨tokens, htokens, rfl⟩
    obtain ⟨layout, hlexemes, htext⟩ := exists_layout_of_tokenize hwhole htokens
    exact ⟨layout, hlexemes, (hbytes _).mp htext⟩
  · rintro ⟨layout, rfl, hencode⟩
    exact exists_tokenize_of_layout layout ((hbytes _).mpr hencode)

end Lexer

end LetExit
