import LetExit.Compile
import LetExit.Proofs.Rendering
import LetExit.Proofs.TokenList

/-!
# White space between tokens

White space may be put in at any place of a text that is not inside a word, and nothing
changes but positions.  This holds for texts that are refused as well: they are refused
for the same reason.

Two lexers run side by side, one over the text and one over the text with white space put
in.  `Lexer.Spaced` is what holds of the readings in front of them from one token to the
next: as long as the place is ahead, the second has the white space there, and
behind it both have the same.
-/

set_option autoImplicit false

namespace LetExit

/-- Leaves no trace of where a position was. -/
def Position.forget (_ : Position) : Position :=
  .start

/-- The fault without the position that it names. -/
def CompileFault.unplaced : CompileFault → CompileFault
  | .parse fault => .parse (fault.relocate .forget)
  | .generate fault => .generate fault

/-- The place between two texts is inside a word: on both sides stands a word character that is no
white space. -/
def Joined (before after : List Char) : Prop :=
  (∃ c ∈ before.getLast?, isBlank c = false ∧ CharClass.isWord (.ofChar c) = true) ∧
    ∃ c ∈ after.head?, isBlank c = false ∧ CharClass.isWord (.ofChar c) = true

/-- A place inside a word stays one with more text in front. -/
theorem joined_of_joined_tail {c : Char} {before after : List Char} (h : Joined before after) :
    Joined (c :: before) after := by
  obtain ⟨⟨d, hd, hword⟩, hafter⟩ := h
  refine ⟨⟨d, ?_, hword⟩, hafter⟩
  cases before with
  | nil => cases hd
  | cons e before => rwa [List.getLast?_cons_cons]

/-- The start of a text is not inside a word. -/
theorem not_joined_nil (after : List Char) : ¬Joined [] after := by
  rintro ⟨⟨c, hc, -⟩, -⟩
  cases hc

namespace Lexer

/-- The characters with which a word goes on are word characters and no white space. -/
theorem endsWord_eq_false_iff {c : Char} :
    endsWord c = false ↔ isBlank c = false ∧ CharClass.isWord (.ofChar c) = true := by
  rw [endsWord, Bool.or_eq_false_iff, Bool.not_eq_false']

/-- Behind a word character, a place that is not inside a word is the end of the word. -/
theorem endsWord_head_of_not_joined {c : Char} {after : List Char} (hc : endsWord c = false)
    (h : ¬Joined [c] after) : ∀ d ∈ after.head?, endsWord d = true := by
  intro d hd
  by_cases hends : endsWord d = true
  · exact hends
  · have hword := endsWord_eq_false_iff.mp (Bool.eq_false_iff.mpr hends)
    exact absurd ⟨⟨c, rfl, endsWord_eq_false_iff.mp hc⟩, d, hd, hword⟩ h

/-- The second readings are the first, or have white space more at one place that is not inside a
word. -/
inductive Spaced : List Reading → List Reading → Prop
  | refl (readings : List Reading) : Spaced readings readings
  | gap {before gap after : List Char} : IsGap gap → ¬Joined before after →
      Spaced ((before ++ after).map .char) ((before ++ (gap ++ after)).map .char)

/-- An answer without the positions in it. -/
def unplaced (answer : Except Fault Token) : Except Fault Token :=
  (answer.map (Token.relocate .forget)).mapError (Fault.relocate .forget)

/-- Up to its position, a word is the same everywhere. -/
theorem unplaced_ofWord (word : List Char) (p q : Position) :
    unplaced (Token.ofWord word p) = unplaced (Token.ofWord word q) := by
  unfold Token.ofWord
  split
  · rfl
  · split
    · rfl
    · split <;> rfl

namespace View

/-- The same token or the same fault, apart from positions, and then readings that are spaced. -/
def Parallel (first second : Except Fault Token × View) : Prop :=
  unplaced first.1 = unplaced second.1 ∧ Spaced first.2.readings second.2.readings

/-- The rest of a word is the same at any position, or ends in the same fault. -/
theorem takeWord_elsewhere (p q : Position) (readings : List Reading) : ∃ after p' q',
    (∃ word, takeWord p readings = (.ok word, ⟨after, p'⟩) ∧
      takeWord q readings = (.ok word, ⟨after, q'⟩)) ∨
    ∃ f f' : Fault, takeWord p readings = (.error f, ⟨after, p'⟩) ∧
      takeWord q readings = (.error f', ⟨after, q'⟩) ∧
      f.relocate .forget = f'.relocate .forget := by
  induction readings generalizing p q with
  | nil => exact ⟨_, _, _, Or.inl ⟨[], rfl, rfl⟩⟩
  | cons reading later ih =>
    cases reading with
    | malformed => exact ⟨_, _, _, Or.inr ⟨_, _, rfl, rfl, rfl⟩⟩
    | interrupted cause =>
      cases cause with
      | ended => exact ⟨_, _, _, Or.inl ⟨[], rfl, rfl⟩⟩
      | failed reason => exact ⟨_, _, _, Or.inr ⟨_, _, rfl, rfl, rfl⟩⟩
    | char c =>
      rw [takeWord, takeWord]
      by_cases hends : endsWord c = true
      · rw [if_pos hends, if_pos hends]
        exact ⟨_, _, _, Or.inl ⟨[], rfl, rfl⟩⟩
      · rw [if_neg hends, if_neg hends]
        obtain ⟨after, p', q', ⟨word, hp, hq⟩ | ⟨f, f', hp, hq, hsame⟩⟩ :=
          ih (p.advance c) (q.advance c)
        · rw [hp, hq]
          exact ⟨after, p', q', Or.inl ⟨c :: word, rfl, rfl⟩⟩
        · rw [hp, hq]
          exact ⟨after, p', q', Or.inr ⟨f, f', rfl, rfl, hsame⟩⟩

/-- The next token is the same at any position. -/
theorem parallel_next_elsewhere (p q : Position) (readings : List Reading) :
    Parallel (next p readings) (next q readings) := by
  induction readings generalizing p q with
  | nil => exact ⟨rfl, .refl _⟩
  | cons reading later ih =>
    cases reading with
    | malformed => exact ⟨rfl, .refl _⟩
    | interrupted cause => exact ⟨rfl, .refl _⟩
    | char c =>
      rw [next, next]
      by_cases hblank : isBlank c = true
      · rw [if_pos hblank, if_pos hblank]
        exact ih (p.advance c) (q.advance c)
      · rw [if_neg hblank, if_neg hblank]
        cases Token.Kind.ofSymbol? c with
        | some kind => exact ⟨rfl, .refl _⟩
        | none =>
          dsimp only
          split
          · exact ⟨rfl, .refl _⟩
          · obtain ⟨after, p', q', ⟨word, hp, hq⟩ | ⟨f, f', hp, hq, hsame⟩⟩ :=
              takeWord_elsewhere (p.advance c) (q.advance c) later
            · rw [hp, hq]
              exact ⟨unplaced_ofWord (c :: word) p q, .refl _⟩
            · rw [hp, hq]
              exact ⟨congrArg Except.error hsame, .refl _⟩

/-- In front of a character that ends a word there is no rest of it. -/
theorem takeWord_of_endsWord_head {text : List Char} (h : ∀ c ∈ text.head?, endsWord c = true)
    (p : Position) : takeWord p (text.map .char) = (.ok [], ⟨text.map .char, p⟩) := by
  have hnone : ∀ c ∈ ([] : List Char), endsWord c = false := by simp
  exact takeWord_append hnone (wordEnd_map_char_iff.mpr ⟨rfl, h⟩) p

/-- A word goes on to the same end, whether or not white space is put in at a place that is not
inside it. -/
theorem takeWord_gap {c : Char} (hc : endsWord c = false) {before gap after : List Char}
    (hgap : IsGap gap) (h : ¬Joined (c :: before) after) (p q : Position) : ∃ word v v',
      takeWord p ((before ++ after).map .char) = (.ok word, v) ∧
      takeWord q ((before ++ (gap ++ after)).map .char) = (.ok word, v') ∧
      Spaced v.readings v'.readings := by
  induction before generalizing c p q with
  | nil =>
    have hafter := endsWord_head_of_not_joined hc h
    have hspaced : ∀ d ∈ (gap ++ after).head?, endsWord d = true := by
      by_cases hnil : gap = []
      · rw [hnil]
        exact hafter
      · exact hgap.endsWord_head hnil after
    exact ⟨[], _, _, takeWord_of_endsWord_head hafter p, takeWord_of_endsWord_head hspaced q,
      .gap hgap (not_joined_nil after)⟩
  | cons d before ih =>
    have hlater : ¬Joined (d :: before) after := fun hjoined => h (joined_of_joined_tail hjoined)
    rw [List.cons_append, List.cons_append, List.map_cons, List.map_cons, takeWord, takeWord]
    by_cases hends : endsWord d = true
    · rw [if_pos hends, if_pos hends]
      exact ⟨[], _, _, rfl, rfl, .gap hgap hlater⟩
    · rw [if_neg hends, if_neg hends]
      obtain ⟨word, v, v', hv, hv', hspaced⟩ :=
        ih (Bool.eq_false_iff.mpr hends) hlater (p.advance d) (q.advance d)
      rw [hv, hv']
      exact ⟨d :: word, v, v', rfl, rfl, hspaced⟩

/-- The next token is the same, whether or not white space is put in at a place that is not inside a
word. -/
theorem parallel_next_gap {before gap after : List Char} (hgap : IsGap gap)
    (h : ¬Joined before after) (p q : Position) :
    Parallel (next p ((before ++ after).map .char))
      (next q ((before ++ (gap ++ after)).map .char)) := by
  induction before generalizing p q with
  | nil =>
    rw [List.nil_append, List.nil_append, List.map_append, next_blank_append hgap]
    exact parallel_next_elsewhere p _ _
  | cons c before ih =>
    have hlater : ¬Joined before after := fun hjoined => h (joined_of_joined_tail hjoined)
    rw [List.cons_append, List.cons_append, List.map_cons, List.map_cons, next, next]
    by_cases hblank : isBlank c = true
    · rw [if_pos hblank, if_pos hblank]
      exact ih hlater (p.advance c) (q.advance c)
    · rw [if_neg hblank, if_neg hblank]
      cases Token.Kind.ofSymbol? c with
      | some kind => exact ⟨rfl, .gap hgap hlater⟩
      | none =>
        dsimp only
        by_cases hword : (!CharClass.isWord (.ofChar c)) = true
        · rw [if_pos hword, if_pos hword]
          exact ⟨rfl, .gap hgap hlater⟩
        · rw [if_neg hword, if_neg hword]
          have hc : endsWord c = false := by
            rw [endsWord, Bool.or_eq_false_iff]
            exact ⟨Bool.eq_false_iff.mpr hblank, Bool.eq_false_iff.mpr hword⟩
          obtain ⟨word, v, v', hv, hv', hspaced⟩ :=
            takeWord_gap hc hgap h (p.advance c) (q.advance c)
          rw [hv, hv']
          exact ⟨unplaced_ofWord (c :: word) p q, hspaced⟩

/-- White space between words does not change the next token, up to positions. -/
theorem parallel_next_of_spaced {readings spaced : List Reading} (h : Spaced readings spaced)
    (p q : Position) : Parallel (next p readings) (next q spaced) := by
  cases h with
  | refl => exact parallel_next_elsewhere p q readings
  | gap hgap hjoined => exact parallel_next_gap hgap hjoined p q

end View

/-- White space between words does not change what a lexer finds, up to positions. -/
theorem Spaced.next {l m : Lexer} (h : Spaced l.view.readings m.view.readings) :
    unplaced l.next.1 = unplaced m.next.1 ∧
      Spaced l.next.2.view.readings m.next.2.view.readings := by
  have hparallel := View.parallel_next_of_spaced h l.view.position m.view.position
  rw [← view_next, ← view_next] at hparallel
  exact hparallel

end Lexer

/-- Over readings that are spaced, two lexers give the same tokens and then the same fault, apart
from positions. -/
theorem TokenStream.Gives.of_spaced {l m : Lexer}
    (h : Lexer.Spaced l.view.readings m.view.readings) {ts : List Token} {fault : Fault}
    (hgives : (lexer l).Gives ts fault) : ∃ ts' fault', (lexer m).Gives ts' fault' ∧
      ts'.map (Token.relocate .forget) = ts.map (Token.relocate .forget) ∧
      fault'.relocate .forget = fault.relocate .forget := by
  obtain ⟨hanswer, hafter⟩ := h.next
  induction ts generalizing l m with
  | nil =>
    obtain ⟨hs⟩ := hgives
    have hl : l.next.1 = .error fault := (Prod.mk.inj hs).1
    rw [hl] at hanswer
    cases hm : m.next.1 with
    | error fault' =>
      rw [hm] at hanswer
      exact ⟨[], fault', .fault (Prod.ext hm rfl), rfl, (Except.error.inj hanswer).symm⟩
    | ok t =>
      rw [hm] at hanswer
      cases hanswer
  | cons t ts ih =>
    obtain _ | ⟨hs, hrest⟩ := hgives
    obtain ⟨hl, rfl⟩ := Prod.mk.inj hs
    rw [hl] at hanswer
    cases hm : m.next.1 with
    | error fault' =>
      rw [hm] at hanswer
      cases hanswer
    | ok t' =>
      rw [hm] at hanswer
      obtain ⟨hanswer', hafter'⟩ := hafter.next
      obtain ⟨ts', fault', hgives', hts, hfault⟩ := ih hafter hrest hanswer' hafter'
      refine ⟨t' :: ts', fault', .token (Prod.ext hm rfl) hgives', ?_, hfault⟩
      rw [List.map_cons, List.map_cons, hts, Except.ok.inj hanswer]

/-- White space at a place that is not inside a word changes only positions in what is read. -/
theorem Program.parse_gap {before gap after : List Char} (hgap : IsGap gap)
    (h : ¬Joined before after) :
    (parse (.memory (Utf8.encode (before ++ after)))).mapError (Fault.relocate .forget) =
      (parse (.memory (Utf8.encode (before ++ gap ++ after)))).mapError
        (Fault.relocate .forget) := by
  have hreadings (text : List Char) :
      (Lexer.ofInput (.memory (Utf8.encode text))).view.readings = text.map .char :=
    Input.bytesReadings_eq_map_char_iff.mpr rfl
  have hspaced : Lexer.Spaced
      (Lexer.ofInput (.memory (Utf8.encode (before ++ after)))).view.readings
      (Lexer.ofInput (.memory (Utf8.encode (before ++ gap ++ after)))).view.readings := by
    rw [hreadings, hreadings, List.append_assoc]
    exact .gap hgap h
  obtain ⟨ts, fault, hgives, -⟩ := TokenStream.exists_gives_lexer
    (.ofInput (.memory (Utf8.encode (before ++ after))))
  obtain ⟨ts', fault', hgives', hts, hfault⟩ := hgives.of_spaced hspaced
  have hfirst := Parser.parse_of_gives hgives .forget
  have hsecond := Parser.parse_of_gives hgives' .forget
  rw [hts, hfault, ← hfirst] at hsecond
  exact hsecond.symm

/-- **White space is immaterial, for texts that are refused too.**  Let white space be put in at any
place of a text where not both neighbours are word characters.  Then compiling the two texts to any
sink ends in the same way: both succeed, or both fail with the same fault apart from the position
that it names, and both times the sink has been handed the same bytes. -/
theorem compile_insert_blanks {before gap after : List Char} (hgap : ∀ c ∈ gap, isBlank c = true)
    (h : ¬Joined before after) (sink : Sink) :
    (∃ s, compile (.memory (Utf8.encode (before ++ after))) sink = (.ok (), s) ∧
      compile (.memory (Utf8.encode (before ++ gap ++ after))) sink = (.ok (), s)) ∨
    ∃ f g s, compile (.memory (Utf8.encode (before ++ after))) sink = (.error f, s) ∧
      compile (.memory (Utf8.encode (before ++ gap ++ after))) sink = (.error g, s) ∧
      f.unplaced = g.unplaced := by
  have hparse := Program.parse_gap hgap h
  unfold compile
  cases hfirst : Program.parse (.memory (Utf8.encode (before ++ after))) with
  | ok p =>
    cases hsecond : Program.parse (.memory (Utf8.encode (before ++ gap ++ after))) with
    | ok q =>
      rw [hfirst, hsecond] at hparse
      obtain rfl : p = q := Except.ok.inj hparse
      rcases hgenerate : p.generate sink with ⟨fault | _, s⟩
      · exact Or.inr ⟨fault, fault, s, hgenerate, hgenerate, rfl⟩
      · exact Or.inl ⟨s, hgenerate, hgenerate⟩
    | error g =>
      rw [hfirst, hsecond] at hparse
      cases hparse
  | error f =>
    cases hsecond : Program.parse (.memory (Utf8.encode (before ++ gap ++ after))) with
    | ok q =>
      rw [hfirst, hsecond] at hparse
      cases hparse
    | error g =>
      rw [hfirst, hsecond] at hparse
      refine Or.inr ⟨.parse f, .parse g, sink, rfl, rfl, ?_⟩
      exact congrArg CompileFault.parse (Except.error.inj hparse)

/-- Between a symbol and a name that is not declared, a wide space and a new line move the name in
the fault and change nothing else. -/
theorem compile_insert_blanks_undeclared :
    (∀ c ∈ "\u2003\n".toList, isBlank c = true) ∧ ¬Joined "exit(".toList "y);".toList ∧
    ∃ f g s,
      compile (.memory (Utf8.encode ("exit(".toList ++ "y);".toList))) (.fresh none) =
        (.error f, s) ∧
      compile (.memory (Utf8.encode ("exit(".toList ++ "\u2003\n".toList ++ "y);".toList)))
        (.fresh none) = (.error g, s) ∧ f.unplaced = g.unplaced := by
  have hblank : ∀ c ∈ "\u2003\n".toList, isBlank c = true :=
    List.all_eq_true.mp (by decide)
  have hjoined : ¬Joined "exit(".toList "y);".toList := by
    rintro ⟨⟨c, hc, -, hword⟩, -⟩
    obtain rfl : '(' = c := Option.some.inj hc
    exact absurd hword (by decide)
  refine ⟨hblank, hjoined, ?_⟩
  have hrefused : compile (.memory (Utf8.encode ("exit(".toList ++ "y);".toList))) (.fresh none) =
      (.error (.parse (.undeclaredReference "y" ⟨.identifier, "y", 0, ⟨1, 6⟩⟩)), .fresh none) := by
    with_unfolding_all rfl
  rcases compile_insert_blanks hblank hjoined (.fresh none) with ⟨s, hfirst, -⟩ | hboth
  · rw [hrefused] at hfirst
    cases hfirst
  · exact hboth

end LetExit
