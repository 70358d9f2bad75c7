import LetExit.Proofs.Positions
import LetExit.Proofs.Resumption

/-!
# Recovery

A lexer goes on behind everything that interrupts it: a source that fails, an end that is
reported although more follows, a byte that belongs to no character.  `Lexer.results` is the
list of its answers up to the final end of the source, and `recovery_exact` compares the list
for two texts with a cut between them to the lists for the texts alone.

The cut has an answer of its own, between those of the two texts.  Only a word that touches the
cut changes this: an end is not reported, since all it does is to end the word, and any other
cut takes the place of the word.  Nothing is carried across the cut, not even by an encoding
that breaks off in front of it.

Whether a request ends in front of the cut can be seen from the readings in front of it
(`Lexer.View.next_inside_or_word`), and the lists are then compared answer by answer
(`Lexer.joins_results`).
-/

set_option autoImplicit false

namespace LetExit

namespace Position

/-- The position of a place in the last part of a text, given the position at which that part
starts and the position that the place has in the part alone. -/
def continued (start p : Position) : Position :=
  if p.line = 1 then ⟨start.line, start.column + (p.column - 1)⟩
  else ⟨start.line + (p.line - 1), p.column⟩

/-- A place at the start of a part has the position at which the part starts. -/
theorem continued_start (p : Position) : p.continued start = p := by
  simp [continued, start]

/-- Positions in a part advance as they do in the whole text. -/
theorem continued_advance (start : Position) {p : Position} (hp : 1 ≤ p.line) (c : Char) :
    start.continued (p.advance c) = (start.continued p).advance c := by
  unfold continued advance
  by_cases hc : c = '\n'
  · by_cases hline : p.line = 1
    · simp [hc, hline]
    · have hnext : p.line + 1 ≠ 1 := by omega
      simp only [hc, hline, hnext, if_true, if_false, mk.injEq, and_true]
      omega
  · by_cases hline : p.line = 1
    · simp only [hc, hline, if_true, if_false, mk.injEq, true_and]
      omega
    · simp [hc, hline]

/-- Lines are counted from one. -/
theorem one_le_line_advance {p : Position} (hp : 1 ≤ p.line) (c : Char) :
    1 ≤ (p.advance c).line := by
  unfold advance
  split
  · dsimp only
    omega
  · exact hp

/-- A text behind readings advances the position character by character. -/
theorem past_append_map_char (done : List Reading) (text : List Char) :
    past (done ++ text.map .char) = (past done).after text := by
  induction text generalizing done with
  | nil => simp [after]
  | cons c text ih =>
    rw [Reading.append_map_char_cons, ih, past_concat]
    rfl

end Position

namespace Reading

/-- Whether a reading is white space. -/
def isBlank : Reading → Bool
  | .char c => LetExit.isBlank c
  | .malformed => false
  | .interrupted _ => false

/-- The readings end with a character that a word could go on behind. -/
def EndInWord (readings : List Reading) : Prop :=
  ∃ c, readings.getLast? = some (.char c) ∧ Lexer.endsWord c = false

/-- Whether readings end in a word depends on the last of them. -/
theorem endInWord_cons_iff {first : Reading} {later : List Reading} (h : later ≠ []) :
    EndInWord (first :: later) ↔ EndInWord later := by
  cases later with
  | nil => simp at h
  | cons second later => simp [EndInWord, List.getLast?_cons_cons]

/-- A reading that is no word character does not matter, even if it is the last one. -/
theorem endInWord_cons_iff_of_outside {first : Reading} (later : List Reading)
    (h : ∀ c, first = .char c → Lexer.endsWord c = true) :
    EndInWord (first :: later) ↔ EndInWord later := by
  cases later with
  | nil =>
    simp only [EndInWord, List.getLast?_singleton, List.getLast?_nil, Option.some.injEq]
    constructor
    · rintro ⟨c, rfl, hc⟩
      simp [h c rfl] at hc
    · rintro ⟨c, hc, -⟩
      simp at hc
  | cons second later => exact endInWord_cons_iff (by simp)

/-- Readings that are all white space are a text of white space. -/
theorem exists_gap_of_all_isBlank {readings : List Reading} (h : readings.all isBlank = true) :
    ∃ gap : List Char, readings = gap.map .char ∧ ∀ c ∈ gap, LetExit.isBlank c = true := by
  induction readings with
  | nil => exact ⟨[], rfl, by simp⟩
  | cons first later ih =>
    simp only [List.all_cons, Bool.and_eq_true] at h
    obtain ⟨gap, hlater, hgap⟩ := ih h.2
    cases first with
    | char c => exact ⟨c :: gap, by simp [hlater], List.forall_mem_cons.mpr ⟨h.1, hgap⟩⟩
    | malformed => simp [isBlank] at h
    | interrupted cause => simp [isBlank] at h

/-- A text of white space gives readings that are all white space. -/
theorem all_isBlank_map_char {gap : List Char} (h : ∀ c ∈ gap, LetExit.isBlank c = true) :
    (gap.map Reading.char).all isBlank = true := by
  simpa [List.all_map, isBlank] using h

section Word

variable {word : List Char} (front : List Reading) (hne : word ≠ [])
  (hword : ∀ c ∈ word, Lexer.endsWord c = false)

include hne hword

/-- Readings with a word at their end do end in a word. -/
theorem endInWord_append_word : EndInWord (front ++ word.map .char) := by
  have hlast := List.getLast?_eq_some_getLast hne
  refine ⟨word.getLast hne, ?_, hword _ (List.getLast_mem hne)⟩
  rw [List.getLast?_append, List.getLast?_map, hlast]
  rfl

/-- Readings with a word at their end are not all white space. -/
theorem all_isBlank_append_word : (front ++ word.map Reading.char).all isBlank = false := by
  obtain ⟨c, hc⟩ := List.exists_mem_of_ne_nil word hne
  have hends := hword c hc
  rw [Lexer.endsWord, Bool.or_eq_false_iff] at hends
  rw [List.all_eq_false]
  refine ⟨.char c, by simp [hc], ?_⟩
  simp [isBlank, hends.1]

end Word

/-- White space does not end in a word. -/
theorem not_endInWord_map_blank {gap : List Char} (h : ∀ c ∈ gap, LetExit.isBlank c = true) :
    ¬EndInWord (gap.map .char) := by
  rintro ⟨c, hlast, hc⟩
  have hmem : Reading.char c ∈ gap.map Reading.char := List.mem_of_getLast? hlast
  simp only [List.mem_map, Reading.char.injEq, exists_eq_right] at hmem
  simp [Lexer.endsWord, h c hmem] at hc

end Reading

namespace Lexer

open Reading (EndInWord)

namespace View

/-- The view with more readings behind its own. -/
def followedBy (v : View) (later : List Reading) : View :=
  ⟨v.readings ++ later, v.position⟩

/-- The rest of a word either takes all of the readings, or it ends inside them, and then it does
not depend on what is behind them. -/
theorem takeWord_all_or_inside (p : Position) (readings : List Reading) :
    (∃ word : List Char, readings = word.map .char ∧ ∀ c ∈ word, endsWord c = false) ∨
    readings ≠ [] ∧ (EndInWord readings ↔ EndInWord (takeWord p readings).2.readings) ∧
      ∀ later, takeWord p (readings ++ later) =
        ((takeWord p readings).1, (takeWord p readings).2.followedBy later) := by
  induction readings generalizing p with
  | nil => exact .inl ⟨[], rfl, by simp⟩
  | cons first later ih =>
    cases first with
    | malformed =>
      refine .inr ⟨by simp, ?_, fun more => rfl⟩
      exact Reading.endInWord_cons_iff_of_outside later (by simp)
    | interrupted cause =>
      have hlater : (takeWord p (.interrupted cause :: later)).2.readings = later := by
        cases cause <;> rfl
      refine .inr ⟨by simp, ?_, fun more => by cases cause <;> rfl⟩
      rw [hlater]
      exact Reading.endInWord_cons_iff_of_outside later (by simp)
    | char c =>
      by_cases hends : endsWord c = true
      · exact .inr ⟨by simp, by simp [takeWord, hends],
          fun more => by simp [takeWord, hends, followedBy]⟩
      · have hc : endsWord c = false := Bool.eq_false_iff.mpr hends
        rcases ih (p.advance c) with ⟨word, rfl, hword⟩ | ⟨hne, hword, happend⟩
        · exact .inl ⟨c :: word, rfl, List.forall_mem_cons.mpr ⟨hc, hword⟩⟩
        · refine .inr ⟨by simp, ?_, fun more => ?_⟩
          · rw [Reading.endInWord_cons_iff hne, hword, takeWord, if_neg hends]
            rcases takeWord (p.advance c) later with ⟨_ | _, _⟩ <;> rfl
          · rw [List.cons_append, takeWord, if_neg hends, happend more, takeWord, if_neg hends]
            rcases takeWord (p.advance c) later with ⟨_ | _, _⟩ <;> rfl

/-- A request for a token over readings that are not all white space either ends inside them, or
it finds a word that reaches their end. -/
theorem next_inside_or_word {readings : List Reading} (h : readings.all Reading.isBlank = false)
    (p : Position) :
    (EndInWord readings ↔ EndInWord (next p readings).2.readings) ∧
      (∀ later, next p (readings ++ later) =
        ((next p readings).1, (next p readings).2.followedBy later)) ∨
    ∃ gap word : List Char, readings = gap.map .char ++ word.map .char ∧ word ≠ [] ∧
      (∀ c ∈ gap, isBlank c = true) ∧ ∀ c ∈ word, endsWord c = false := by
  induction readings generalizing p with
  | nil => simp at h
  | cons first later ih =>
    cases first with
    | malformed =>
      exact .inl ⟨Reading.endInWord_cons_iff_of_outside later (by simp), fun more => rfl⟩
    | interrupted cause =>
      exact .inl ⟨Reading.endInWord_cons_iff_of_outside later (by simp), fun more => rfl⟩
    | char c =>
      by_cases hblank : isBlank c = true
      · have hlater : later.all Reading.isBlank = false := by
          simpa [Reading.isBlank, hblank] using h
        have hnonempty : later ≠ [] := by
          intro hnil
          simp [hnil] at hlater
        rcases ih hlater (p.advance c) with ⟨hword, happend⟩ | ⟨gap, word, rfl, hne, hgap, hword⟩
        · refine .inl ⟨?_, fun more => ?_⟩
          · rw [Reading.endInWord_cons_iff hnonempty, next, if_pos hblank]
            exact hword
          · rw [List.cons_append, next, if_pos hblank, next, if_pos hblank]
            exact happend more
        · exact .inr ⟨c :: gap, word, rfl, hne, List.forall_mem_cons.mpr ⟨hblank, hgap⟩, hword⟩
      · cases hkind : Token.Kind.ofSymbol? c with
        | some kind =>
          refine .inl ⟨?_, fun more => by simp [next, hblank, hkind, followedBy]⟩
          rw [next, if_neg hblank, hkind]
          apply Reading.endInWord_cons_iff_of_outside
          intro d hd
          rw [← Reading.char.inj hd]
          exact (endsWord_of_ofSymbol? hkind).1
        | none =>
          by_cases hword : CharClass.isWord (.ofChar c) = true
          · have hc : endsWord c = false := by simp [endsWord, hblank, hword]
            rcases takeWord_all_or_inside (p.advance c) later with
              ⟨word, rfl, hchars⟩ | ⟨hne, hends, happend⟩
            · exact .inr ⟨[], c :: word, rfl, by simp, by simp,
                List.forall_mem_cons.mpr ⟨hc, hchars⟩⟩
            · refine .inl ⟨?_, fun more => ?_⟩
              · rw [Reading.endInWord_cons_iff hne, hends]
                simp only [next, hblank, hkind, hword]
                rcases takeWord (p.advance c) later with ⟨_ | _, _⟩ <;> rfl
              · simp only [List.cons_append, next, hblank, hkind, hword, happend more]
                rcases takeWord (p.advance c) later with ⟨_ | _, _⟩ <;> rfl
          · refine .inl ⟨?_, fun more => by simp [next, hblank, hkind, followedBy, hword]⟩
            simp only [next, hblank, hkind, hword]
            apply Reading.endInWord_cons_iff_of_outside
            intro d hd
            rw [← Reading.char.inj hd]
            simp [endsWord, hword]

/-- A word is taken from its first character on. -/
theorem next_of_endsWord_eq_false {c : Char} (hc : endsWord c = false) (p : Position)
    (later : List Reading) :
    next p (.char c :: later) =
      match takeWord (p.advance c) later with
      | (.ok rest, after) => (Token.ofWord (c :: rest) p, after)
      | (.error fault, after) => (.error fault, after) := by
  -- a symbol would end the word
  have hkind : Token.Kind.ofSymbol? c = none := by
    rw [Option.eq_none_iff_forall_ne_some]
    intro kind hkind
    simp [(endsWord_of_ofSymbol? hkind).1] at hc
  rw [endsWord, Bool.or_eq_false_iff] at hc
  rw [next, hc.1, hkind, hc.2]
  rfl

/-- Behind white space a word is found where it ends. -/
theorem next_gap_word {gap word : List Char} (hne : word ≠ [])
    (hgap : ∀ c ∈ gap, isBlank c = true) (hword : ∀ c ∈ word, endsWord c = false)
    {rest after : List Reading} (hend : WordEnd rest after) (p : Position) :
    next p (gap.map .char ++ (word.map .char ++ rest)) =
      (Token.ofWord word (p.after gap), ⟨after, (p.after gap).after word⟩) := by
  cases word with
  | nil => simp at hne
  | cons c word =>
    obtain ⟨hc, htail⟩ := List.forall_mem_cons.mp hword
    rw [next_blank_append hgap, List.map_cons, List.cons_append, next_of_endsWord_eq_false hc,
      takeWord_append htail hend]
    rfl

/-- The rest of a word is taken from the front of the readings. -/
theorem takeWord_isSuffix (p : Position) (readings : List Reading) :
    (takeWord p readings).2.readings <:+ readings := by
  fun_induction takeWord p readings with
  | case1 p => exact List.suffix_rfl
  | case2 p later => exact List.suffix_cons _ later
  | case3 p later => exact List.suffix_cons _ later
  | case4 p reason later => exact List.suffix_cons _ later
  | case5 p c later hends => exact List.suffix_rfl
  | case6 p c later hends word after htake ih =>
    rw [htake] at ih
    exact ih.trans (List.suffix_cons _ later)
  | case7 p c later hends fault after htake ih =>
    rw [htake] at ih
    exact ih.trans (List.suffix_cons _ later)

/-- A request for a token takes at least one reading, unless they are all white space. -/
theorem next_isSuffix_tail {readings : List Reading} (h : readings.all Reading.isBlank = false)
    (p : Position) : (next p readings).2.readings <:+ readings.tail := by
  fun_induction next p readings with
  | case1 p => simp at h
  | case2 p later => exact List.suffix_rfl
  | case3 p cause later => exact List.suffix_rfl
  | case4 p c later hblank ih =>
    have hlater : later.all Reading.isBlank = false := by
      simpa [Reading.isBlank, hblank] using h
    exact (ih hlater).trans (List.tail_suffix later)
  | case5 p c later hblank kind hkind => exact List.suffix_rfl
  | case6 p c later hblank hkind hword => exact List.suffix_rfl
  | case7 p c later hblank hkind hword rest after htake =>
    have hsuffix := takeWord_isSuffix (p.advance c) later
    rwa [htake] at hsuffix
  | case8 p c later hblank hkind hword fault after htake =>
    have hsuffix := takeWord_isSuffix (p.advance c) later
    rwa [htake] at hsuffix

/-- A request for a token consumes a reading unless all are white space. -/
theorem length_next_lt {readings : List Reading} (h : readings.all Reading.isBlank = false)
    (p : Position) : (next p readings).2.readings.length < readings.length := by
  have hle := (next_isSuffix_tail h p).length_le
  cases readings with
  | nil => simp at h
  | cons first later =>
    rw [List.tail_cons] at hle
    exact Nat.lt_succ_of_le hle

end View

/-- Only white space is left to read, and behind it the source has ended for good. -/
def isSpent (l : Lexer) : Bool :=
  l.view.readings.all Reading.isBlank

/-- A request for a token, computed on what the lexer sees. -/
theorem next_of_view_eq {l : Lexer} {p : Position} {readings : List Reading}
    (h : l.view = ⟨readings, p⟩) :
    l.next.1 = (View.next p readings).1 ∧ l.next.2.view = (View.next p readings).2 := by
  have hnext := view_next l
  rw [h] at hnext
  exact Prod.mk.inj hnext

/-- A request for a token leaves less to read, unless only white space was left. -/
theorem length_next_lt {l : Lexer} (h : l.isSpent = false) :
    l.next.2.view.readings.length < l.view.readings.length := by
  rw [(next_of_view_eq rfl).2]
  exact View.length_next_lt h l.view.position

/-- The answers to requests for a token, made again and again until only white space is in front of
the final end of the source. -/
def results (l : Lexer) : List (Except Fault Token) :=
  if _h : l.isSpent = true then []
  else l.next.1 :: l.next.2.results
termination_by l.view.readings.length
decreasing_by exact length_next_lt (Bool.eq_false_iff.mpr _h)

/-- A lexer that is spent has no more results. -/
theorem results_of_isSpent {l : Lexer} (h : l.isSpent = true) : l.results = [] := by
  rw [results, dif_pos h]

/-- The results of a lexer are the first answer and the results after it. -/
theorem results_of_not_isSpent {l : Lexer} (h : l.isSpent = false) :
    l.results = l.next.1 :: l.next.2.results := by
  rw [results, dif_neg (by simp [h])]

/-- From the final end on, every answer is the end of the input. -/
theorem next_of_isSpent {l : Lexer} (h : l.isSpent = true) :
    l.next.1 = .error .endOfInput ∧ l.next.2.isSpent = true := by
  obtain ⟨gap, hreadings, hgap⟩ := Reading.exists_gap_of_all_isBlank h
  have hview : l.view = ⟨gap.map .char ++ [], l.position⟩ := by
    rw [List.append_nil, ← hreadings]
    rfl
  obtain ⟨hanswer, hafter⟩ := next_of_view_eq hview
  rw [View.next_blank_append hgap] at hanswer hafter
  refine ⟨hanswer, ?_⟩
  rw [isSpent, hafter]
  rfl

/-- What a lexer answers, one request after the other, is its results and then the end for ever. -/
theorem answer_eq_getD_results (l : Lexer) (n : Nat) :
    (TokenStream.lexer l).answer n = l.results.getD n (.error .endOfInput) := by
  induction n generalizing l with
  | zero =>
    show l.next.1 = _
    cases hspent : l.isSpent with
    | true => simp [results_of_isSpent hspent, (next_of_isSpent hspent).1]
    | false => simp [results_of_not_isSpent hspent]
  | succ n ih =>
    show (TokenStream.lexer l.next.2).answer n = _
    rw [ih]
    cases hspent : l.isSpent with
    | true => simp [results_of_isSpent hspent, results_of_isSpent (next_of_isSpent hspent).2]
    | false => simp [results_of_not_isSpent hspent]

/-- The results depend on what the lexer sees alone. -/
theorem results_congr {l m : Lexer} (h : l.view = m.view) : l.results = m.results := by
  fun_induction results l generalizing m with
  | case1 l hspent =>
    rw [results_of_isSpent]
    rwa [isSpent, ← h]
  | case2 l hspent ih =>
    have hm : m.isSpent = false := by
      rw [isSpent, ← h]
      exact Bool.eq_false_iff.mpr hspent
    have hnext := view_next l
    rw [h, ← view_next m] at hnext
    obtain ⟨hanswer, hafter⟩ := Prod.mk.inj hnext
    rw [results_of_not_isSpent hm, ih hafter]
    exact congrArg (· :: m.next.2.results) hanswer

/-- A source that is not interrupted reports its end only when it has ended for good. -/
theorem endOfInput_notMem_results {l : Lexer} (h : l.Uninterrupted) :
    .error .endOfInput ∉ l.results := by
  fun_induction results l with
  | case1 l hspent => simp
  | case2 l hspent ih =>
    have hblank : l.view.readings.all Reading.isBlank = false := Bool.eq_false_iff.mpr hspent
    have hafter : l.next.2.Uninterrupted := by
      intro cause hmem
      rw [(next_of_view_eq rfl).2] at hmem
      have hsuffix := View.next_isSuffix_tail hblank l.view.position
      exact h cause ((hsuffix.trans (List.tail_suffix _)).mem hmem)
    rw [List.mem_cons, not_or]
    refine ⟨fun hend => ?_, ih hafter⟩
    have hnext := view_next_of_eq (Prod.ext hend.symm rfl)
    obtain ⟨gap, rest, hreadings, hgap, rfl | ⟨later, rfl⟩⟩ := View.exists_of_next_endOfInput hnext
    · rw [List.append_nil] at hreadings
      simp [hreadings, Reading.all_isBlank_map_char hgap] at hblank
    · exact h .ended (by simp [hreadings])

/-- What interrupts the reading of a text. -/
inductive Cut where
  /-- The source fails, or it reports an end although more follows. -/
  | interruption (cause : Interruption)
  /-- A byte that belongs to no character. -/
  | stray
deriving DecidableEq, Repr

namespace Cut

/-- The sources that hand over some bytes, a cut, and then other bytes, and do not stall. -/
inductive Source : Cut → Bytes → Bytes → Input → Prop
  | interrupted {cause : Interruption} {before after : List Bytes} :
      Delivery.Steady (before.map .bytes ++ .interruption cause :: after.map .bytes) →
      Source (interruption cause) before.flatten after.flatten
        (.ofDeliveries (before.map .bytes ++ .interruption cause :: after.map .bytes))
  | delivered {a b : Bytes} {chunks : List Bytes} : chunks.flatten = a ++ 0xFF :: b →
      Delivery.Steady (chunks.map .bytes) → Source stray a b (.ofDeliveries (chunks.map .bytes))
  | memory {a b : Bytes} : Source stray a b (.memory (a ++ 0xFF :: b))

/-- What a source hands over at a cut. -/
def reading : Cut → Reading
  | interruption cause => .interrupted cause
  | stray => .malformed

/-- The fault that reports a cut, where the text in front of it ends at a position. -/
def fault (p : Position) : Cut → Fault
  | interruption cause => .ofInterruption cause
  | stray => .invalidEncoding p

/-- How the answers to the readings in front of a cut and to those behind it make up the answers to
the whole. -/
structure Joins (cut : Cut) (done front : List Reading)
    (before after whole : List (Except Fault Token)) : Prop where
  apart : ¬EndInWord front →
    whole = before ++ .error (cut.fault (.past (done ++ front))) :: after
  touching : EndInWord front → ∃ earlier head word, front = head ++ word.map .char ∧ word ≠ [] ∧
    (∀ c ∈ word, endsWord c = false) ∧
    before = earlier ++ [Token.ofWord word (.past (done ++ head))] ∧
    (cut = interruption .ended → whole = before ++ after) ∧
    (cut ≠ interruption .ended →
      whole = earlier ++ .error (cut.fault (.past (done ++ front))) :: after)

/-- A byte that belongs to no character separates the readings around it. -/
theorem readings_append_stray (a b : Bytes) :
    Input.bytesReadings (a ++ 0xFF :: b) =
      Input.bytesReadings a ++ .malformed :: Input.bytesReadings b := by
  have htail : Utf8.isTail 0xFF = false := by decide
  have hstray : Utf8.first 0xFF b = (.stray 0xFF, b) := rfl
  have hcut : Input.bytesReadings (0xFF :: b) = .malformed :: Input.bytesReadings b := by
    rw [Input.bytesReadings_cons, hstray]
    rfl
  rw [← hcut, Input.bytesReadings, Utf8.pieces_append_of_not_isTail htail, List.map_append]
  rfl

/-- An interruption is read between the bytes in front of it and those behind it. -/
theorem readings_append_interruption (buffer : Bytes) (before : List Bytes) (cause : Interruption)
    (after : List Bytes) :
    Input.deliveryReadings buffer (before.map .bytes ++ .interruption cause :: after.map .bytes) =
      Input.bytesReadings (buffer ++ before.flatten) ++
        .interrupted cause :: Input.bytesReadings after.flatten := by
  induction before generalizing buffer with
  | nil =>
    rw [List.map_nil, List.nil_append, Input.deliveryReadings, Input.deliveryReadings_bytes]
    simp
  | cons chunk later ih =>
    rw [List.map_cons, List.cons_append, Input.deliveryReadings, ih]
    simp

/-- No reading reaches across a cut. -/
theorem Source.readings_eq {cut : Cut} {a b : Bytes} {source : Input} (h : cut.Source a b source) :
    source.readings = Input.bytesReadings a ++ cut.reading :: Input.bytesReadings b := by
  cases h with
  | @interrupted cause before after hsteady =>
    show Input.deliveryReadings [] (Delivery.heeded 0 _) = _
    rw [Delivery.heeded_of_steady hsteady]
    exact readings_append_interruption [] before cause after
  | delivered hchunks hsteady =>
    rw [Input.readings_ofDeliveries_bytes hsteady, hchunks]
    exact readings_append_stray a b
  | memory => exact readings_append_stray a b

/-- An answer that comes in front of the cut is the first on both sides. -/
theorem Joins.cons {cut : Cut} {done passed front : List Reading}
    {before after whole : List (Except Fault Token)} (answer : Except Fault Token)
    (h : cut.Joins (done ++ passed) front before after whole)
    (hword : EndInWord (passed ++ front) ↔ EndInWord front) :
    cut.Joins done (passed ++ front) (answer :: before) after (answer :: whole) := by
  obtain ⟨hapart, htouching⟩ := h
  rw [List.append_assoc] at hapart htouching
  rw [← hword] at hapart htouching
  constructor
  · intro hout
    rw [hapart hout]
    rfl
  · intro hin
    obtain ⟨earlier, head, word, rfl, hne, hchars, rfl, hended, hlost⟩ := htouching hin
    refine ⟨answer :: earlier, passed ++ head, word, by simp, hne, hchars, by simp, ?_, ?_⟩
    · intro hcut
      rw [hended hcut]
      rfl
    · intro hcut
      rw [hlost hcut]
      rfl

end Cut

section Cut

variable {cut : Cut} {l m n : Lexer} {done later : List Reading}

/-- Behind white space alone the cut is what a request finds. -/
theorem joins_of_gap {gap : List Char} (hgap : ∀ c ∈ gap, isBlank c = true)
    (hl : l.view = ⟨gap.map .char ++ cut.reading :: later, .past done⟩)
    (hn : n.view = ⟨later, .past (done ++ gap.map .char)⟩) :
    cut.Joins done (gap.map .char) [] n.results (l.next.1 :: l.next.2.results) := by
  have hnext : View.next (.past done) (gap.map .char ++ cut.reading :: later) =
      (.error (cut.fault (.past (done ++ gap.map .char))),
        ⟨later, .past (done ++ gap.map .char)⟩) := by
    rw [View.next_blank_append hgap, Position.past_append_map_char]
    cases cut <;> rfl
  obtain ⟨hanswer, hafter⟩ := next_of_view_eq hl
  rw [hnext] at hanswer hafter
  constructor
  · intro _
    rw [hanswer, results_congr (hafter.trans hn.symm)]
    rfl
  · intro hword
    exact absurd hword (Reading.not_endInWord_map_blank hgap)

/-- Any cut but an end loses the word in front of it. -/
theorem takeWord_of_cut (hcut : cut ≠ .interruption .ended) {word : List Char}
    (hword : ∀ c ∈ word, endsWord c = false) (p : Position) (later : List Reading) :
    View.takeWord p (word.map .char ++ cut.reading :: later) =
      (.error (cut.fault (p.after word)), ⟨later, p.after word⟩) := by
  induction word generalizing p with
  | nil =>
    cases cut with
    | stray => rfl
    | interruption cause =>
      cases cause with
      | ended => simp at hcut
      | failed reason => rfl
  | cons c word ih =>
    obtain ⟨hc, htail⟩ := List.forall_mem_cons.mp hword
    rw [List.map_cons, List.cons_append, View.takeWord, if_neg (Bool.eq_false_iff.mp hc), ih htail]
    rfl

/-- Behind white space a word is lost if such a cut follows it. -/
theorem next_gap_word_of_cut (hcut : cut ≠ .interruption .ended) {gap word : List Char}
    (hne : word ≠ []) (hgap : ∀ c ∈ gap, isBlank c = true)
    (hword : ∀ c ∈ word, endsWord c = false) (p : Position) (later : List Reading) :
    View.next p (gap.map .char ++ (word.map .char ++ cut.reading :: later)) =
      (.error (cut.fault ((p.after gap).after word)), ⟨later, (p.after gap).after word⟩) := by
  cases word with
  | nil => simp at hne
  | cons c word =>
    obtain ⟨hc, htail⟩ := List.forall_mem_cons.mp hword
    rw [View.next_blank_append hgap, List.map_cons, List.cons_append,
      View.next_of_endsWord_eq_false hc, takeWord_of_cut hcut htail]
    rfl

/-- A word that reaches the cut is found if the cut is an end, and is lost otherwise. -/
theorem joins_of_word {gap word : List Char} (hne : word ≠ [])
    (hgap : ∀ c ∈ gap, isBlank c = true) (hword : ∀ c ∈ word, endsWord c = false)
    (hl : l.view = ⟨gap.map .char ++ word.map .char ++ cut.reading :: later, .past done⟩)
    (hm : m.view = ⟨gap.map .char ++ word.map .char, .past done⟩)
    (hn : n.view = ⟨later, .past (done ++ (gap.map .char ++ word.map .char))⟩) :
    cut.Joins done (gap.map .char ++ word.map .char) m.results n.results
      (l.next.1 :: l.next.2.results) := by
  obtain ⟨hlnext, hlafter⟩ := next_of_view_eq hl
  obtain ⟨hmnext, hmafter⟩ := next_of_view_eq hm
  have hmspent : m.isSpent = false := by
    rw [isSpent, hm]
    exact Reading.all_isBlank_append_word _ hne hword
  have hdone : (Position.past done |>.after gap).after word =
      .past (done ++ (gap.map .char ++ word.map .char)) := by
    rw [← List.append_assoc, Position.past_append_map_char, Position.past_append_map_char]
  have hresults : m.results = [Token.ofWord word (.past (done ++ gap.map .char))] := by
    rw [← List.append_nil (gap.map _ ++ _), List.append_assoc,
      View.next_gap_word hne hgap hword .nothing] at hmnext hmafter
    have hafter : m.next.2.isSpent = true := by
      rw [isSpent, hmafter]
      rfl
    rw [results_of_not_isSpent hmspent, hmnext, results_of_isSpent hafter,
      Position.past_append_map_char]
  rw [List.append_assoc] at hlnext hlafter
  constructor
  · intro hout
    exact absurd (Reading.endInWord_append_word _ hne hword) hout
  · intro _
    refine ⟨[], gap.map .char, word, rfl, hne, hword, hresults, ?_, ?_⟩
    · intro hcut
      subst hcut
      rw [Cut.reading, View.next_gap_word hne hgap hword .ended, hdone] at hlnext hlafter
      rw [hresults, hlnext, results_congr (hlafter.trans hn.symm), Position.past_append_map_char]
      rfl
    · intro hcut
      rw [next_gap_word_of_cut hcut hne hgap hword, hdone] at hlnext hlafter
      rw [hlnext, results_congr (hlafter.trans hn.symm)]
      rfl

/-- The answers to a text with a cut in it are joined from the answers in front of the cut and the
answers behind it. -/
theorem joins_results {front : List Reading}
    (hl : l.view = ⟨front ++ cut.reading :: later, .past done⟩)
    (hm : m.view = ⟨front, .past done⟩) (hn : n.view = ⟨later, .past (done ++ front)⟩) :
    cut.Joins done front m.results n.results l.results := by
  -- on the readings in front of the cut, of which every answer takes some
  induction hlength : front.length using Nat.strongRecOn generalizing l m done front with
  | ind length ih =>
    have hlspent : l.isSpent = false := by
      rw [isSpent, hl]
      cases cut <;> simp [Cut.reading, Reading.isBlank]
    rw [results_of_not_isSpent hlspent]
    cases hall : front.all Reading.isBlank with
    | true =>
      have hmspent : m.isSpent = true := by rwa [isSpent, hm]
      obtain ⟨gap, rfl, hgap⟩ := Reading.exists_gap_of_all_isBlank hall
      rw [results_of_isSpent hmspent]
      exact joins_of_gap hgap hl hn
    | false =>
      have hmspent : m.isSpent = false := by rwa [isSpent, hm]
      rcases View.next_inside_or_word hall (.past done) with
        ⟨hends, happend⟩ | ⟨gap, word, rfl, hne, hgap, hword⟩
      · obtain ⟨passed, hfront, hposition, -⟩ := View.passes_next done front
        have hshorter := View.length_next_lt hall (.past done)
        obtain ⟨hlnext, hlafter⟩ := next_of_view_eq hl
        obtain ⟨hmnext, hmafter⟩ := next_of_view_eq hm
        rw [happend] at hlnext hlafter
        rw [results_of_not_isSpent hmspent, hlnext, hmnext]
        rcases hnext : View.next (.past done) front with ⟨answer, rest, position⟩
        rw [hnext] at hends hfront hposition hshorter hlafter hmafter
        dsimp only at hends hfront hposition hshorter hlafter hmafter
        subst hfront hposition
        rw [← List.append_assoc] at hn
        rw [← hlength] at ih
        exact (ih rest.length hshorter hlafter hmafter hn rfl).cons answer hends
      · exact joins_of_word hne hgap hword hl hm hn

end Cut

/-- An answer with its positions moved. -/
def relocated (move : Position → Position) : Except Fault Token → Except Fault Token
  | .ok t => .ok (t.relocate move)
  | .error fault => .error (fault.relocate move)

/-- A word at another position is the same word, or refused in the same way. -/
theorem relocated_ofWord (move : Position → Position) (word : List Char) (p : Position) :
    relocated move (Token.ofWord word p) = Token.ofWord word (move p) := by
  unfold Token.ofWord
  split
  · rfl
  · split
    · rfl
    · split <;> rfl

/-- The step over readings that stand behind a text is the step over the readings alone, with its
positions continued. -/
def View.Continues {α : Type} (start : Position) (relocate : Except Fault α → Except Fault α)
    (behind alone : Except Fault α × View) : Prop :=
  behind = (relocate alone.1, ⟨alone.2.readings, start.continued alone.2.position⟩) ∧
    1 ≤ alone.2.position.line

/-- The rest of a word does not depend on the text in front, up to positions. -/
theorem takeWord_continued (start : Position) {p : Position} (hp : 1 ≤ p.line)
    (readings : List Reading) :
    View.Continues start (Except.mapError (Fault.relocate start.continued))
      (View.takeWord (start.continued p) readings) (View.takeWord p readings) := by
  induction readings generalizing p with
  | nil => exact ⟨rfl, hp⟩
  | cons first later ih =>
    cases first with
    | malformed => exact ⟨rfl, hp⟩
    | interrupted cause => cases cause <;> exact ⟨rfl, hp⟩
    | char c =>
      by_cases hends : endsWord c = true
      · simp only [View.takeWord, hends, if_true]
        exact ⟨rfl, hp⟩
      · obtain ⟨hlater, hline⟩ := ih (Position.one_le_line_advance hp c)
        rw [Position.continued_advance start hp] at hlater
        rw [View.takeWord, View.takeWord, if_neg hends, if_neg hends, hlater]
        rcases htake : View.takeWord (p.advance c) later with ⟨_ | _, after⟩
        · rw [htake] at hline
          exact ⟨rfl, hline⟩
        · rw [htake] at hline
          exact ⟨rfl, hline⟩

/-- A request for a token does not depend on the text in front, up to positions. -/
theorem next_continued (start : Position) {p : Position} (hp : 1 ≤ p.line)
    (readings : List Reading) :
    View.Continues start (relocated start.continued) (View.next (start.continued p) readings)
      (View.next p readings) := by
  induction readings generalizing p with
  | nil => exact ⟨rfl, hp⟩
  | cons first later ih =>
    cases first with
    | malformed => exact ⟨rfl, hp⟩
    | interrupted cause => cases cause <;> exact ⟨rfl, hp⟩
    | char c =>
      have hadvance := Position.one_le_line_advance hp c
      rw [View.next, View.next, ← Position.continued_advance start hp]
      by_cases hblank : isBlank c = true
      · rw [if_pos hblank, if_pos hblank]
        exact ih hadvance
      · rw [if_neg hblank, if_neg hblank]
        cases Token.Kind.ofSymbol? c with
        | some kind => exact ⟨rfl, hadvance⟩
        | none =>
          dsimp only
          split
          · exact ⟨rfl, hadvance⟩
          · obtain ⟨htake, hline⟩ := takeWord_continued start hadvance later
            rw [htake]
            rcases hword : View.takeWord (p.advance c) later with ⟨fault | rest, after⟩
            · rw [hword] at hline
              exact ⟨rfl, hline⟩
            · rw [hword] at hline
              refine ⟨?_, hline⟩
              rw [relocated_ofWord]
              rfl

/-- A text that is read from another position on has the same answers, at positions that continue
from there. -/
theorem results_continued {start : Position} {l m : Lexer} (hm : 1 ≤ m.position.line)
    (hl : l.view = ⟨m.view.readings, start.continued m.position⟩) :
    l.results = m.results.map (relocated start.continued) := by
  fun_induction results m generalizing l with
  | case1 m hspent =>
    have hlspent : l.isSpent = true := by rwa [isSpent, hl]
    rw [results_of_isSpent hlspent, List.map_nil]
  | case2 m hspent ih =>
    have hlspent : l.isSpent = false := by
      rw [isSpent, hl]
      exact Bool.eq_false_iff.mpr hspent
    have hmview : m.view = ⟨m.view.readings, m.position⟩ := rfl
    obtain ⟨hlnext, hlafter⟩ := next_of_view_eq hl
    obtain ⟨hmnext, hmafter⟩ := next_of_view_eq hmview
    obtain ⟨hnext, hline⟩ := next_continued start hm m.view.readings
    rw [hnext, ← hmnext] at hlnext
    rw [hnext, ← hmafter] at hlafter
    rw [← hmafter] at hline
    rw [results_of_not_isSpent hlspent, List.map_cons, hlnext, ih hline hlafter]

end Lexer

namespace Bytes

/-- The bytes end with the encoding of a character that belongs to words. -/
def EndInWord (bytes : Bytes) : Prop :=
  ∃ front c, bytes = front ++ String.utf8EncodeChar c ∧ isBlank c = false ∧
    CharClass.isWord (.ofChar c) = true

/-- The position behind the characters of the bytes. -/
def endPosition (bytes : Bytes) : Position :=
  .past (Input.memory bytes).readings

/-- The results over bytes in memory. -/
def results (bytes : Bytes) : List (Except Fault Token) :=
  (Lexer.ofInput (.memory bytes)).results

/-- The results over bytes in memory, at positions that continue from a given one. -/
def resultsFrom (start : Position) (bytes : Bytes) : List (Except Fault Token) :=
  bytes.results.map (Lexer.relocated start.continued)

/-- Bytes end in a word exactly if their readings do. -/
theorem endInWord_iff {bytes : Bytes} :
    EndInWord bytes ↔ Reading.EndInWord (Input.bytesReadings bytes) := by
  have hlast (c : Char) : (Input.bytesReadings bytes).getLast? = some (.char c) ↔
      ∃ front, bytes = front ++ String.utf8EncodeChar c := by
    rw [← Utf8.getLast?_pieces_eq_char_iff, Input.bytesReadings, List.getLast?_map]
    rcases (Utf8.pieces bytes).getLast? with _ | ⟨_ | _⟩ <;> simp [Reading.ofPiece]
  simp only [EndInWord, Reading.EndInWord, hlast, Lexer.endsWord, Bool.or_eq_false_iff,
    Bool.not_eq_false']
  constructor
  · rintro ⟨front, c, hbytes, hc⟩
    exact ⟨c, ⟨front, hbytes⟩, hc⟩
  · rintro ⟨c, ⟨front, hbytes⟩, hc⟩
    exact ⟨front, c, hbytes, hc⟩

end Bytes

/-- **Recovery is exact.**  The results of a lexer are its answers up to the final end of the
source, and a text in memory has no other end.  Let a source hand over some bytes, then a cut, then
other bytes, where a cut is a failure of the source, an end that is reported although more follows,
or the byte `0xFF`.  Its results are those of the first bytes alone, the fault that reports the cut,
and those of the other bytes alone, at positions that continue from the end of the first bytes.
There is one exception.  If the first bytes end with a character that belongs to words, the last of
their results is for the word that touches the cut.  Then an end is not reported, and any other cut
is reported in the place of that last result. -/
theorem recovery_exact {cut : Lexer.Cut} {a b : Bytes} {source : Input}
    (h : cut.Source a b source) :
    (∀ l n, (TokenStream.lexer l).answer n = l.results.getD n (.error .endOfInput)) ∧
    (∀ text : Bytes, .error .endOfInput ∉ text.results) ∧
    (¬a.EndInWord → (Lexer.ofInput source).results =
      a.results ++ .error (cut.fault a.endPosition) :: b.resultsFrom a.endPosition) ∧
    (a.EndInWord → ∃ earlier head word, (Input.memory a).readings = head ++ word.map .char ∧
      word ≠ [] ∧ (∀ c ∈ word, Lexer.endsWord c = false) ∧
      a.results = earlier ++ [Token.ofWord word (.past head)] ∧
      (cut = .interruption .ended →
        (Lexer.ofInput source).results = a.results ++ b.resultsFrom a.endPosition) ∧
      (cut ≠ .interruption .ended → (Lexer.ofInput source).results =
        earlier ++ .error (cut.fault a.endPosition) :: b.resultsFrom a.endPosition)) := by
  have hsource : (Lexer.ofInput source).view =
      ⟨Input.bytesReadings a ++ cut.reading :: Input.bytesReadings b, .past []⟩ :=
    congrArg (Lexer.View.mk · .start) h.readings_eq
  have hbehind : (Lexer.mk (.memory b) none a.endPosition).results =
      b.resultsFrom a.endPosition := by
    apply Lexer.results_continued (m := .ofInput (.memory b))
    · simp [Lexer.ofInput, Position.start]
    · show _ = Lexer.View.mk _ (a.endPosition.continued .start)
      rw [Position.continued_start]
      rfl
  have hjoins := Lexer.joins_results (m := .ofInput (.memory a))
    (n := ⟨.memory b, none, a.endPosition⟩) hsource rfl rfl
  rw [hbehind] at hjoins
  refine ⟨Lexer.answer_eq_getD_results, fun text => ?_, fun hout => ?_, fun hin => ?_⟩
  · exact Lexer.endOfInput_notMem_results (Lexer.uninterrupted_memory text .start)
  · exact hjoins.apart (mt Bytes.endInWord_iff.mpr hout)
  · exact hjoins.touching (Bytes.endInWord_iff.mp hin)

/-- The name that a failure touches is lost, and what is behind the failure stands where it would
stand behind that name. -/
theorem recovery_exact_lost_name :
    let source : Input := .ofDeliveries [.bytes (Utf8.ofString "let ab"),
      .interruption (.failed "disk"), .bytes (Utf8.ofString " =")]
    (Lexer.Cut.interruption (.failed "disk")).Source (Utf8.ofString "let ab") (Utf8.ofString " =")
      source ∧
    Bytes.EndInWord (Utf8.ofString "let ab") ∧
    (Lexer.ofInput source).results = [.ok ⟨.letWord, "let", 0, ⟨1, 1⟩⟩,
      .error (.readFailed "disk"), .ok ⟨.equals, "=", 0, ⟨1, 8⟩⟩] := by
  intro source
  have hsource : (Lexer.Cut.interruption (.failed "disk")).Source (Utf8.ofString "let ab")
      (Utf8.ofString " =") source := by
    have h := @Lexer.Cut.Source.interrupted (.failed "disk") [Utf8.ofString "let ab"]
      [Utf8.ofString " ="] (by decide)
    rwa [List.flatten_singleton, List.flatten_singleton] at h
  have hword : Bytes.EndInWord (Utf8.ofString "let ab") :=
    ⟨Utf8.ofString "let a", 'b', by decide, by decide, by decide⟩
  have hfirst : Bytes.results (Utf8.ofString "let ab") =
      [.ok ⟨.letWord, "let", 0, ⟨1, 1⟩⟩] ++ [.ok ⟨.identifier, "ab", 0, ⟨1, 5⟩⟩] := by
    with_unfolding_all rfl
  have hsecond : Bytes.resultsFrom (Bytes.endPosition (Utf8.ofString "let ab"))
      (Utf8.ofString " =") = [.ok ⟨.equals, "=", 0, ⟨1, 8⟩⟩] := by
    with_unfolding_all rfl
  refine ⟨hsource, hword, ?_⟩
  obtain ⟨-, -, -, htouching⟩ := recovery_exact hsource
  obtain ⟨earlier, head, word, -, -, -, hresults, -, hlost⟩ := htouching hword
  rw [hfirst] at hresults
  obtain ⟨hearlier, -⟩ := List.append_inj' hresults rfl
  rw [hlost (by decide), ← hearlier, hsecond]
  rfl

end LetExit
