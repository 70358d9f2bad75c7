import LetExit.Proofs.Deliveries

/-!
# Positions

A lexer counts lines and columns while it consumes characters, one step behind the source:
the character in its lookahead is read but not counted, and a byte that belongs to no
character is read and never counted.  `Position.behind` says what the two numbers should be,
by counting in the characters consumed so far, and `positions_exact` says that they are.

Everything a source hands over is one sequence of readings, and the state of a lexer is a
place in it: `Lexer.Stands` splits the sequence into what has been consumed and what is
ahead.  A request consumes some readings more.  Which they are, and where among them the
tokens and faults of the answer stand, is said by `Lexer.Finds` for a single token and by
`Lexer.Reply.Placed` for all requests.
-/

set_option autoImplicit false

namespace LetExit

/-- The position behind a text: its line is one more than the number of line feeds, and its column
one more than the number of characters behind the last of them. -/
def Position.behind (text : List Char) : Position :=
  ⟨1 + text.count '\n', 1 + (text.reverse.takeWhile (· != '\n')).length⟩

/-- One more character advances the position behind a text. -/
theorem Position.behind_concat (text : List Char) (c : Char) :
    behind (text ++ [c]) = (behind text).advance c := by
  rw [behind, behind, advance, List.count_append, List.reverse_append, List.reverse_singleton,
    List.singleton_append, List.takeWhile_cons]
  by_cases hc : c = '\n'
  · subst hc
    simp
    omega
  · have hcount : [c].count '\n' = 0 := by simpa [List.count_cons] using hc
    simp [hc, hcount]
    omega

/-- The characters among readings. -/
def Reading.chars (readings : List Reading) : List Char :=
  readings.filterMap fun
    | .char c => some c
    | .malformed => none
    | .interrupted _ => none

namespace Reading

/-- The characters among readings, in order. -/
theorem chars_append (readings later : List Reading) :
    chars (readings ++ later) = chars readings ++ chars later :=
  List.filterMap_append

/-- No text behind readings adds none. -/
theorem append_map_char_nil (done : List Reading) : done ++ ([] : List Char).map .char = done :=
  List.append_nil done

/-- A text stands behind readings character by character. -/
theorem append_map_char_cons (done : List Reading) (c : Char) (text : List Char) :
    done ++ (c :: text).map .char = done ++ [.char c] ++ text.map .char := by
  rw [List.append_assoc]
  rfl

end Reading

/-- The position behind readings, of which only the characters count. -/
def Position.past (done : List Reading) : Position :=
  .behind (Reading.chars done)

/-- One more character advances the position behind readings. -/
theorem Position.past_concat (done : List Reading) (c : Char) :
    past (done ++ [.char c]) = (past done).advance c := by
  rw [past, Reading.chars_append]
  exact behind_concat (Reading.chars done) c

/-- Readings without characters leave the position as it is. -/
theorem Position.past_append_of_chars_eq_nil {tail : List Reading} (h : Reading.chars tail = [])
    (done : List Reading) : past (done ++ tail) = past done := by
  rw [past, Reading.chars_append, h, List.append_nil]
  rfl

namespace Lexer

/-- Nothing, or an end of the source that is reported only once. -/
def EndAtMost (tail : List Reading) : Prop :=
  tail = [] ∨ tail = [.interrupted .ended]

/-- The readings at which the source fails, behind those consumed before, and the fault. -/
inductive Breaks (done : List Reading) : List Reading → Fault → Prop
  | malformed : Breaks done [.malformed] (.invalidEncoding (.past done))
  | failed {reason : String} :
      Breaks done [.interrupted (.failed reason)] (.readFailed reason)
  | ended {tail : List Reading} : EndAtMost tail → Breaks done tail .endOfInput

/-- The readings that a request for a token consumes, behind those consumed before, and its answer.
A token or a bad word stands behind white space, and its position is the one in front of its first
character. -/
inductive Finds (done : List Reading) : List Reading → Except Fault Token → Prop
  | token {gap : List Char} {t : Token} {tail : List Reading} : (∀ c ∈ gap, isBlank c = true) →
      t.content.toList ≠ [] → (∀ c ∈ t.content.toList, isBlank c = false) → EndAtMost tail →
      t.position = .past (done ++ gap.map .char) →
      Finds done (gap.map .char ++ (t.content.toList.map .char ++ tail)) (.ok t)
  | word {gap word : List Char} {tail : List Reading} : (∀ c ∈ gap, isBlank c = true) →
      word ≠ [] → (∀ c ∈ word, isBlank c = false) → EndAtMost tail →
      Finds done (gap.map .char ++ (word.map .char ++ tail))
        (.error (.invalidWord (Utf8.encode word) (.past (done ++ gap.map .char))))
  | character {gap : List Char} {c : Char} : (∀ c ∈ gap, isBlank c = true) → isBlank c = false →
      Finds done (gap.map .char ++ [.char c])
        (.error (.invalidCharacter (.ofChar c) (.past (done ++ gap.map .char))))
  | broken {text : List Char} {tail : List Reading} {fault : Fault} :
      Breaks (done ++ text.map .char) tail fault →
      Finds done (text.map .char ++ tail) (.error fault)

/-- The end of the source is no character. -/
theorem EndAtMost.chars_eq_nil {tail : List Reading} (h : EndAtMost tail) :
    Reading.chars tail = [] := by
  rcases h with rfl | rfl <;> rfl

/-- The readings at which the source fails are no characters. -/
theorem Breaks.chars_eq_nil {done tail : List Reading} {fault : Fault}
    (h : Breaks done tail fault) : Reading.chars tail = [] := by
  cases h with
  | malformed => rfl
  | failed => rfl
  | ended htail => exact htail.chars_eq_nil

/-- White space in front of what is found is skipped. -/
theorem Finds.cons_blank {done passed : List Reading} {answer : Except Fault Token} {c : Char}
    (hc : isBlank c = true) (h : Finds (done ++ [.char c]) passed answer) :
    Finds done (.char c :: passed) answer := by
  cases h with
  | token hgap hne hcontent htail hposition =>
    rw [← Reading.append_map_char_cons] at hposition
    exact .token (List.forall_mem_cons.mpr ⟨hc, hgap⟩) hne hcontent htail hposition
  | word hgap hne hword htail =>
    rw [← Reading.append_map_char_cons]
    exact .word (List.forall_mem_cons.mpr ⟨hc, hgap⟩) hne hword htail
  | character hgap hblank =>
    rw [← Reading.append_map_char_cons]
    exact .character (List.forall_mem_cons.mpr ⟨hc, hgap⟩) hblank
  | broken hbreaks =>
    rw [← Reading.append_map_char_cons] at hbreaks
    exact .broken hbreaks

/-- A request for a token that meets a failure at once answers it. -/
theorem Breaks.finds {done tail : List Reading} {fault : Fault} (h : Breaks done tail fault) :
    Finds done tail (.error fault) := by
  rw [← Reading.append_map_char_nil done] at h
  exact .broken h

/-- A token without white space in front of it is found where the readings before end. -/
theorem finds_token {done tail : List Reading} {t : Token} (hne : t.content.toList ≠ [])
    (hcontent : ∀ c ∈ t.content.toList, isBlank c = false) (htail : EndAtMost tail)
    (hposition : t.position = .past done) :
    Finds done (t.content.toList.map .char ++ tail) (.ok t) := by
  rw [← Reading.append_map_char_nil done] at hposition
  exact .token (by simp) hne hcontent htail hposition

/-- A finished word is a token or a bad word, and stands where it starts. -/
theorem finds_ofWord {done tail : List Reading} {word : List Char} (hne : word ≠ [])
    (hword : ∀ c ∈ word, isBlank c = false) (htail : EndAtMost tail) :
    Finds done (word.map .char ++ tail) (Token.ofWord word (.past done)) := by
  have htoken (kind : Token.Kind) (value : Int64) :
      Finds done (word.map .char ++ tail) (.ok ⟨kind, String.ofList word, value, .past done⟩) := by
    have hlist : (String.ofList word).toList = word := String.toList_ofList
    rw [← hlist] at hne hword
    have hfinds := finds_token (t := ⟨kind, String.ofList word, value, .past done⟩) hne hword htail
      rfl
    rwa [hlist] at hfinds
  unfold Token.ofWord
  split
  · exact htoken _ 0
  · split
    · exact htoken .integer _
    · split
      · exact htoken .identifier 0
      · have hfinds := @Finds.word done [] word tail (by simp) hne hword htail
        rwa [Reading.append_map_char_nil] at hfinds

namespace View

/-- The rest of a word takes its characters and what it breaks off at. -/
theorem exists_of_takeWord (done readings : List Reading) :
    ∃ (word : List Char) (tail : List Reading) (after : View),
      readings = word.map .char ++ (tail ++ after.readings) ∧
      after.position = .past (done ++ word.map .char) ∧ (∀ c ∈ word, isBlank c = false) ∧
      (takeWord (.past done) readings = (.ok word, after) ∧ EndAtMost tail ∨
        ∃ fault, takeWord (.past done) readings = (.error fault, after) ∧
          Breaks (done ++ word.map .char) tail fault) := by
  induction readings generalizing done with
  | nil =>
    refine ⟨[], [], ⟨[], .past done⟩, rfl, ?_, by simp, .inl ⟨rfl, .inl rfl⟩⟩
    rw [Reading.append_map_char_nil]
  | cons first later ih =>
    have hstay : Position.past done = .past (done ++ ([] : List Char).map .char) := by
      rw [Reading.append_map_char_nil]
    cases first with
    | malformed =>
      refine ⟨[], [.malformed], ⟨later, .past done⟩, rfl, hstay, by simp, .inr ⟨_, rfl, ?_⟩⟩
      rw [Reading.append_map_char_nil]
      exact .malformed
    | interrupted cause =>
      cases cause with
      | ended =>
        exact ⟨[], [.interrupted .ended], ⟨later, .past done⟩, rfl, hstay, by simp,
          .inl ⟨rfl, .inr rfl⟩⟩
      | failed reason =>
        exact ⟨[], [.interrupted (.failed reason)], ⟨later, .past done⟩, rfl, hstay, by simp,
          .inr ⟨_, rfl, .failed⟩⟩
    | char c =>
      by_cases hends : endsWord c = true
      · refine ⟨[], [], ⟨.char c :: later, .past done⟩, rfl, hstay, by simp, .inl ⟨?_, .inl rfl⟩⟩
        rw [takeWord, if_pos hends]
      · have hblank : isBlank c = false := by
          rw [endsWord, Bool.or_eq_true, not_or] at hends
          exact Bool.eq_false_iff.mpr hends.1
        obtain ⟨word, tail, after, rfl, hafter, hword, htake⟩ := ih (done ++ [.char c])
        rw [← Reading.append_map_char_cons] at hafter htake
        refine ⟨c :: word, tail, after, rfl, hafter,
          List.forall_mem_cons.mpr ⟨hblank, hword⟩, ?_⟩
        rw [takeWord, if_neg hends, ← Position.past_concat]
        rcases htake with ⟨htake, htail⟩ | ⟨fault, htake, hbreaks⟩
        · rw [htake]
          exact .inl ⟨rfl, htail⟩
        · rw [htake]
          exact .inr ⟨fault, rfl, hbreaks⟩

/-- A step takes readings from the front and answers what is found in them. -/
def Passes (done readings : List Reading) (step : Except Fault Token × View) : Prop :=
  ∃ passed, readings = passed ++ step.2.readings ∧ step.2.position = .past (done ++ passed) ∧
    Finds done passed step.1

/-- A step that fails at once takes what it fails at. -/
theorem passes_of_breaks {done later tail : List Reading} {fault : Fault}
    (h : Breaks done tail fault) :
    Passes done (tail ++ later) (.error fault, ⟨later, .past done⟩) :=
  ⟨tail, rfl, (Position.past_append_of_chars_eq_nil h.chars_eq_nil done).symm, h.finds⟩

/-- A step over a symbol takes its character. -/
theorem passes_symbol {c : Char} (hc : isBlank c = false) (kind : Token.Kind)
    (done later : List Reading) :
    Passes done (.char c :: later)
      (.ok ⟨kind, String.singleton c, 0, .past done⟩, ⟨later, .past (done ++ [.char c])⟩) := by
  refine ⟨[.char c], rfl, rfl, ?_⟩
  have hcontent : (String.singleton c).toList = [c] := String.toList_singleton c
  have hfinds := finds_token (t := ⟨kind, String.singleton c, 0, .past done⟩)
    (by simp) (by simpa using hc) (.inl rfl) rfl
  rwa [hcontent] at hfinds

/-- A step over a character that starts no token takes it. -/
theorem passes_character {c : Char} (hc : isBlank c = false) (done later : List Reading) :
    Passes done (.char c :: later)
      (.error (.invalidCharacter (.ofChar c) (.past done)),
        ⟨later, .past (done ++ [.char c])⟩) := by
  have hfinds := @Finds.character done [] c (by simp) hc
  rw [Reading.append_map_char_nil] at hfinds
  exact ⟨[.char c], rfl, rfl, hfinds⟩

/-- A step over a word takes its characters, and the end or the fault behind them. -/
theorem passes_word {c : Char} (hc : isBlank c = false) (done later : List Reading) :
    Passes done (.char c :: later)
      (match takeWord (.past (done ++ [.char c])) later with
        | (.ok rest, after) => (Token.ofWord (c :: rest) (.past done), after)
        | (.error fault, after) => (.error fault, after)) := by
  obtain ⟨word, tail, after, rfl, hposition, hword, htake⟩ :=
    exists_of_takeWord (done ++ [.char c]) later
  rw [← Reading.append_map_char_cons] at hposition htake
  have hreadings : .char c :: (word.map .char ++ (tail ++ after.readings)) =
      (c :: word).map Reading.char ++ tail ++ after.readings := by
    rw [List.append_assoc]
    rfl
  rcases htake with ⟨htake, htail⟩ | ⟨fault, htake, hbreaks⟩
  · rw [htake]
    refine ⟨_, hreadings, ?_, finds_ofWord (List.cons_ne_nil c word)
      (List.forall_mem_cons.mpr ⟨hc, hword⟩) htail⟩
    rw [← List.append_assoc, Position.past_append_of_chars_eq_nil htail.chars_eq_nil]
    exact hposition
  · rw [htake]
    refine ⟨_, hreadings, ?_, .broken hbreaks⟩
    rw [← List.append_assoc, Position.past_append_of_chars_eq_nil hbreaks.chars_eq_nil]
    exact hposition

/-- A request for a token takes readings from the front and answers what it finds there. -/
theorem passes_next (done readings : List Reading) :
    Passes done readings (next (.past done) readings) := by
  induction readings generalizing done with
  | nil => exact passes_of_breaks (.ended (.inl rfl))
  | cons first later ih =>
    cases first with
    | malformed => exact passes_of_breaks .malformed
    | interrupted cause =>
      cases cause with
      | ended => exact passes_of_breaks (.ended (.inr rfl))
      | failed reason => exact passes_of_breaks .failed
    | char c =>
      rw [next, ← Position.past_concat]
      by_cases hblank : isBlank c = true
      · -- white space is consumed, and the rest is found behind it
        obtain ⟨passed, hreadings, hposition, hfinds⟩ := ih (done ++ [.char c])
        rw [if_pos hblank]
        rw [List.append_assoc] at hposition
        exact ⟨.char c :: passed, congrArg (.char c :: ·) hreadings, hposition,
          hfinds.cons_blank hblank⟩
      · have hnonblank : isBlank c = false := Bool.eq_false_iff.mpr hblank
        rw [if_neg hblank]
        split
        · exact passes_symbol hnonblank _ done later
        · split
          · exact passes_character hnonblank done later
          · exact passes_word hnonblank done later

/-- What is ahead is a character, or the source breaks off. -/
theorem peek_eq_or_breaks (done readings : List Reading) :
    (∃ c later, readings = .char c :: later ∧
      peek ⟨readings, .past done⟩ = (.ok c, ⟨readings, .past done⟩)) ∨
    ∃ passed later fault, readings = passed ++ later ∧
      peek ⟨readings, .past done⟩ = (.error fault, ⟨later, .past done⟩) ∧
      Breaks done passed fault := by
  cases readings with
  | nil => exact .inr ⟨[], [], _, rfl, rfl, .ended (.inl rfl)⟩
  | cons first later =>
    cases first with
    | char c => exact .inl ⟨c, later, rfl, rfl⟩
    | malformed => exact .inr ⟨[.malformed], later, _, rfl, rfl, .malformed⟩
    | interrupted cause =>
      refine .inr ⟨[.interrupted cause], later, _, rfl, rfl, ?_⟩
      cases cause with
      | ended => exact .ended (.inr rfl)
      | failed reason => exact .failed

end View

/-- The readings that all tokens up to the end or a fault are found in, one behind the other. -/
inductive FindsAll : List Reading → List Reading → Except Fault (List Token) → Prop
  | ended {done passed : List Reading} :
      Finds done passed (.error .endOfInput) → FindsAll done passed (.ok [])
  | fault {done passed : List Reading} {fault : Fault} : fault ≠ .endOfInput →
      Finds done passed (.error fault) → FindsAll done passed (.error fault)
  | token {done passed later : List Reading} {t : Token} {answer : Except Fault (List Token)} :
      Finds done passed (.ok t) → FindsAll (done ++ passed) later answer →
      FindsAll done (passed ++ later) (answer.map (t :: ·))

/-- The readings that a request consumes, behind those consumed before, and its reply.  The next
character stays ahead when it is only looked at. -/
inductive Reply.Placed (done : List Reading) : List Reading → Reply → Prop
  | token {passed : List Reading} {answer : Except Fault Token} :
      Finds done passed answer → Placed done passed (.token answer)
  | tokens {passed : List Reading} {answer : Except Fault (List Token)} :
      FindsAll done passed answer → Placed done passed (.tokens answer)
  | ahead {c : Char} : Placed done [] (.ahead (.ok c))
  | aheadFault {passed : List Reading} {fault : Fault} :
      Breaks done passed fault → Placed done passed (.ahead (.error fault))
  | char {c : Char} : Placed done [.char c] (.char (.ok (c, .past done)))
  | charFault {passed : List Reading} {fault : Fault} :
      Breaks done passed fault → Placed done passed (.char (.error fault))

/-- A lexer has consumed some of the readings of its source and stands behind their characters. -/
structure Stands (source done : List Reading) (l : Lexer) : Prop where
  readings_eq : source = done ++ l.view.readings
  position_eq : l.position = .past done

/-- A new lexer has consumed nothing. -/
theorem stands_ofInput (input : Input) : Stands input.readings [] (ofInput input) :=
  ⟨rfl, rfl⟩

/-- What a lexer sees from where it stands. -/
theorem Stands.view_eq {source done : List Reading} {l : Lexer} (h : Stands source done l) :
    l.view = ⟨l.view.readings, .past done⟩ := by
  rw [← h.position_eq]
  rfl

/-- What a step does to the view says where the lexer stands after it. -/
theorem Stands.of_view {α : Type} {source done passed : List Reading} {l : Lexer}
    {step : α × Lexer} {answer : α} {after : View} (h : Stands source done l)
    (hview : Prod.map id view step = (answer, after))
    (hreadings : l.view.readings = passed ++ after.readings)
    (hposition : after.position = .past (done ++ passed)) :
    step.1 = answer ∧ Stands source (done ++ passed) step.2 := by
  obtain ⟨rfl, rfl⟩ := Prod.mk.inj hview
  refine ⟨rfl, ?_, hposition⟩
  rw [h.readings_eq, hreadings, List.append_assoc]

/-- One token takes a lexer from a place among the readings to a later one. -/
theorem Stands.next {source done : List Reading} {l : Lexer} (h : Stands source done l) :
    ∃ passed, Stands source (done ++ passed) l.next.2 ∧ Finds done passed l.next.1 := by
  obtain ⟨passed, hreadings, hposition, hfinds⟩ := View.passes_next done l.view.readings
  have hview := view_next l
  rw [show l.view.position = .past done from h.position_eq] at hview
  obtain ⟨hanswer, hafter⟩ := h.of_view hview hreadings hposition
  rw [hanswer]
  exact ⟨passed, hafter, hfinds⟩

/-- Reading all tokens consumes the readings in which they are found. -/
theorem Stands.tokenize {source done : List Reading} {l : Lexer} (h : Stands source done l) :
    ∃ passed, Stands source (done ++ passed) l.tokenize.2 ∧ FindsAll done passed l.tokenize.1 := by
  fun_induction Lexer.tokenize l generalizing done with
  | case1 l fault after hstep =>
    obtain ⟨hnext, hfault⟩ := tokenStep_eq_error_iff.mp hstep
    obtain ⟨passed, hafter, hfinds⟩ := h.next
    rw [hnext] at hafter hfinds
    exact ⟨passed, hafter, .fault hfault hfinds⟩
  | case2 l after hstep =>
    obtain ⟨passed, hafter, hfinds⟩ := h.next
    rw [tokenStep_eq_ok_none_iff.mp hstep] at hafter hfinds
    exact ⟨passed, hafter, .ended hfinds⟩
  | case3 l t after hstep ts last htail ih =>
    obtain ⟨passed, hafter, hfinds⟩ := h.next
    rw [tokenStep_eq_ok_some_iff.mp hstep] at hafter hfinds
    obtain ⟨later, hlast, htokens⟩ := ih hafter
    rw [htail] at hlast htokens
    rw [List.append_assoc] at hlast
    exact ⟨passed ++ later, hlast, .token hfinds htokens⟩
  | case4 l t after hstep fault last htail ih =>
    obtain ⟨passed, hafter, hfinds⟩ := h.next
    rw [tokenStep_eq_ok_some_iff.mp hstep] at hafter hfinds
    obtain ⟨later, hlast, htokens⟩ := ih hafter
    rw [htail] at hlast htokens
    rw [List.append_assoc] at hlast
    exact ⟨passed ++ later, hlast, .token hfinds htokens⟩

/-- Looking at a character consumes a fault but no character. -/
theorem Stands.peek {source done : List Reading} {l : Lexer} (h : Stands source done l) :
    ∃ passed, Stands source (done ++ passed) l.peek.2 ∧
      Reply.Placed done passed (.ahead l.peek.1) := by
  have hview := view_peek l
  rw [h.view_eq] at hview
  rcases View.peek_eq_or_breaks done l.view.readings with
    ⟨c, later, -, hpeek⟩ | ⟨passed, later, fault, hreadings, hpeek, hbreaks⟩
  · obtain ⟨hanswer, hafter⟩ := h.of_view (hview.trans hpeek) (List.nil_append _).symm
      (congrArg Position.past (List.append_nil done).symm)
    rw [hanswer]
    exact ⟨[], hafter, .ahead⟩
  · obtain ⟨hanswer, hafter⟩ := h.of_view (hview.trans hpeek) hreadings
      (Position.past_append_of_chars_eq_nil hbreaks.chars_eq_nil done).symm
    rw [hanswer]
    exact ⟨passed, hafter, .aheadFault hbreaks⟩

/-- Consuming a character consumes one reading or a fault. -/
theorem Stands.read {source done : List Reading} {l : Lexer} (h : Stands source done l) :
    ∃ passed, Stands source (done ++ passed) l.read.2 ∧
      Reply.Placed done passed (.char l.read.1) := by
  have hview := view_read l
  rw [h.view_eq, View.read] at hview
  rcases View.peek_eq_or_breaks done l.view.readings with
    ⟨c, later, hreadings, hpeek⟩ | ⟨passed, later, fault, hreadings, hpeek, hbreaks⟩
  · rw [hpeek, hreadings] at hview
    obtain ⟨hanswer, hafter⟩ := h.of_view hview hreadings (Position.past_concat done c).symm
    rw [hanswer]
    exact ⟨[.char c], hafter, .char⟩
  · rw [hpeek] at hview
    obtain ⟨hanswer, hafter⟩ := h.of_view hview hreadings
      (Position.past_append_of_chars_eq_nil hbreaks.chars_eq_nil done).symm
    rw [hanswer]
    exact ⟨passed, hafter, .charFault hbreaks⟩

/-- Every request takes a lexer from a place among the readings to a later one, and its reply tells
of the readings between them. -/
theorem Stands.serve {source done : List Reading} {l : Lexer} (h : Stands source done l)
    (request : Request) :
    ∃ passed, Stands source (done ++ passed) (l.serve request).2 ∧
      Reply.Placed done passed (l.serve request).1 := by
  cases request with
  | next =>
    obtain ⟨passed, hafter, hfinds⟩ := h.next
    exact ⟨passed, hafter, .token hfinds⟩
  | tokenize =>
    obtain ⟨passed, hafter, hfinds⟩ := h.tokenize
    exact ⟨passed, hafter, .tokens hfinds⟩
  | peek => exact h.peek
  | read => exact h.read

/-- Any requests take a lexer to a later place. -/
theorem Stands.served {source done : List Reading} {l : Lexer} (h : Stands source done l)
    (requests : List Request) : ∃ passed, Stands source (done ++ passed) (l.served requests) := by
  refine Requests.served_of_step (P := fun m => ∃ passed, Stands source (done ++ passed) m) ?_
    ⟨[], by rwa [List.append_nil]⟩ requests
  rintro m request ⟨passed, hstands⟩
  obtain ⟨more, hafter, -⟩ := hstands.serve request
  rw [List.append_assoc] at hafter
  exact ⟨passed ++ more, hafter⟩

/-- Positions are exact.  Whatever the source hands over and whatever has been asked of the lexer,
it stands behind the characters it has consumed, with line and column counted in them, and so it
does after one request more.  The tokens and faults of the reply bear the position in front of
their own first character or, for a byte that belongs to no character, of that byte. -/
theorem positions_exact (input : Input) (requests : List Request) (request : Request) :
    ∃ done passed : List Reading,
      Stands input.readings done ((ofInput input).served requests) ∧
      Stands input.readings (done ++ passed) (((ofInput input).served requests).serve request).2 ∧
      (((ofInput input).served requests).serve request).1.Placed done passed := by
  obtain ⟨done, hstands⟩ := (stands_ofInput input).served requests
  obtain ⟨passed, hafter, hplaced⟩ := hstands.serve request
  exact ⟨done, passed, hstands, hafter, hplaced⟩

end Lexer

end LetExit
