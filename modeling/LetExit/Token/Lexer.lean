import LetExit.Fault
import LetExit.Source
import LetExit.Text.Blank

/-!
# Reading tokens

A lexer reads characters with one character of lookahead and cuts them into tokens.
White space separates words, the four symbols stand alone, and a word reaches as far
as word characters do.  A finished word is a keyword, else an integer in the 64-bit
range, else a name, else a fault.

Every answer comes with the lexer after it, also when the answer is a fault, so
reading can go on.  `Lexer.size` bounds what is left, and every token makes it smaller
(`Lexer.size_lt_of_next_ok`).
-/

set_option autoImplicit false

namespace LetExit

/-- The fault that reports an interruption of the source. -/
def Fault.ofInterruption : Interruption → Fault
  | .ended => .endOfInput
  | .failed reason => .readFailed reason

/-- The token that a whole word is. -/
def Token.ofWord (word : List Char) (position : Position) : Except Fault Token :=
  match Token.Kind.ofKeyword? word with
  | some kind => .ok ⟨kind, String.ofList word, 0, position⟩
  | none =>
    match Decimal.toInt64? word with
    | some value => .ok ⟨.integer, String.ofList word, value, position⟩
    | none =>
      if isIdentifier word then .ok ⟨.identifier, String.ofList word, 0, position⟩
      else .error (.invalidWord (Utf8.encode word) position)

/-- The state of reading: the input, the character taken from it and not yet consumed, and the
position of the next character to consume. -/
structure Lexer where
  input : Input
  lookahead : Option Char
  position : Position
deriving DecidableEq, Repr

namespace Lexer

/-- A lexer at the start of a text. -/
def ofInput (input : Input) : Lexer :=
  ⟨input, none, .start⟩

/-- The next character, which stays unconsumed.  A fault consumes what caused it and leaves the
position as it is. -/
def peek (l : Lexer) : Except Fault Char × Lexer :=
  match l.lookahead with
  | some c => (.ok c, l)
  | none =>
    match l.input.read with
    | (.char c, rest) => (.ok c, ⟨rest, some c, l.position⟩)
    | (.malformed, rest) => (.error (.invalidEncoding l.position), ⟨rest, none, l.position⟩)
    | (.interrupted cause, rest) => (.error (.ofInterruption cause), ⟨rest, none, l.position⟩)

/-- Consumes the next character and answers it with its position. -/
def read (l : Lexer) : Except Fault (Char × Position) × Lexer :=
  match l.peek with
  | (.ok c, l') => (.ok (c, l'.position), ⟨l'.input, none, l'.position.advance c⟩)
  | (.error fault, l') => (.error fault, l')

/-- The characters not yet consumed and the interruptions not yet handed on. -/
def size (l : Lexer) : Nat :=
  l.input.size + l.lookahead.toList.length

/-- A character ahead stands in the lookahead, and looking at it does not make the rest larger. -/
theorem lookahead_and_size_of_peek_ok {l l' : Lexer} {c : Char} (h : l.peek = (.ok c, l')) :
    l'.lookahead = some c ∧ l'.size ≤ l.size := by
  unfold peek at h
  split at h
  · simp_all
  · rename_i hl
    split at h
    · rename_i c' rest hr
      have hlt := Input.size_lt_of_read_char hr
      simp only [Prod.mk.injEq, Except.ok.injEq] at h
      obtain ⟨rfl, rfl⟩ := h
      refine ⟨rfl, ?_⟩
      simp only [size, hl, Option.toList_some, Option.toList_none, List.length_cons,
        List.length_nil]
      omega
    · simp at h
    · simp at h

/-- A character that is consumed makes the rest smaller. -/
theorem size_lt_of_read_ok {l l' : Lexer} {c : Char} {p : Position}
    (h : l.read = (.ok (c, p), l')) : l'.size < l.size := by
  unfold read at h
  split at h
  · rename_i c' m hp
    obtain ⟨hl, hs⟩ := lookahead_and_size_of_peek_ok hp
    simp only [Prod.mk.injEq, Except.ok.injEq] at h
    rw [← h.2]
    simp only [size, hl, Option.toList_some, Option.toList_none, List.length_cons,
      List.length_nil] at hs ⊢
    omega
  · simp at h

/-- Consuming the character in the lookahead makes the rest smaller. -/
theorem size_read_lt_of_lookahead {l : Lexer} {c : Char} (h : l.lookahead = some c) :
    l.read.2.size < l.size := by
  simp [read, peek, h, size]

/-- Whether a character ends the word in front of it. -/
def endsWord (c : Char) : Bool :=
  isBlank c || !CharClass.isWord (.ofChar c)

/-- Consumes the next character of a word.  There is none at white space, at punctuation and at the
end of the input. -/
def wordStep (l : Lexer) : Except Fault (Option Char) × Lexer :=
  match l.peek with
  | (.error .endOfInput, l') => (.ok none, l')
  | (.error fault, l') => (.error fault, l')
  | (.ok c, l') => if endsWord c then (.ok none, l') else (.ok (some c), l'.read.2)

/-- A step within a word consumes a character that is ahead and does not end the word. -/
theorem wordStep_eq_ok_some_iff {l l' : Lexer} {c : Char} :
    l.wordStep = (.ok (some c), l') ↔
      ∃ m, l.peek = (.ok c, m) ∧ endsWord c = false ∧ l' = m.read.2 := by
  constructor
  · intro h
    unfold wordStep at h
    split at h
    · cases h
    · cases h
    · rename_i d m hp
      split at h
      · cases h
      · rename_i hends
        cases h
        exact ⟨m, hp, Bool.eq_false_iff.mpr hends, rfl⟩
  · rintro ⟨m, hp, hends, rfl⟩
    simp [wordStep, hp, hends]

/-- A character of a word makes the rest smaller. -/
theorem size_lt_of_wordStep {l l' : Lexer} {c : Char} (h : l.wordStep = (.ok (some c), l')) :
    l'.size < l.size := by
  obtain ⟨m, hp, -, rfl⟩ := wordStep_eq_ok_some_iff.mp h
  obtain ⟨hl, hs⟩ := lookahead_and_size_of_peek_ok hp
  exact Nat.lt_of_lt_of_le (size_read_lt_of_lookahead hl) hs

/-- The word characters ahead, up to white space, punctuation or the end of the input.  Any other
fault loses them. -/
def takeWord (l : Lexer) : Except Fault (List Char) × Lexer :=
  match _h : l.wordStep with
  | (.error fault, l') => (.error fault, l')
  | (.ok none, l') => (.ok [], l')
  | (.ok (some c), l') =>
    match takeWord l' with
    | (.ok rest, l'') => (.ok (c :: rest), l'')
    | (.error fault, l'') => (.error fault, l'')
termination_by l.size
decreasing_by exact size_lt_of_wordStep _h

/-- The token that a character starts, which is no white space and has just been consumed. -/
def startToken (l : Lexer) (c : Char) (position : Position) : Except Fault Token × Lexer :=
  match Token.Kind.ofSymbol? c with
  | some kind => (.ok ⟨kind, String.singleton c, 0, position⟩, l)
  | none =>
    if !CharClass.isWord (.ofChar c) then (.error (.invalidCharacter (.ofChar c) position), l)
    else
      match l.takeWord with
      | (.ok rest, l') => (Token.ofWord (c :: rest) position, l')
      | (.error fault, l') => (.error fault, l')

/-- A round of the search for a token.  White space is skipped, and anything else ends the search
with the answer. -/
def nextRound (l : Lexer) : Lexer ⊕ (Except Fault Token × Lexer) :=
  match l.read with
  | (.error fault, l') => .inr (.error fault, l')
  | (.ok (c, position), l') => if isBlank c then .inl l' else .inr (l'.startToken c position)

/-- The search goes on behind white space. -/
theorem nextRound_eq_inl_iff {l l' : Lexer} :
    l.nextRound = .inl l' ↔ ∃ c p, l.read = (.ok (c, p), l') ∧ isBlank c = true := by
  constructor
  · intro h
    unfold nextRound at h
    split at h
    · cases h
    · rename_i c p m hr
      split at h
      · rename_i hblank
        cases h
        exact ⟨c, p, hr, hblank⟩
      · cases h
  · rintro ⟨c, p, hr, hblank⟩
    simp [nextRound, hr, hblank]

/-- The search ends with a fault of reading, or with the token that a character starts. -/
theorem nextRound_eq_inr_cases {l : Lexer} {answer : Except Fault Token × Lexer}
    (h : l.nextRound = .inr answer) :
    (∃ fault m, l.read = (.error fault, m) ∧ answer = (.error fault, m)) ∨
      ∃ c p m, l.read = (.ok (c, p), m) ∧ isBlank c = false ∧ answer = m.startToken c p := by
  unfold nextRound at h
  split at h
  · rename_i fault m hr
    cases h
    exact Or.inl ⟨fault, m, hr, rfl⟩
  · rename_i c p m hr
    split at h
    · cases h
    · rename_i hblank
      cases h
      exact Or.inr ⟨c, p, m, hr, Bool.eq_false_iff.mpr hblank, rfl⟩

/-- White space makes the rest smaller. -/
theorem size_lt_of_nextRound {l l' : Lexer} (h : l.nextRound = .inl l') : l'.size < l.size := by
  obtain ⟨c, p, hr, -⟩ := nextRound_eq_inl_iff.mp h
  exact size_lt_of_read_ok hr

/-- The next token. -/
def next (l : Lexer) : Except Fault Token × Lexer :=
  match _h : l.nextRound with
  | .inl l' => next l'
  | .inr answer => answer
termination_by l.size
decreasing_by exact size_lt_of_nextRound _h

/-- The end of a word takes nothing from what is left but the report of an end. -/
theorem size_le_of_wordStep_none {l l' : Lexer} (h : l.wordStep = (.ok none, l')) :
    l'.size ≤ l.size := by
  unfold wordStep at h
  split at h
  · rename_i m hp
    simp only [Prod.mk.injEq] at h
    rw [← h.2]
    unfold peek at hp
    split at hp
    · simp at hp
    · rename_i hl
      have hr := Input.size_read_le l.input
      split at hp <;> rename_i rest hread
      · simp at hp
      · simp at hp
      · simp only [Prod.mk.injEq] at hp
        rw [hread] at hr
        simp only [← hp.2, size, hl]
        exact Nat.add_le_add_right hr _
  · simp at h
  · rename_i c m hp
    split at h
    · simp only [Prod.mk.injEq] at h
      rw [← h.2]
      exact (lookahead_and_size_of_peek_ok hp).2
    · simp at h

/-- The rest of a word does not make what is left larger. -/
theorem size_le_of_takeWord_ok {l l' : Lexer} {word : List Char}
    (h : l.takeWord = (.ok word, l')) : l'.size ≤ l.size := by
  fun_induction takeWord l generalizing word with
  | case1 l fault m hstep => simp at h
  | case2 l m hstep =>
    simp only [Prod.mk.injEq] at h
    rw [← h.2]
    exact size_le_of_wordStep_none hstep
  | case3 l c m hstep rest m' hrest ih =>
    simp only [Prod.mk.injEq] at h
    rw [h.2] at hrest
    exact Nat.le_trans (ih hrest) (Nat.le_of_lt (size_lt_of_wordStep hstep))
  | case4 l c m hstep fault m' hrest ih => simp at h

/-- A token that has been started does not make what is left larger. -/
theorem size_le_of_startToken_ok {l l' : Lexer} {c : Char} {p : Position} {t : Token}
    (h : l.startToken c p = (.ok t, l')) : l'.size ≤ l.size := by
  unfold startToken at h
  split at h
  · simp only [Prod.mk.injEq] at h
    exact Nat.le_of_eq (congrArg size h.2.symm)
  · split at h
    · simp at h
    · split at h
      · rename_i rest m hw
        simp only [Prod.mk.injEq] at h
        rw [← h.2]
        exact size_le_of_takeWord_ok hw
      · simp at h

/-- A token makes the rest smaller. -/
theorem size_lt_of_next_ok {l l' : Lexer} {t : Token} (h : l.next = (.ok t, l')) :
    l'.size < l.size := by
  fun_induction next l with
  | case1 l m hround ih => exact Nat.lt_trans (ih h) (size_lt_of_nextRound hround)
  | case2 l answer hround =>
    obtain ⟨fault, m, -, rfl⟩ | ⟨c, p, m, hr, -, rfl⟩ := nextRound_eq_inr_cases hround
    · cases h
    · exact Nat.lt_of_le_of_lt (size_le_of_startToken_ok h) (size_lt_of_read_ok hr)

/-- The next token, if the input does not end before it. -/
def tokenStep (l : Lexer) : Except Fault (Option Token) × Lexer :=
  match l.next with
  | (.error .endOfInput, l') => (.ok none, l')
  | (.error fault, l') => (.error fault, l')
  | (.ok token, l') => (.ok (some token), l')

/-- There is no next token exactly at an end of the input. -/
theorem tokenStep_eq_ok_none_iff {l l' : Lexer} :
    l.tokenStep = (.ok none, l') ↔ l.next = (.error .endOfInput, l') := by
  rcases hn : l.next with ⟨fault | t, m⟩
  · cases fault <;> simp [tokenStep, hn]
  · simp [tokenStep, hn]

/-- Every fault but an end of the input is handed on. -/
theorem tokenStep_eq_error_iff {l l' : Lexer} {fault : Fault} :
    l.tokenStep = (.error fault, l') ↔ l.next = (.error fault, l') ∧ fault ≠ .endOfInput := by
  rcases hn : l.next with ⟨found | t, m⟩
  · cases found <;> simp [tokenStep, hn] <;> rintro rfl <;> simp
  · simp [tokenStep, hn]

/-- The next token is the one that the search finds. -/
theorem tokenStep_eq_ok_some_iff {l l' : Lexer} {t : Token} :
    l.tokenStep = (.ok (some t), l') ↔ l.next = (.ok t, l') := by
  rcases hn : l.next with ⟨fault | t', m⟩
  · cases fault <;> simp [tokenStep, hn]
  · simp [tokenStep, hn]

/-- All tokens up to the end of the input.  A fault loses the tokens before it. -/
def tokenize (l : Lexer) : Except Fault (List Token) × Lexer :=
  match _h : l.tokenStep with
  | (.error fault, l') => (.error fault, l')
  | (.ok none, l') => (.ok [], l')
  | (.ok (some token), l') =>
    match tokenize l' with
    | (.ok rest, l'') => (.ok (token :: rest), l'')
    | (.error fault, l'') => (.error fault, l'')
termination_by l.size
decreasing_by exact size_lt_of_next_ok (tokenStep_eq_ok_some_iff.mp _h)

end Lexer

end LetExit
