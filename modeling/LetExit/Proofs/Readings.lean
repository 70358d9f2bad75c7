import LetExit.Proofs.Utf8
import LetExit.Token.Lexer

/-!
# What a source hands over

However the bytes of a source are cut into deliveries, it hands over one fixed sequence
of readings: the characters and stray bytes of everything that arrives up to an
interruption, then the interruption, and so on.  `Input.readings` is that sequence, and
reading takes it apart from the front (`Input.takes_read`).  Where too many deliveries in a
row bring nothing, the last of them is an interruption itself; deliveries are `Steady` if
that does not happen, and then they are heeded as they are (`Delivery.heeded_of_steady`).

A lexer adds one character of lookahead and a position.  `Lexer.view` forgets whether the
first of the readings ahead is already in the lookahead, and the operations of a lexer
are functions of its view (`Lexer.view_next`).
-/

set_option autoImplicit false

namespace LetExit

namespace Utf8

/-- Bytes behind a settled start do not change how the text starts. -/
theorem decode?_append_of_isSettled {b : UInt8} {rest : Bytes} (h : isSettled (b :: rest) = true)
    (more : Bytes) :
    decode? (b :: (rest ++ more)) =
      (decode? (b :: rest)).map fun (c, after) => (c, after ++ more) := by
  cases hlead : lead? b with
  | none => simp [decode?, hlead]
  | some lead =>
    cases lead with
    | one => simp [decode?, hlead]
    | two =>
      cases rest with
      | nil => simp [isSettled, hlead] at h
      | cons b₁ rest =>
        simp only [decode?, hlead, List.cons_append]
        split <;> rfl
    | three low high =>
      cases rest with
      | nil => simp [isSettled, hlead] at h
      | cons b₁ rest =>
        cases rest with
        | nil =>
          have hout : within low high b₁ = false := by simpa [isSettled, hlead] using h
          cases more <;> simp [decode?, hlead, hout]
        | cons b₂ rest =>
          simp only [decode?, hlead, List.cons_append]
          split <;> rfl
    | four low high =>
      cases rest with
      | nil => simp [isSettled, hlead] at h
      | cons b₁ rest =>
        cases rest with
        | nil =>
          have hout : within low high b₁ = false := by simpa [isSettled, hlead] using h
          cases more with
          | nil => simp [decode?, hlead]
          | cons b₂ more => cases more <;> simp [decode?, hlead, hout]
        | cons b₂ rest =>
          cases rest with
          | nil =>
            have hout : (within low high b₁ && isTail b₂) = false := by
              simpa only [isSettled, hlead, Bool.not_eq_true'] using h
            cases more <;> simp [decode?, hlead, hout]
          | cons b₃ rest =>
            simp only [decode?, hlead, List.cons_append]
            split <;> rfl

/-- Bytes that settle how they start do so whatever follows them. -/
theorem first_append_of_isSettled {b : UInt8} {rest : Bytes} (h : isSettled (b :: rest) = true)
    (more : Bytes) :
    first b (rest ++ more) = ((first b rest).1, (first b rest).2 ++ more) := by
  unfold first
  rw [decode?_append_of_isSettled h]
  cases decode? (b :: rest) <;> rfl

end Utf8

namespace Delivery

/-- Never do too many deliveries in a row bring nothing. -/
def Steady (deliveries : List Delivery) : Prop :=
  ¬List.replicate patience (bytes []) <:+: deliveries

instance (deliveries : List Delivery) : Decidable (Steady deliveries) :=
  inferInstanceAs (Decidable (¬_))

/-- Behind steady deliveries are steady ones. -/
theorem Steady.of_suffix {later deliveries : List Delivery} (h : Steady deliveries)
    (hlater : later <:+ deliveries) : Steady later :=
  fun hidle => h (hidle.trans hlater.isInfix)

/-- Deliveries are heeded as they are if they exhaust the patience in no place, not even together
with empty ones in front of them. -/
theorem heeded_of_not_infix {idle : Nat} {deliveries : List Delivery}
    (h : ¬List.replicate patience (bytes []) <:+: List.replicate idle (bytes []) ++ deliveries) :
    heeded idle deliveries = deliveries := by
  induction deliveries generalizing idle with
  | nil => rfl
  | cons delivery later ih =>
    -- a delivery that brings something starts the count again
    have hagain : ¬List.replicate patience (bytes []) <:+:
        List.replicate 0 (bytes []) ++ later := by
      intro hidle
      rw [List.replicate_zero, List.nil_append] at hidle
      have hlater : later <:+ List.replicate idle (bytes []) ++ delivery :: later :=
        (List.suffix_cons delivery later).trans (List.suffix_append _ _)
      exact h (hidle.trans hlater.isInfix)
    rw [heeded]
    unfold heed
    split
    · -- one more that brings nothing, and the patience is not exhausted yet
      have hmore : List.replicate idle (bytes []) ++ bytes [] :: later =
          List.replicate (idle + 1) (bytes []) ++ later := by
        rw [List.replicate_succ', List.append_assoc, List.singleton_append]
      rw [hmore] at h
      have hpatient : idle + 1 < patience := by
        refine Nat.lt_of_not_le fun hle => h ?_
        obtain ⟨more, hsum⟩ := Nat.exists_eq_add_of_le hle
        rw [hsum, ← List.replicate_append_replicate, List.append_assoc]
        exact (List.prefix_append _ _).isInfix
      rw [if_pos hpatient, ih h]
    · rw [ih hagain]

/-- Steady deliveries are heeded as they are. -/
theorem heeded_of_steady {deliveries : List Delivery} (h : Steady deliveries) :
    heeded 0 deliveries = deliveries :=
  heeded_of_not_infix h

end Delivery

namespace Input

/-- The readings of bytes in one stretch. -/
def bytesReadings (bytes : Bytes) : List Reading :=
  (Utf8.pieces bytes).map .ofPiece

/-- The readings of bytes that have arrived and of the deliveries that follow them. -/
def deliveryReadings (buffer : Bytes) : List Delivery → List Reading
  | [] => bytesReadings buffer
  | .bytes content :: later => deliveryReadings (buffer ++ content) later
  | .interruption cause :: later =>
    bytesReadings buffer ++ .interrupted cause :: deliveryReadings [] later

/-- All readings up to the final end of the source. -/
def readings : Input → List Reading
  | .memory rest => bytesReadings rest
  | .feed buffer (some cause) deliveries =>
    bytesReadings buffer ++ .interrupted cause :: deliveryReadings [] (Delivery.heeded 0 deliveries)
  | .feed buffer none deliveries => deliveryReadings buffer (Delivery.heeded 0 deliveries)

/-- Without bytes there are no readings. -/
theorem bytesReadings_nil : bytesReadings [] = [] := by
  rw [bytesReadings, Utf8.pieces]
  rfl

/-- The first piece of bytes gives their first reading. -/
theorem bytesReadings_cons (b : UInt8) (rest : Bytes) :
    bytesReadings (b :: rest) =
      .ofPiece (Utf8.first b rest).1 :: bytesReadings (Utf8.first b rest).2 := by
  rw [bytesReadings, Utf8.pieces, List.map_cons]
  rfl

/-- All readings are characters exactly if the bytes encode them. -/
theorem bytesReadings_eq_map_char_iff {bytes : Bytes} {text : List Char} :
    bytesReadings bytes = text.map .char ↔ bytes = Utf8.encode text := by
  rw [bytesReadings, ← Utf8.pieces_eq_map_char_iff]
  generalize Utf8.pieces bytes = pieces
  induction pieces generalizing text with
  | nil => cases text <;> simp
  | cons piece pieces ih =>
    cases text with
    | nil => simp
    | cons c text =>
      rw [List.map_cons, List.map_cons, List.map_cons, List.cons.injEq, List.cons.injEq, ih]
      cases piece <;> simp [Reading.ofPiece]

/-- A settled start is the first reading, whatever is delivered after it. -/
theorem deliveryReadings_append_of_isSettled {b : UInt8} {rest : Bytes}
    (h : Utf8.isSettled (b :: rest) = true) (more : Bytes) (later : List Delivery) :
    deliveryReadings (b :: rest ++ more) later =
      .ofPiece (Utf8.first b rest).1 :: deliveryReadings ((Utf8.first b rest).2 ++ more) later := by
  have hbytes (more : Bytes) : bytesReadings (b :: rest ++ more) =
      .ofPiece (Utf8.first b rest).1 :: bytesReadings ((Utf8.first b rest).2 ++ more) := by
    rw [List.cons_append, bytesReadings_cons, Utf8.first_append_of_isSettled h]
  induction later generalizing more with
  | nil => exact hbytes more
  | cons delivery later ih =>
    cases delivery with
    | bytes content =>
      rw [deliveryReadings, deliveryReadings, List.append_assoc, List.append_assoc]
      exact ih (more ++ content)
    | interruption cause => rw [deliveryReadings, deliveryReadings, hbytes, List.cons_append]

/-- What has been taken from deliveries is enough to read from: an interruption came, or the buffer
settles how it starts, or there is nothing more to take. -/
def Arrived (buffer : Bytes) (pending : Option Interruption) (later : List Delivery) : Prop :=
  pending = none → Utf8.isSettled buffer = true ∨ later = []

/-- Deliveries are taken until there is enough to read from. -/
theorem arrived_refill (buffer : Bytes) (idle : Nat) (deliveries : List Delivery) :
    Arrived (refill buffer idle deliveries).1 (refill buffer idle deliveries).2.1
      (refill buffer idle deliveries).2.2 := by
  induction deliveries generalizing buffer idle with
  | nil => exact fun _ => Or.inr rfl
  | cons delivery later ih =>
    simp only [refill]
    split
    · rename_i hsettled
      exact fun _ => Or.inl hsettled
    · rcases delivery.heed idle with ⟨content | cause, next⟩
      · exact ih (buffer ++ content) next
      · intro h
        cases h

/-- Taking deliveries into the buffer does not change what will be read. -/
theorem readings_refill (buffer : Bytes) {idle : Nat}
    (h : idle = 0 ∨ Utf8.isSettled buffer = false) (deliveries : List Delivery) :
    (Input.feed (refill buffer idle deliveries).1 (refill buffer idle deliveries).2.1
      (refill buffer idle deliveries).2.2).readings =
        deliveryReadings buffer (Delivery.heeded idle deliveries) := by
  induction deliveries generalizing buffer idle with
  | nil => rfl
  | cons delivery later ih =>
    simp only [refill]
    split
    · rename_i hsettled
      have hidle : idle = 0 := h.resolve_right (by simp [hsettled])
      rw [hidle]
      rfl
    · rename_i hsettled
      have hbuffer : Utf8.isSettled buffer = false := Bool.eq_false_iff.mpr hsettled
      rcases hheed : delivery.heed idle with ⟨content | cause, next⟩
      · have hnext := Delivery.eq_zero_or_unsettled_of_heed hbuffer hheed
        simp only [Delivery.heeded, hheed, ih _ hnext, deliveryReadings]
      · have hnext := Delivery.eq_zero_of_heed_interruption hheed
        simp only [Delivery.heeded, hheed, hnext, deliveryReadings, readings]

/-- What reading does to the sequence of readings, from whose end on the source has ended. -/
def Takes (before : List Reading) (answer : Reading × Input) : Prop :=
  answer.1 = before.headD (.interrupted .ended) ∧ answer.2.readings = before.tail

/-- Reading from what has arrived takes the first of the readings. -/
theorem takes_readArrived {buffer : Bytes} {pending : Option Interruption} {later : List Delivery}
    (h : Arrived buffer pending later) :
    Takes (Input.feed buffer pending later).readings (readArrived (buffer, pending, later)) := by
  cases pending with
  | some cause =>
    cases buffer with
    | nil =>
      rw [readings, bytesReadings_nil]
      exact ⟨rfl, rfl⟩
    | cons b rest =>
      rw [readings, bytesReadings_cons]
      exact ⟨rfl, rfl⟩
  | none =>
    cases buffer with
    | nil =>
      -- an empty buffer is not settled
      have hlater : later = [] := (h rfl).resolve_left (by simp [Utf8.isSettled])
      subst hlater
      have hnil : (Input.feed [] none []).readings = [] := bytesReadings_nil
      rw [hnil]
      exact ⟨rfl, hnil⟩
    | cons b rest =>
      have hfirst : (Input.feed (b :: rest) none later).readings =
          .ofPiece (Utf8.first b rest).1 ::
            (Input.feed (Utf8.first b rest).2 none later).readings := by
        cases h rfl with
        | inl hsettled =>
          have := deliveryReadings_append_of_isSettled hsettled [] (Delivery.heeded 0 later)
          rwa [List.append_nil, List.append_nil] at this
        | inr hlater =>
          subst hlater
          exact bytesReadings_cons b rest
      rw [hfirst]
      exact ⟨rfl, rfl⟩

/-- Reading takes the first of the readings. -/
theorem takes_read (input : Input) : Takes input.readings input.read := by
  cases input with
  | memory rest =>
    cases rest with
    | nil =>
      rw [readings, bytesReadings_nil]
      exact ⟨rfl, bytesReadings_nil⟩
    | cons b rest =>
      rw [readings, bytesReadings_cons]
      exact ⟨rfl, rfl⟩
  | feed buffer pending deliveries =>
    cases pending with
    | some cause =>
      apply takes_readArrived
      intro h
      cases h
    | none =>
      have h := takes_readArrived (arrived_refill buffer 0 deliveries)
      rwa [readings_refill buffer (Or.inl rfl)] at h

end Input

namespace Lexer

/-- What a lexer can still see: the readings ahead, the one in the lookahead first, and the position
of the first of them. -/
structure View where
  readings : List Reading
  position : Position

/-- The view of a lexer. -/
def view (l : Lexer) : View :=
  ⟨l.lookahead.toList.map .char ++ l.input.readings, l.position⟩

namespace View

/-- The next character. -/
def peek : View → Except Fault Char × View
  | ⟨[], p⟩ => (.error .endOfInput, ⟨[], p⟩)
  | ⟨.char c :: later, p⟩ => (.ok c, ⟨.char c :: later, p⟩)
  | ⟨.malformed :: later, p⟩ => (.error (.invalidEncoding p), ⟨later, p⟩)
  | ⟨.interrupted cause :: later, p⟩ => (.error (.ofInterruption cause), ⟨later, p⟩)

/-- Consumes the next character. -/
def read (v : View) : Except Fault (Char × Position) × View :=
  match v.peek with
  | (.ok c, after) =>
    (.ok (c, after.position), ⟨after.readings.tail, after.position.advance c⟩)
  | (.error fault, after) => (.error fault, after)

/-- The rest of a word. -/
def takeWord (p : Position) : List Reading → Except Fault (List Char) × View
  | [] => (.ok [], ⟨[], p⟩)
  | .malformed :: later => (.error (.invalidEncoding p), ⟨later, p⟩)
  | .interrupted .ended :: later => (.ok [], ⟨later, p⟩)
  | .interrupted (.failed reason) :: later => (.error (.readFailed reason), ⟨later, p⟩)
  | .char c :: later =>
    if endsWord c then (.ok [], ⟨.char c :: later, p⟩)
    else
      match takeWord (p.advance c) later with
      | (.ok rest, after) => (.ok (c :: rest), after)
      | (.error fault, after) => (.error fault, after)

/-- The next token. -/
def next (p : Position) : List Reading → Except Fault Token × View
  | [] => (.error .endOfInput, ⟨[], p⟩)
  | .malformed :: later => (.error (.invalidEncoding p), ⟨later, p⟩)
  | .interrupted cause :: later => (.error (.ofInterruption cause), ⟨later, p⟩)
  | .char c :: later =>
    if isBlank c then next (p.advance c) later
    else
      match Token.Kind.ofSymbol? c with
      | some kind => (.ok ⟨kind, String.singleton c, 0, p⟩, ⟨later, p.advance c⟩)
      | none =>
        if !CharClass.isWord (.ofChar c) then
          (.error (.invalidCharacter (.ofChar c) p), ⟨later, p.advance c⟩)
        else
          match takeWord (p.advance c) later with
          | (.ok rest, after) => (Token.ofWord (c :: rest) p, after)
          | (.error fault, after) => (.error fault, after)

/-- Consumes the next character of a word. -/
def wordStep (v : View) : Except Fault (Option Char) × View :=
  match v.peek with
  | (.error .endOfInput, after) => (.ok none, after)
  | (.error fault, after) => (.error fault, after)
  | (.ok c, after) =>
    if endsWord c then (.ok none, after)
    else (.ok (some c), ⟨after.readings.tail, after.position.advance c⟩)

/-- The rest of a word is taken step by step. -/
theorem takeWord_eq (v : View) :
    takeWord v.position v.readings =
      match v.wordStep with
      | (.error fault, after) => (.error fault, after)
      | (.ok none, after) => (.ok [], after)
      | (.ok (some c), after) =>
        match takeWord after.position after.readings with
        | (.ok rest, last) => (.ok (c :: rest), last)
        | (.error fault, last) => (.error fault, last) := by
  obtain ⟨readings, p⟩ := v
  cases readings with
  | nil => rfl
  | cons first later =>
    cases first with
    | char c =>
      rw [takeWord, wordStep, peek]
      dsimp only
      split <;> rfl
    | malformed => rfl
    | interrupted cause => cases cause <;> rfl

/-- A request for a token over readings, one character at a time. -/
theorem next_eq (v : View) :
    next v.position v.readings =
      match v.read with
      | (.error fault, after) => (.error fault, after)
      | (.ok (c, position), after) =>
        if isBlank c then next after.position after.readings
        else
          match Token.Kind.ofSymbol? c with
          | some kind => (.ok ⟨kind, String.singleton c, 0, position⟩, after)
          | none =>
            if !CharClass.isWord (.ofChar c) then
              (.error (.invalidCharacter (.ofChar c) position), after)
            else
              match takeWord after.position after.readings with
              | (.ok rest, last) => (Token.ofWord (c :: rest) position, last)
              | (.error fault, last) => (.error fault, last) := by
  obtain ⟨readings, p⟩ := v
  cases readings with
  | nil => rfl
  | cons first later => cases first <;> rfl

end View

/-- Looking at a character depends on the readings and the position alone. -/
theorem view_peek (l : Lexer) : Prod.map id view l.peek = l.view.peek := by
  obtain ⟨input, lookahead, position⟩ := l
  cases lookahead with
  | some c => rfl
  | none =>
    -- with an empty lookahead the view is what the source still hands over
    obtain ⟨hanswer, hrest⟩ := Input.takes_read input
    have hview : view ⟨input, none, position⟩ = ⟨input.readings, position⟩ := rfl
    have hafter (rest : Input) : view ⟨rest, none, position⟩ = ⟨rest.readings, position⟩ := rfl
    rw [hview, peek]
    cases hread : input.read with
    | mk reading rest =>
      rw [hread] at hanswer hrest
      dsimp only at hanswer hrest
      subst hanswer
      cases hreadings : input.readings with
      | nil =>
        rw [hreadings] at hrest
        show (Except.error Fault.endOfInput, view ⟨rest, none, position⟩) = _
        rw [hafter, hrest]
        rfl
      | cons first later =>
        rw [hreadings, List.tail_cons] at hrest
        cases first with
        | char c =>
          show (Except.ok c, view ⟨rest, some c, position⟩) = _
          rw [view, hrest]
          rfl
        | malformed =>
          show (Except.error (Fault.invalidEncoding position), view ⟨rest, none, position⟩) = _
          rw [hafter, hrest]
          rfl
        | interrupted cause =>
          show (Except.error (Fault.ofInterruption cause), view ⟨rest, none, position⟩) = _
          rw [hafter, hrest]
          rfl

/-- Consuming a character depends on the readings and the position alone. -/
theorem view_read (l : Lexer) : Prod.map id view l.read = l.view.read := by
  rw [read, View.read, ← view_peek]
  cases h : l.peek with
  | mk answer after =>
    cases answer with
    | ok c =>
      obtain ⟨hlookahead, -⟩ := lookahead_and_size_of_peek_ok h
      obtain ⟨input, lookahead, position⟩ := after
      subst hlookahead
      rfl
    | error fault => rfl

/-- Consuming the character in the lookahead takes the first of the readings. -/
theorem view_read_of_lookahead {l : Lexer} {c : Char} (h : l.lookahead = some c) :
    l.read.2.view = ⟨l.view.readings.tail, l.view.position.advance c⟩ := by
  obtain ⟨input, lookahead, position⟩ := l
  subst h
  rfl

/-- A step within a word depends on the view alone. -/
theorem view_wordStep (l : Lexer) : Prod.map id view l.wordStep = l.view.wordStep := by
  rw [wordStep, View.wordStep, ← view_peek]
  rcases hpeek : l.peek with ⟨fault | c, after⟩
  · cases fault <;> rfl
  · have hread := view_read_of_lookahead (lookahead_and_size_of_peek_ok hpeek).1
    by_cases hends : endsWord c = true
    · simp [hends]
    · simp [hends, hread]

/-- The rest of a word depends on the view alone. -/
theorem view_takeWord (l : Lexer) :
    Prod.map id view l.takeWord = View.takeWord l.view.position l.view.readings := by
  fun_induction takeWord l with
  | case1 l fault after hstep =>
    rw [View.takeWord_eq, ← view_wordStep, hstep]
    rfl
  | case2 l after hstep =>
    rw [View.takeWord_eq, ← view_wordStep, hstep]
    rfl
  | case3 l c after hstep rest last hrest ih =>
    rw [hrest] at ih
    rw [View.takeWord_eq, ← view_wordStep, hstep]
    simp [← ih]
  | case4 l c after hstep fault last hrest ih =>
    rw [hrest] at ih
    rw [View.takeWord_eq, ← view_wordStep, hstep]
    simp [← ih]

/-- The token that a character starts depends on the view alone. -/
theorem view_startToken (l : Lexer) (c : Char) (position : Position) :
    Prod.map id view (l.startToken c position) =
      match Token.Kind.ofSymbol? c with
      | some kind => (.ok ⟨kind, String.singleton c, 0, position⟩, l.view)
      | none =>
        if !CharClass.isWord (.ofChar c) then
          (.error (.invalidCharacter (.ofChar c) position), l.view)
        else
          match View.takeWord l.view.position l.view.readings with
          | (.ok rest, last) => (Token.ofWord (c :: rest) position, last)
          | (.error fault, last) => (.error fault, last) := by
  rw [startToken, ← view_takeWord]
  cases Token.Kind.ofSymbol? c with
  | some kind => rfl
  | none =>
    dsimp only
    split
    · rfl
    · rcases l.takeWord with ⟨_ | _, _⟩ <;> rfl

/-- The next token, and what is ahead after it, depend on the view alone. -/
theorem view_next (l : Lexer) :
    Prod.map id view l.next = View.next l.view.position l.view.readings := by
  fun_induction next l with
  | case1 l after hround ih =>
    obtain ⟨c, p, hread, hblank⟩ := nextRound_eq_inl_iff.mp hround
    rw [View.next_eq, ← view_read, hread, ih]
    simp [hblank]
  | case2 l answer hround =>
    obtain ⟨fault, after, hread, rfl⟩ | ⟨c, p, after, hread, hblank, rfl⟩ :=
      nextRound_eq_inr_cases hround
    · rw [View.next_eq, ← view_read, hread]
      rfl
    · rw [View.next_eq, ← view_read, hread, view_startToken]
      simp [hblank]

end Lexer

end LetExit
