import LetExit.Proofs.Progress

/-!
# Characters are read without loss

Reading characters one after the other until the end gives answers from which the bytes of the
text can be restored: a character stands for its encoding, and a fault for the one byte at which
no well-formed encoding starts (`Lexer.restores_drain`).

Looking at a character does not consume it and is not seen afterwards.  The lexer that has a
character in its lookahead serves every request as the lexer did that had not looked yet
(`Lexer.serve_of_peek`), so a look that was answered with a character can be left out of any
sequence of requests (`Lexer.transcript_erase_peek`).  A look that was answered with a fault has
consumed the fault, and cannot.
-/

set_option autoImplicit false

namespace LetExit

/-- A well-formed encoding starts the bytes. -/
def Utf8.StartsWellFormed (bytes : Bytes) : Prop :=
  ∃ enc n after, WellFormed enc n ∧ bytes = enc ++ after

/-- Where nothing can be decoded, no well-formed encoding starts. -/
theorem Utf8.not_startsWellFormed_of_decode? {bytes : Bytes} (h : decode? bytes = none) :
    ¬StartsWellFormed bytes := by
  rintro ⟨enc, n, after, hwf, rfl⟩
  rw [decode?_append_of_wellFormed hwf] at h
  cases h

namespace Lexer

/-! ## Reading until the end -/

/-- What a lexer answers when it is asked for one character after the other, until it answers the
end of the input. -/
def drain (l : Lexer) : List (Except Fault (Char × Position)) :=
  match _h : l.read with
  | (.error fault, m) => if _hf : fault = .endOfInput then [] else .error fault :: m.drain
  | (.ok found, m) => .ok found :: m.drain
termination_by l.size
decreasing_by
  · have hprogress := progress_read l
    rw [_h] at hprogress
    exact hprogress.lt fun hended => _hf (Except.error.inj hended)
  · exact size_lt_of_read_ok _h

variable {l m : Lexer} {c : Char}

/-- At the end of the input nothing more is answered. -/
theorem drain_of_read_end (h : l.read = (.error .endOfInput, m)) : l.drain = [] := by
  rw [drain.eq_def, h]
  rfl

/-- A stray byte is answered with a fault, and reading goes on behind it. -/
theorem drain_of_read_invalidEncoding {p : Position}
    (h : l.read = (.error (.invalidEncoding p), m)) :
    l.drain = .error (.invalidEncoding p) :: m.drain := by
  rw [drain.eq_def, h]
  exact dif_neg (by simp)

/-- A character is answered, and reading goes on behind it. -/
theorem drain_of_read_ok {found : Char × Position} (h : l.read = (.ok found, m)) :
    l.drain = .ok found :: m.drain := by
  rw [drain.eq_def, h]

/-- Answers from which bytes can be restored, where reading starts at the given position.  A
character stands for its encoding, and a fault for a byte at which no encoding starts. -/
inductive Restores : Position → Bytes → List (Except Fault (Char × Position)) → Prop
  | nil {p : Position} : Restores p [] []
  | char {p : Position} {c : Char} {rest : Bytes} {later : List (Except Fault (Char × Position))} :
      Utf8.WellFormed (String.utf8EncodeChar c) c.toNat → Restores (p.advance c) rest later →
      Restores p (String.utf8EncodeChar c ++ rest) (.ok (c, p) :: later)
  | stray {p : Position} {b : UInt8} {rest : Bytes}
      {later : List (Except Fault (Char × Position))} :
      ¬Utf8.StartsWellFormed (b :: rest) → Restores p rest later →
      Restores p (b :: rest) (.error (.invalidEncoding p) :: later)

/-- Reading is determined by the view. -/
theorem read_of_view_eq {v : View} (h : l.view = v) :
    ∃ m, l.read = (v.read.1, m) ∧ m.view = v.read.2 := by
  have hread := view_read l
  rw [h] at hread
  obtain ⟨hanswer, hafter⟩ := Prod.mk.inj hread
  exact ⟨l.read.2, Prod.ext hanswer rfl, hafter⟩

/-- A lexer that has nothing but bytes ahead of it reads them without loss. -/
theorem restores_drain {bytes : Bytes} {p : Position}
    (h : l.view = ⟨Input.bytesReadings bytes, p⟩) : Restores p bytes l.drain := by
  -- one piece of the bytes after the other, a character or a stray byte
  induction hlength : bytes.length using Nat.strongRecOn generalizing bytes l p with
  | ind length ih =>
    cases bytes with
    | nil =>
      rw [Input.bytesReadings_nil] at h
      obtain ⟨m, hread, -⟩ := read_of_view_eq h
      rw [drain_of_read_end hread]
      exact .nil
    | cons b rest =>
      rw [Input.bytesReadings_cons, Utf8.first] at h
      cases hdecode : Utf8.decode? (b :: rest) with
      | none =>
        rw [hdecode] at h
        obtain ⟨m, hread, hafter⟩ := read_of_view_eq h
        rw [drain_of_read_invalidEncoding hread]
        rw [List.length_cons] at hlength
        have hrest := ih rest.length (by omega) hafter rfl
        exact .stray (Utf8.not_startsWellFormed_of_decode? hdecode) hrest
      | some found =>
        obtain ⟨c, after⟩ := found
        rw [hdecode] at h
        obtain ⟨m, hread, hafter⟩ := read_of_view_eq h
        rw [drain_of_read_ok hread, Utf8.decode?_eq_some_iff.mp hdecode]
        have hlt := Utf8.length_lt_of_decode? hdecode
        have hrest := ih after.length (by omega) hafter rfl
        exact .char (Utf8.wellFormed_utf8EncodeChar c) hrest

/-! ## Looking ahead -/

/-- A lexer that has looked at a character sees it again. -/
theorem peek_of_peek (h : l.peek = (.ok c, m)) : m.peek = (.ok c, m) := by
  rw [peek, (lookahead_and_size_of_peek_ok h).1]

/-- Behind a look the same character is read. -/
theorem read_of_peek (h : l.peek = (.ok c, m)) : m.read = l.read := by
  rw [read, read, h, peek_of_peek h]

/-- Behind a look the same token is found. -/
theorem next_of_peek (h : l.peek = (.ok c, m)) : m.next = l.next := by
  rw [next_eq m, next_eq l, nextRound, nextRound, read_of_peek h]

/-- Behind a look the same tokens are collected. -/
theorem tokenize_of_peek (h : l.peek = (.ok c, m)) : m.tokenize = l.tokenize := by
  rw [collects_tokenize.unroll m, collects_tokenize.unroll l, tokenStep, tokenStep, next_of_peek h]

/-- That a character has been looked at changes no answer, and no lexer after it. -/
theorem serve_of_peek (h : l.peek = (.ok c, m)) (request : Request) :
    m.serve request = l.serve request := by
  cases request with
  | next => rw [serve, serve, next_of_peek h]
  | tokenize => rw [serve, serve, tokenize_of_peek h]
  | peek => rw [serve, serve, h, peek_of_peek h]
  | read => rw [serve, serve, read_of_peek h]

/-- Behind a look that found a character, reading finds it too. -/
theorem read_behind_peek (h : l.peek = (.ok c, m)) : m.read.1 = .ok (c, l.position) := by
  have hposition : m.position = l.position := by
    rw [peek] at h
    split at h
    · rw [(Prod.mk.inj h).2]
    · split at h
      · rw [← (Prod.mk.inj h).2]
      · cases h
      · cases h
  rw [read, peek_of_peek h, ← hposition]

/-- Looking at a character can be left out of a run, and with it only its own answer. -/
theorem transcript_erase_peek {earlier : List Request} (h : (l.served earlier).peek.1 = .ok c)
    (later : List Request) :
    (l.transcript (earlier ++ .peek :: later)).eraseIdx earlier.length =
      l.transcript (earlier ++ later) := by
  have hpeek : (l.served earlier).peek = (.ok c, (l.served earlier).peek.2) := Prod.ext h rfl
  have hserve (request : Request) : ((l.served earlier).serve .peek).2.serve request =
      (l.served earlier).serve request := serve_of_peek hpeek request
  exact Requests.transcript_erase hserve later

end Lexer

/-- **Characters are read without loss, and looking ahead is not seen.**  A lexer over bytes, in
memory or in pieces of which fewer than a hundred in a row are empty, is asked for characters until
it answers the end: the characters are those whose encodings are there, every other answer is the
fault of a byte at which no well-formed encoding starts, and together they give back the bytes.
Over any source and in any sequence of requests, a look that was answered with a character can be
left out without a change to another answer or to the position and lookahead after it.  So reading
behind such a look, as it is done for every character of a word, does not fail and answers the
character that was seen. -/
theorem reading_lossless_peeking_unseen (bytes : Bytes) (chunks : List Bytes) (input : Input)
    (earlier later : List Lexer.Request) :
    Lexer.Restores .start bytes (Lexer.ofInput (.memory bytes)).drain ∧
    (Delivery.Steady (chunks.map .bytes) → Lexer.Restores .start chunks.flatten
      (Lexer.ofInput (.ofDeliveries (chunks.map .bytes))).drain) ∧
    (∀ c, ((Lexer.ofInput input).served earlier).peek.1 = .ok c →
      ((Lexer.ofInput input).transcript (earlier ++ .peek :: later)).eraseIdx earlier.length =
        (Lexer.ofInput input).transcript (earlier ++ later)) ∧
    ∀ (l m : Lexer) (c : Char), l.peek = (.ok c, m) →
      m.read = l.read ∧ m.read.1 = .ok (c, l.position) := by
  refine ⟨Lexer.restores_drain rfl, fun hsteady => ?_,
    fun c h => Lexer.transcript_erase_peek h later, ?_⟩
  · apply Lexer.restores_drain
    exact congrArg (Lexer.View.mk · .start) (Input.readings_ofDeliveries_bytes hsteady)
  · intro l m c h
    exact ⟨Lexer.read_of_peek h, Lexer.read_behind_peek h⟩

end LetExit
