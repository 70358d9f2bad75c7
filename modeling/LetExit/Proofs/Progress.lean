import LetExit.Proofs.Lookahead
import LetExit.Proofs.Recovery

/-!
# Reading makes progress

What is left to read is counted by `Lexer.unread`: the bytes that are not decoded yet, the character
in the lookahead, and the interruptions that are not handed on yet.  A call may answer a token, a
fault or an end, and whatever it answers, less is left after it; only the final end of the source
can be asked for without an effect.  This is `Progress`, from one reading of the source up to a
whole program.  So no fault is reported for ever, and the answers up to the final end are no more
than the bytes and interruptions of the source.

There is one exception.  A source that delivers nothing for too long is given up with a failure that
is not among its deliveries, so that the call which reports it consumes nothing.  `Lexer.size`
counts these failures too, and every call makes progress in it.  Over a source that does not stall,
both counts are the same (`Lexer.size_eq_unread`), and no call makes it stall
(`Lexer.tracks_steady`, `Parser.tracks_steady`).
-/

set_option autoImplicit false

namespace LetExit

/-! ## What is left to read -/

/-- A call leaves less to read than there was, or there was nothing left and the end is reported. -/
def Progress (before after : Nat) (ended : Prop) : Prop :=
  after < before ∨ before = 0 ∧ after = 0 ∧ ended

/-- A call never leaves more to read than there was. -/
theorem Progress.le {before after : Nat} {ended : Prop} (h : Progress before after ended) :
    after ≤ before := by
  unfold Progress at h
  omega

/-- That the end is reported may be said in a weaker way. -/
theorem Progress.imp {before after : Nat} {ended ended' : Prop} (h : Progress before after ended)
    (himp : ended → ended') : Progress before after ended' :=
  Or.imp_right (And.imp_right (And.imp_right himp)) h

/-- A call that does not report the end leaves less to read. -/
theorem Progress.lt {before after : Nat} {ended : Prop} (h : Progress before after ended)
    (hended : ¬ended) : after < before :=
  h.resolve_right fun hright => hended hright.2.2

namespace Delivery

/-- The bytes of a delivery. -/
def content : Delivery → Bytes
  | .bytes content => content
  | .interruption _ => []

end Delivery

namespace Input

/-- The bytes not yet read and the interruptions not yet handed on, of those that are delivered. -/
def unread : Input → Nat
  | .memory rest => rest.length
  | .feed buffer pending deliveries =>
    buffer.length + pending.toList.length + deliveriesSize deliveries

/-- The source will not stall. -/
def Steady : Input → Prop
  | .memory _ => True
  | .feed _ _ deliveries => Delivery.Steady deliveries

/-- Over a source that will not stall, nothing is left to read but what is delivered. -/
theorem size_eq_unread {input : Input} (h : input.Steady) : input.size = input.unread := by
  cases input with
  | memory rest => rfl
  | feed buffer pending deliveries => rw [size, unread, Delivery.heeded_of_steady h]

/-- Refilling leaves deliveries from the end of those that there were. -/
theorem refill_suffix (buffer : Bytes) (idle : Nat) (deliveries : List Delivery) :
    (refill buffer idle deliveries).2.2 <:+ deliveries := by
  induction deliveries generalizing buffer idle with
  | nil => exact List.suffix_refl []
  | cons delivery later ih =>
    simp only [refill]
    split
    · exact List.suffix_refl _
    · rcases delivery.heed idle with ⟨content | cause, next⟩
      · exact (ih (buffer ++ content) next).trans (List.suffix_cons delivery later)
      · exact List.suffix_cons delivery later

/-- Reading from what has arrived takes no further delivery. -/
theorem steady_readArrived {buffer : Bytes} {pending : Option Interruption}
    {later : List Delivery} (h : Delivery.Steady later) :
    (readArrived (buffer, pending, later)).2.Steady := by
  cases buffer <;> exact h

/-- A source that will not stall will not do so after a reading either. -/
theorem steady_read {input : Input} (h : input.Steady) : input.read.2.Steady := by
  cases input with
  | memory rest => cases rest <;> trivial
  | feed buffer pending deliveries =>
    cases pending with
    | some cause => exact steady_readArrived h
    | none => exact steady_readArrived (h.of_suffix (refill_suffix buffer 0 deliveries))

/-- Reading from what has arrived makes progress. -/
theorem progress_readArrived {buffer : Bytes} {pending : Option Interruption}
    {later : List Delivery} (h : Arrived buffer pending later) :
    Progress (Input.feed buffer pending later).size (readArrived (buffer, pending, later)).2.size
      ((readArrived (buffer, pending, later)).1 = .interrupted .ended) := by
  cases buffer with
  | cons b rest =>
    have hle := Utf8.length_first_le b rest
    left
    simp only [readArrived, size, List.length_cons]
    omega
  | nil =>
    cases pending with
    | some cause =>
      left
      simp [readArrived, size]
    | none =>
      -- an empty buffer is not settled, so there are no deliveries to come
      have hlater : later = [] := (h rfl).resolve_left (by simp [Utf8.isSettled])
      subst hlater
      exact .inr ⟨rfl, rfl, rfl⟩

/-- A source hands over a character, a stray byte or an interruption, until nothing is left. -/
theorem progress_read (input : Input) :
    Progress input.size input.read.2.size (input.read.1 = .interrupted .ended) := by
  cases input with
  | memory rest =>
    cases rest with
    | nil => exact .inr ⟨rfl, rfl, rfl⟩
    | cons b rest =>
      have hle := Utf8.length_first_le b rest
      left
      simp only [read, size, List.length_cons]
      omega
  | feed buffer pending deliveries =>
    cases pending with
    | some cause =>
      apply progress_readArrived
      intro h
      cases h
    | none =>
      have h := progress_readArrived (arrived_refill buffer 0 deliveries)
      rwa [size_refill] at h

end Input

/-! ## The calls of a lexer -/

namespace Lexer

variable {l m : Lexer} {fault : Fault}

/-- A fault that is found ahead has been consumed. -/
theorem progress_of_peek_error (h : l.peek = (.error fault, m)) :
    Progress l.size m.size (fault = .endOfInput) := by
  obtain ⟨input, lookahead, position⟩ := l
  cases lookahead with
  | some c => cases h
  | none =>
    have hread := Input.progress_read input
    rw [peek] at h
    rcases hinput : input.read with ⟨reading, rest⟩
    rw [hinput] at h hread
    cases reading with
    | char c => cases h
    | malformed =>
      cases h
      exact hread.imp fun hended => by cases hended
    | interrupted cause =>
      cases h
      exact hread.imp fun hended => by rw [Reading.interrupted.inj hended]; rfl

/-- Looking at a character does not make a lexer larger. -/
theorem size_peek_le (l : Lexer) : l.peek.2.size ≤ l.size := by
  rcases h : l.peek with ⟨fault | c, m⟩
  · exact (progress_of_peek_error h).le
  · exact (lookahead_and_size_of_peek_ok h).2

/-- Consuming a character makes progress. -/
theorem progress_read (l : Lexer) :
    Progress l.size l.read.2.size (l.read.1 = .error .endOfInput) := by
  rcases h : l.peek with ⟨fault | c, m⟩
  · have hread : l.read = (.error fault, m) := by rw [read, h]
    rw [hread]
    exact (progress_of_peek_error h).imp (congrArg _)
  · rcases hread : l.read with ⟨fault | ⟨d, p⟩, after⟩
    · rw [read, h] at hread
      cases hread
    · exact .inl (size_lt_of_read_ok hread)

/-- A relation between a lexer and the lexer after requests, which holds of looking at a character
and of consuming one and can be put together. -/
structure Tracks (r : Lexer → Lexer → Prop) : Prop where
  refl : ∀ l, r l l
  trans : ∀ {l m n : Lexer}, r l m → r m n → r l n
  peek : ∀ l : Lexer, r l l.peek.2
  read : ∀ l : Lexer, r l l.read.2

namespace Tracks

variable {r : Lexer → Lexer → Prop} (h : Tracks r)

include h

/-- A relation that tracks holds across a step within a word. -/
theorem wordStep (l : Lexer) : r l l.wordStep.2 := by
  have hpeek := h.peek l
  rw [Lexer.wordStep]
  generalize l.peek = ahead at hpeek ⊢
  obtain ⟨fault | c, m⟩ := ahead
  · cases fault <;> exact hpeek
  · dsimp only
    split
    · exact hpeek
    · exact h.trans hpeek (h.read m)

/-- A relation that tracks holds across the token that a character starts. -/
theorem startToken (l : Lexer) (c : Char) (position : Position) :
    r l (l.startToken c position).2 := by
  have htake : r l l.takeWord.2 := collects_takeWord.keeps (r := r) h.trans h.wordStep l
  rw [Lexer.startToken]
  cases Token.Kind.ofSymbol? c with
  | some kind => exact h.refl l
  | none =>
    dsimp only
    split
    · exact h.refl l
    · generalize l.takeWord = taken at htake ⊢
      obtain ⟨_ | _, m⟩ := taken <;> exact htake

/-- A relation that tracks holds across the search for a token. -/
theorem next (l : Lexer) : r l l.next.2 := by
  fun_induction Lexer.next l with
  | case1 l m hround ih =>
    obtain ⟨c, p, hread, -⟩ := nextRound_eq_inl_iff.mp hround
    have hfirst := h.read l
    rw [hread] at hfirst
    exact h.trans hfirst ih
  | case2 l answer hround =>
    have hfirst := h.read l
    obtain ⟨fault, m, hread, rfl⟩ | ⟨c, p, m, hread, -, rfl⟩ := nextRound_eq_inr_cases hround
    · rwa [hread] at hfirst
    · rw [hread] at hfirst
      exact h.trans hfirst (h.startToken m c p)

/-- A relation that tracks holds across the collection of all tokens. -/
theorem tokenize (l : Lexer) : r l l.tokenize.2 := by
  refine collects_tokenize.keeps (r := r) h.trans (fun m => ?_) l
  have hnext := h.next m
  rw [tokenStep]
  generalize m.next = found at hnext ⊢
  obtain ⟨fault | token, n⟩ := found
  · cases fault <;> exact hnext
  · exact hnext

/-- A relation that tracks holds across every request. -/
theorem serve (l : Lexer) (request : Request) : r l (l.serve request).2 := by
  cases request with
  | next => exact h.next l
  | tokenize => exact h.tokenize l
  | peek => exact h.peek l
  | read => exact h.read l

/-- A relation that tracks holds across any number of requests. -/
theorem served (l : Lexer) (requests : List Request) : r l (l.served requests) :=
  Requests.served_of_step (fun m request hm => h.trans hm (h.serve m request)) (h.refl l) requests

end Tracks

/-- No call leaves more to read than it found. -/
theorem tracks_size : Tracks fun l m => m.size ≤ l.size where
  refl _ := Nat.le_refl _
  trans hfirst hlater := Nat.le_trans hlater hfirst
  peek := size_peek_le
  read l := (progress_read l).le

/-- Looking at a character does not make a source stall that will not. -/
theorem steady_peek (h : l.input.Steady) : l.peek.2.input.Steady := by
  obtain ⟨input, lookahead, position⟩ := l
  cases lookahead with
  | some c => exact h
  | none =>
    have hread := Input.steady_read h
    rw [peek]
    dsimp only at hread ⊢
    generalize input.read = taken at hread ⊢
    obtain ⟨_ | _ | _, rest⟩ := taken <;> exact hread

/-- No call makes a source stall that will not. -/
theorem tracks_steady : Tracks fun l m => l.input.Steady → m.input.Steady where
  refl _ := id
  trans hfirst hlater h := hlater (hfirst h)
  peek _ := steady_peek
  read l h := by
    have hpeek := steady_peek h
    rw [read]
    generalize l.peek = ahead at hpeek ⊢
    obtain ⟨_ | _, m⟩ := ahead <;> exact hpeek

/-- The bytes and interruptions that are left, and the character in the lookahead. -/
def unread (l : Lexer) : Nat :=
  l.input.unread + l.lookahead.toList.length

/-- Over a source that will not stall, nothing is left to read but what is delivered. -/
theorem size_eq_unread (h : l.input.Steady) : l.size = l.unread := by
  rw [size, unread, Input.size_eq_unread h]

/-- A request for a token consumes something, also if it is answered with a fault or an end. -/
theorem progress_next (l : Lexer) :
    Progress l.size l.next.2.size (l.next.1 = .error .endOfInput) := by
  fun_induction next l with
  | case1 l m hround ih => exact .inl (Nat.lt_of_le_of_lt ih.le (size_lt_of_nextRound hround))
  | case2 l answer hround =>
    obtain ⟨fault, m, hread, rfl⟩ | ⟨c, p, m, hread, -, rfl⟩ := nextRound_eq_inr_cases hround
    · have h := progress_read l
      rw [hread] at h
      exact h.imp fun hended => congrArg Except.error (Except.error.inj hended)
    · have hle := tracks_size.startToken m c p
      exact .inl (Nat.lt_of_le_of_lt hle (size_lt_of_read_ok hread))

end Lexer

/-! ## The calls of a parser -/

namespace TokenStream

/-- The source of the tokens will not stall. -/
def Steady : TokenStream → Prop
  | .lexer l => l.input.Steady
  | .answers _ => True

/-- What is left of the source of the tokens, or the answers that are left. -/
def unread : TokenStream → Nat
  | .lexer l => l.unread
  | .answers list => list.length

/-- Over a source that will not stall, nothing is left to read but what is delivered. -/
theorem size_eq_unread {s : TokenStream} (h : s.Steady) : s.size = s.unread := by
  cases s with
  | lexer l => exact Lexer.size_eq_unread h
  | answers list => rfl

/-- Asking for a token does not make a source stall that will not. -/
theorem steady_next {s : TokenStream} (h : s.Steady) : s.next.2.Steady := by
  cases s with
  | lexer l => exact Lexer.tracks_steady.next l h
  | answers list => cases list <;> trivial

/-- A stream gives up something at every request, until nothing is left. -/
theorem progress_next (s : TokenStream) :
    Progress s.size s.next.2.size (s.next.1 = .error .endOfInput) := by
  cases s with
  | lexer l => exact l.progress_next
  | answers list =>
    cases list with
    | nil => exact .inr ⟨rfl, rfl, rfl⟩
    | cons answer later => exact .inl (Nat.lt_succ_self _)

end TokenStream

namespace Parser

variable {p q : Parser} {fault : Fault}

/-- A look that fails makes progress. -/
theorem progress_of_run_peek_error (h : run peek p = (.error fault, q)) :
    Progress p.size q.size (fault = .endOfInput) := by
  obtain ⟨s, peeked, declared, pulled⟩ := p
  cases peeked with
  | some token => cases h
  | none =>
    have hstream := s.progress_next
    rcases hs : s.next with ⟨found | token, after⟩
    · rw [run_peek_of_error hs] at h
      cases h
      rw [hs] at hstream
      exact hstream.imp Except.error.inj
    · rw [run_peek_of_ok hs] at h
      cases h

/-- Looking ahead does not make a parser larger. -/
theorem size_run_peek_le (p : Parser) : (run peek p).2.size ≤ p.size := by
  rcases h : run peek p with ⟨fault | token, q⟩
  · exact (progress_of_run_peek_error h).le
  · exact keeps_peek _ _ _ h

/-- Consuming a token does not make a parser larger. -/
theorem size_run_next_le (p : Parser) : (run next p).2.size ≤ p.size := by
  rcases h : run next p with ⟨fault | token, q⟩
  · have hpeek := size_run_peek_le p
    rw [next, run_of] at h
    rcases hp : run peek p with ⟨found | token, r⟩
    · rw [hp] at h hpeek
      cases found <;> cases h <;> exact hpeek
    · rw [hp] at h
      cases h
  · exact Nat.le_of_lt (consumes_next _ _ _ h)

/-- No call leaves more to read than it found, whether it succeeds or not. -/
theorem tracks_size : Tracks fun p _ q => q.size ≤ p.size where
  refl _ := Nat.le_refl _
  trans hfirst hlater := Nat.le_trans hlater hfirst
  peek := size_run_peek_le
  next := size_run_next_le
  declare _ _ _ := Nat.le_refl _
  bind p _ h := by
    obtain ⟨d, hd⟩ := exists_run_bindStatement_snd_eq p
    rw [hd]
    exact h
  close _ _ _ _ h := h

/-- Looking ahead does not make a source stall that will not. -/
theorem steady_run_peek (h : p.stream.Steady) : (run peek p).2.stream.Steady := by
  obtain ⟨s, peeked, declared, pulled⟩ := p
  cases peeked with
  | some token => exact h
  | none =>
    have hnext := TokenStream.steady_next h
    rcases hs : s.next with ⟨fault | token, after⟩
    · rw [run_peek_of_error hs]
      rwa [hs] at hnext
    · rw [run_peek_of_ok hs]
      rwa [hs] at hnext

/-- No call makes a source stall that will not. -/
theorem tracks_steady : Tracks fun p _ q => p.stream.Steady → q.stream.Steady where
  refl _ := id
  trans hfirst hlater h := hlater (hfirst h)
  peek _ := steady_run_peek
  next p h := by
    have hpeek := steady_run_peek h
    rw [run_next_eq]
    generalize run peek p = ahead at hpeek ⊢
    obtain ⟨_ | _, q⟩ := ahead <;> exact hpeek
  declare _ _ _ := id
  bind p _ h := by
    obtain ⟨d, hd⟩ := exists_run_bindStatement_snd_eq p
    rw [hd]
    exact h
  close _ _ _ _ h := h

/-- What is left of the source of the tokens, and the token in the lookahead. -/
def unread (p : Parser) : Nat :=
  p.stream.unread + p.peeked.toList.length

/-- Over a source that will not stall, nothing is left to read but what is delivered. -/
theorem size_eq_unread (h : p.stream.Steady) : p.size = p.unread := by
  rw [size, unread, TokenStream.size_eq_unread h]

end Parser

end LetExit
