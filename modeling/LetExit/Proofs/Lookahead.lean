import LetExit.Proofs.Calls
import LetExit.Proofs.TokenList

/-!
# Lookahead

A parser pulls elements from its stream, which are tokens and faults, and keeps at most one token
that it has not consumed yet.  Whatever it is asked for, no token is lost, repeated or put in
another place (`Parser.Takes`).  A fault is never kept.  It ends the call that pulled it
(`Elements.EndsCall`), and parsers that have met different faults at the same places go on in the
same way (`Parser.SameTokens`).  A token that has only been looked at is found again by every
request, so looking ahead can be left out (`Parser.serve_of_run_peek`).

`Parser.Heeds` says of a step how it treats faults.  Like the steps themselves it is put together
from the consumption of single tokens (`Parser.Heeds.bind`).
-/

set_option autoImplicit false

namespace LetExit

/-- What has been pulled from a stream, in order. -/
abbrev Elements := List (Except Fault Token)

namespace Elements

/-- The tokens among the elements. -/
def tokens (elements : Elements) : List Token :=
  elements.filterMap Except.toOption

/-- The elements with the causes of the faults left out. -/
def causeless (elements : Elements) : List (Option Token) :=
  elements.map Except.toOption

/-- The elements of a call: all of them are tokens, or a fault is the last one and ends the call in
the way that is given. -/
def EndsCall (elements : Elements) (ended : Fault → Prop) : Prop :=
  ∃ ts : List Token, elements = ts.map .ok ∨
    ∃ fault, elements = ts.map .ok ++ [.error fault] ∧ ended fault

variable {elements later : Elements} {ended : Fault → Prop}

/-- The tokens among elements, in order. -/
theorem tokens_append (earlier later : Elements) :
    tokens (earlier ++ later) = earlier.tokens ++ later.tokens :=
  List.filterMap_append

/-- Leaving out the causes goes element by element. -/
theorem causeless_append (earlier later : Elements) :
    causeless (earlier ++ later) = earlier.causeless ++ later.causeless :=
  List.map_append

/-- A call that pulls nothing is ended by no fault. -/
theorem EndsCall.nil : EndsCall [] ended :=
  ⟨[], .inl rfl⟩

/-- How a call was ended may be said in a weaker way. -/
theorem EndsCall.imp {ended' : Fault → Prop} (h : EndsCall elements ended)
    (himp : ∀ fault, ended fault → ended' fault) : EndsCall elements ended' := by
  obtain ⟨ts, hts | ⟨fault, hts, hended⟩⟩ := h
  · exact ⟨ts, .inl hts⟩
  · exact ⟨ts, .inr ⟨fault, hts, himp fault hended⟩⟩

/-- A call that no fault ended has pulled tokens only. -/
theorem EndsCall.exists_tokens (h : EndsCall elements ended) (hnot : ∀ fault, ¬ended fault) :
    ∃ ts : List Token, elements = ts.map .ok := by
  obtain ⟨ts, hts | ⟨fault, -, hended⟩⟩ := h
  · exact ⟨ts, hts⟩
  · exact absurd hended (hnot fault)

/-- Tokens in front do not change how a call ends. -/
theorem EndsCall.append_tokens {ts : List Token} (h : EndsCall later ended) :
    EndsCall (ts.map .ok ++ later) ended := by
  obtain ⟨us, hus | ⟨fault, hus, hended⟩⟩ := h
  · exact ⟨ts ++ us, .inl (by rw [hus, List.map_append])⟩
  · refine ⟨ts ++ us, .inr ⟨fault, ?_, hended⟩⟩
    rw [hus, List.map_append, List.append_assoc]

/-- Elements of the same kinds are equal part by part if they are equal as a whole. -/
theorem eq_and_eq_of_append_eq {earlier' later' : Elements} {earlier : Elements}
    (hcauseless : earlier'.causeless = earlier.causeless)
    (h : earlier' ++ later' = earlier ++ later) : earlier' = earlier ∧ later' = later := by
  apply List.append_inj h
  have hlength := congrArg List.length hcauseless
  simpa [causeless] using hlength

end Elements

namespace TokenStream

/-- The first elements of a stream. -/
def first (s : TokenStream) : Nat → Elements
  | 0 => []
  | n + 1 => s.next.1 :: s.next.2.first n

/-- The stream behind its first elements. -/
def rest (s : TokenStream) : Nat → TokenStream
  | 0 => s
  | n + 1 => s.next.2.rest n

/-- The first elements, cut in two. -/
theorem first_add (s : TokenStream) (m n : Nat) :
    s.first (m + n) = s.first m ++ (s.rest m).first n := by
  induction m generalizing s with
  | zero => rw [Nat.zero_add, first, List.nil_append, rest]
  | succ m ih => rw [Nat.succ_add, first, first, rest, ih, List.cons_append]

/-- What is behind the first elements, reached in two parts. -/
theorem rest_add (s : TokenStream) (m n : Nat) : s.rest (m + n) = (s.rest m).rest n := by
  induction m generalizing s with
  | zero => rw [Nat.zero_add, rest]
  | succ m ih => rw [Nat.succ_add, rest, rest, ih]

/-- The streams give the same tokens, and faults at the same places, whose causes may differ. -/
def SameTokens (s t : TokenStream) : Prop :=
  ∀ n, (t.answer n).toOption = (s.answer n).toOption

/-- Behind the first element the streams still give the same tokens. -/
theorem SameTokens.rest {s t : TokenStream} (h : s.SameTokens t) :
    s.next.2.SameTokens t.next.2 :=
  fun n => h (n + 1)

/-- Where one stream gives a token, the other gives it too. -/
theorem SameTokens.next_ok {s t : TokenStream} (h : s.SameTokens t) {token : Token}
    {after : TokenStream} (hs : s.next = (.ok token, after)) :
    ∃ after', t.next = (.ok token, after') ∧ after.SameTokens after' := by
  have hzero : t.next.1.toOption = s.next.1.toOption := h 0
  have hrest := h.rest
  rw [hs] at hzero hrest
  rcases ht : t.next with ⟨_ | token', after'⟩
  · rw [ht] at hzero
    cases hzero
  · rw [ht] at hzero hrest
    cases hzero
    exact ⟨after', rfl, hrest⟩

/-- Where one stream gives a fault, the other gives one too. -/
theorem SameTokens.next_error {s t : TokenStream} (h : s.SameTokens t) {fault : Fault}
    {after : TokenStream} (hs : s.next = (.error fault, after)) :
    ∃ fault' after', t.next = (.error fault', after') ∧ after.SameTokens after' := by
  have hzero : t.next.1.toOption = s.next.1.toOption := h 0
  have hrest := h.rest
  rw [hs] at hzero hrest
  rcases ht : t.next with ⟨fault' | _, after'⟩
  · rw [ht] at hrest
    exact ⟨fault', after', rfl, hrest⟩
  · rw [ht] at hzero
    cases hzero

end TokenStream

namespace Parser

/-- The element that a call pulls from the stream, which happens when it looks ahead and no token is
there. -/
def Call.pull? (c : Call) : Option (Except Fault Token) :=
  match c.request, c.before.peeked with
  | .peek, none => some c.before.stream.next.1
  | _, _ => none

/-- The token that a call consumes. -/
def Call.consumed? (c : Call) : Option Token :=
  match c.request, c.reply with
  | .next, .token (.ok token) => some token
  | _, _ => none

/-- All elements that are pulled by calls. -/
def pulls (calls : List Call) : Elements :=
  calls.filterMap Call.pull?

/-- All tokens that are consumed by calls. -/
def consumed (calls : List Call) : List Token :=
  calls.filterMap Call.consumed?

/-- What is pulled by calls, in order. -/
theorem pulls_append (earlier later : List Call) :
    pulls (earlier ++ later) = pulls earlier ++ pulls later :=
  List.filterMap_append

/-- What is consumed by calls, in order. -/
theorem consumed_append (earlier later : List Call) :
    consumed (earlier ++ later) = consumed earlier ++ consumed later :=
  List.filterMap_append

section Ahead

variable {s after : TokenStream} {d : Declarations} {n : Nat} {token : Token} {fault : Fault}

/-- A token that is pulled becomes the lookahead and is counted. -/
theorem run_peek_of_ok (h : s.next = (.ok token, after)) :
    run peek ⟨s, none, d, n⟩ = (.ok token, ⟨after, some token, d, n + 1⟩) := by
  simp only [peek, run_of, h]

/-- A fault that is pulled is answered and not kept. -/
theorem run_peek_of_error (h : s.next = (.error fault, after)) :
    run peek ⟨s, none, d, n⟩ = (.error fault, ⟨after, none, d, n⟩) := by
  simp only [peek, run_of, h]

/-- Looking ahead without a token there pulls one element. -/
theorem pulls_peek (s : TokenStream) (d : Declarations) (n : Nat) :
    pulls [⟨.peek, ⟨s, none, d, n⟩⟩] = [s.next.1] :=
  rfl

/-- Consuming a token pulls what looking at it pulls. -/
theorem pulls_nextCalls (p : Parser) : pulls (nextCalls p) = pulls [⟨.peek, p⟩] :=
  rfl

/-- A token is consumed by looking at it and taking it away. -/
theorem run_next_eq (p : Parser) :
    run next p =
      match run peek p with
      | (.ok token, q) => (.ok token, { q with peeked := none })
      | (.error fault, q) => (.error fault.whereRequired, q) := by
  simp only [next, run_of]
  rcases run peek p with ⟨fault | token, q⟩
  · cases fault <;> rfl
  · rfl

end Ahead

/-! ## Tokens are neither lost nor repeated -/

/-- What a run takes from the stream: its elements one after the other, and their tokens are
consumed in the same order, up to one that is still ahead. -/
structure Takes (p : Parser) (calls : List Call) (q : Parser) : Prop where
  elements : pulls calls = p.stream.first (pulls calls).length
  stream : q.stream = p.stream.rest (pulls calls).length
  tokens : consumed calls ++ q.peeked.toList = p.peeked.toList ++ (pulls calls).tokens
  pulled : q.pulled = p.pulled + (pulls calls).tokens.length

namespace Takes

variable {p q r : Parser} {earlier later calls : List Call}

/-- Without calls nothing is taken. -/
theorem refl (p : Parser) : Takes p [] p where
  elements := rfl
  stream := rfl
  tokens := (List.append_nil _).symm
  pulled := rfl

/-- What two runs take one after the other is what both take together. -/
theorem trans (h : Takes p earlier q) (h' : Takes q later r) : Takes p (earlier ++ later) r where
  elements := by
    rw [pulls_append, List.length_append, TokenStream.first_add, ← h.stream, ← h.elements,
      ← h'.elements]
  stream := by
    rw [pulls_append, List.length_append, TokenStream.rest_add, ← h.stream, ← h'.stream]
  tokens := by
    rw [consumed_append, pulls_append, Elements.tokens_append, List.append_assoc, h'.tokens,
      ← List.append_assoc, h.tokens, List.append_assoc]
  pulled := by
    rw [pulls_append, Elements.tokens_append, List.length_append, h'.pulled, h.pulled,
      Nat.add_assoc]

/-- A call that touches the tokens only through other calls. -/
theorem returned {c : Call} (h : Takes p calls q) (hpull : c.pull? = none)
    (hconsumed : c.consumed? = none) (hstream : r.stream = q.stream) (hpeeked : r.peeked = q.peeked)
    (hpulled : r.pulled = q.pulled) : Takes p (calls ++ [c]) r := by
  have hpulls : pulls (calls ++ [c]) = pulls calls := by simp [pulls, hpull]
  have htokens : consumed (calls ++ [c]) = consumed calls := by simp [consumed, hconsumed]
  constructor
  · rw [hpulls]
    exact h.elements
  · rw [hpulls, hstream]
    exact h.stream
  · rw [hpulls, htokens, hpeeked]
    exact h.tokens
  · rw [hpulls, hpulled]
    exact h.pulled

/-- Looking ahead takes an element if no token is there. -/
theorem peek (p : Parser) : Takes p [⟨.peek, p⟩] (run peek p).2 := by
  obtain ⟨s, _ | token, d, n⟩ := p
  · rcases hs : s.next with ⟨fault | token, after⟩
    · rw [run_peek_of_error hs]
      refine ⟨rfl, (congrArg Prod.snd hs).symm, ?_, ?_⟩ <;> rw [pulls_peek, hs] <;> rfl
    · rw [run_peek_of_ok hs]
      refine ⟨rfl, (congrArg Prod.snd hs).symm, ?_, ?_⟩ <;> rw [pulls_peek, hs] <;> rfl
  · exact ⟨rfl, rfl, rfl, rfl⟩

/-- Consuming a token takes what looking ahead takes. -/
theorem next (p : Parser) : Takes p (nextCalls p) (run next p).2 := by
  have hpeek := peek p
  have hnext := run_next_eq p
  rcases hp : run Parser.peek p with ⟨fault | token, q⟩
  · -- nothing is consumed, and the parser is left as looking ahead did
    rw [hp] at hpeek hnext
    rw [hnext]
    apply returned (c := ⟨.next, p⟩) hpeek rfl _ rfl rfl rfl
    simp only [Call.consumed?, Call.reply, serve, hnext]
  · rw [hp] at hpeek hnext
    have htoken : Call.consumed? ⟨.next, p⟩ = some token := by
      simp only [Call.consumed?, Call.reply, serve, hnext]
    have hconsumed : consumed (nextCalls p) = [token] := by
      rw [consumed, nextCalls, List.filterMap_cons_none rfl, List.filterMap_cons_some htoken,
        List.filterMap_nil]
    have htokens := hpeek.tokens
    rw [peeked_of_run_peek hp] at htokens
    rw [hnext]
    constructor <;> rw [pulls_nextCalls]
    · exact hpeek.elements
    · exact hpeek.stream
    · rw [hconsumed]
      exact htokens
    · exact hpeek.pulled

/-- Completing the name of a binding takes nothing. -/
theorem bind (h : Takes p calls (run openBinding p).2) :
    Takes p (calls ++ [⟨.bind, p⟩]) (run bindStatement p).2 := by
  obtain ⟨d, hd⟩ := exists_run_bindStatement_snd_eq p
  rw [hd]
  exact h.returned (c := ⟨.bind, p⟩) rfl rfl rfl rfl rfl

/-- A call that delegates its work takes nothing itself. -/
theorem close {request : Request} (hrequest : request.Delegates)
    (h : Takes p calls (p.serve request).2) :
    Takes p (calls ++ [⟨request, p⟩]) (p.serve request).2 := by
  refine h.returned (c := ⟨request, p⟩) ?_ ?_ rfl rfl rfl
  · cases request with
    | peek => cases hrequest
    | _ => rfl
  · cases request with
    | next => cases hrequest
    | _ => rfl

/-- Every operation that touches the state takes elements in order. -/
theorem tracks : Tracks Takes where
  refl := refl
  trans := trans
  peek := peek
  next := next
  declare _ _ _ := ⟨rfl, rfl, (List.append_nil _).symm, rfl⟩
  bind _ _ := bind
  close _ _ _ := close

end Takes

/-! ## Faults end calls -/

/-- A reply to a call that was ended by a fault.  The end of the stream is a fault like others,
except between two statements, where it ends a program. -/
def Reply.EndedBy (fault : Fault) : Reply → Prop
  | .ahead answer => answer = .error fault
  | .token answer => answer = .error fault.whereRequired
  | .expr answer => answer = .error fault.whereRequired
  | .statement answer => answer = .error fault.whereRequired
  | .program answer => answer = .error fault.whereRequired ∨
      fault = .endOfInput ∧ ∃ program, answer = .ok program

/-- The parsers are in the same state over streams with the same tokens. -/
structure SameTokens (p q : Parser) : Prop where
  stream : p.stream.SameTokens q.stream
  peeked : q.peeked = p.peeked
  declared : q.declared = p.declared
  pulled : q.pulled = p.pulled

/-- Two parsers that find the same tokens after they have answered, with the elements that they
pulled.  A difference between the answers comes from a fault that was pulled. -/
structure Agree {ρ : Type} (first second : ρ × Parser) (elements elements' : Elements) : Prop where
  after : first.2.SameTokens second.2
  causeless : elements'.causeless = elements.causeless
  answer : elements' = elements → second.1 = first.1

/-- Two answers that agree and are both results or both faults. -/
inductive Together {α : Type} : Except Fault α × Parser → Except Fault α × Parser →
    Elements → Elements → Prop
  | ok {a : α} {p q : Parser} {elements elements' : Elements} : p.SameTokens q →
      elements'.causeless = elements.causeless → Together (.ok a, p) (.ok a, q) elements elements'
  | error {fault fault' : Fault} {p q : Parser} {elements elements' : Elements} : p.SameTokens q →
      elements'.causeless = elements.causeless → (elements' = elements → fault' = fault) →
      Together (.error fault, p) (.error fault', q) elements elements'

section Agree

variable {α ρ ρ' : Type} {elements elements' earlier earlier' : Elements}

/-- Replies agree if the answers in them do. -/
theorem Agree.map {first second : ρ × Parser} (h : Agree first second elements elements')
    (f : ρ → ρ') : Agree (f first.1, first.2) (f second.1, second.2) elements elements' :=
  ⟨h.after, h.causeless, fun heq => congrArg f (h.answer heq)⟩

/-- More elements may have been pulled in front. -/
theorem Agree.append {first second : ρ × Parser} (h : Agree first second elements elements')
    (hearlier : earlier'.causeless = earlier.causeless) :
    Agree first second (earlier ++ elements) (earlier' ++ elements') where
  after := h.after
  causeless := by
    rw [Elements.causeless_append, Elements.causeless_append, hearlier, h.causeless]
  answer heq := h.answer (Elements.eq_and_eq_of_append_eq hearlier heq).2

/-- Answers that are both results or both faults, and found the same tokens, agree. -/
theorem Together.agree {first second : Except Fault α × Parser}
    (h : Together first second elements elements') : Agree first second elements elements' := by
  cases h with
  | ok hafter hcauseless => exact ⟨hafter, hcauseless, fun _ => rfl⟩
  | error hafter hcauseless hfault =>
    exact ⟨hafter, hcauseless, fun heq => congrArg Except.error (hfault heq)⟩

/-- Elements that were pulled before do not count, up to their causes. -/
theorem Together.append {first second : Except Fault α × Parser}
    (h : Together first second elements elements')
    (hearlier : earlier'.causeless = earlier.causeless) :
    Together first second (earlier ++ elements) (earlier' ++ elements') := by
  have hagree := h.agree.append hearlier
  cases h with
  | ok hafter _ => exact .ok hafter hagree.causeless
  | error hafter _ hfault =>
    exact .error hafter hagree.causeless fun heq => Except.error.inj (hagree.answer heq)

end Agree

/-- Looking ahead is ended by a fault, which is not kept. -/
theorem ends_peek (p : Parser) : (pulls [⟨.peek, p⟩]).EndsCall fun fault =>
    (run peek p).1 = .error fault ∧ (run peek p).2.peeked = none := by
  obtain ⟨s, _ | token, d, n⟩ := p
  · rcases hs : s.next with ⟨fault | token, after⟩
    · rw [pulls_peek, run_peek_of_error hs, hs]
      exact ⟨[], .inr ⟨fault, rfl, rfl, rfl⟩⟩
    · rw [pulls_peek, hs]
      exact ⟨[token], .inl rfl⟩
  · exact .nil

/-- A look that is answered with a token has pulled tokens only. -/
theorem tokens_of_run_peek {p q : Parser} {token : Token} (hp : run peek p = (.ok token, q)) :
    ∃ ts : List Token, pulls [⟨.peek, p⟩] = ts.map .ok := by
  apply (ends_peek p).exists_tokens
  rintro fault ⟨herror, -⟩
  rw [hp] at herror
  cases herror

/-- Parsers that find the same tokens look ahead together. -/
theorem together_peek {p q : Parser} (h : p.SameTokens q) :
    Together (run peek p) (run peek q) (pulls [⟨.peek, p⟩]) (pulls [⟨.peek, q⟩]) := by
  obtain ⟨s, peeked, d, n⟩ := p
  obtain ⟨t, peeked', d', n'⟩ := q
  obtain ⟨hstream, hpeeked, hdeclared, hpulled⟩ := h
  dsimp only at hstream hpeeked hdeclared hpulled
  subst hpeeked hdeclared hpulled
  cases peeked' with
  | some token => exact .ok ⟨hstream, rfl, rfl, rfl⟩ rfl
  | none =>
    rcases hs : s.next with ⟨fault | token, after⟩
    · obtain ⟨fault', after', ht, hafter⟩ := hstream.next_error hs
      rw [run_peek_of_error hs, run_peek_of_error ht, pulls_peek, pulls_peek, hs, ht]
      refine .error ⟨hafter, rfl, rfl, rfl⟩ rfl fun heq => ?_
      exact Except.error.inj (List.head_eq_of_cons_eq heq)
    · obtain ⟨after', ht, hafter⟩ := hstream.next_ok hs
      rw [run_peek_of_ok hs, run_peek_of_ok ht, pulls_peek, pulls_peek, hs, ht]
      exact .ok ⟨hafter, rfl, rfl, rfl⟩ rfl

/-- How a step treats faults of the stream: a fault ends it and is not kept, and parsers that find
the same tokens take the same course. -/
structure Heeds {α : Type} (step : Step α) (calls : Parser → List Call) : Prop where
  ends : ∀ p, (pulls (calls p)).EndsCall fun fault =>
    (run step p).1 = .error fault.whereRequired ∧ (run step p).2.peeked = none
  together : ∀ p q, p.SameTokens q →
    Together (run step p) (run step q) (pulls (calls p)) (pulls (calls q))

/-- A step that makes no further calls. -/
theorem andThen_nil {α : Type} (step : Step α) (calls : Parser → List Call) :
    (andThen step calls fun _ _ => []) = calls := by
  funext p
  rw [andThen]
  split <;> exact List.append_nil _

/-- A call pulls elements only through looking ahead. -/
theorem pulls_closed {request : Request} (h : request ≠ .peek) (calls : List Call) (p : Parser) :
    pulls (calls ++ [⟨request, p⟩]) = pulls calls := by
  have hnone : Call.pull? ⟨request, p⟩ = none := by
    cases request with
    | peek => exact absurd rfl h
    | _ => rfl
  rw [pulls_append, pulls, pulls, List.filterMap_cons_none hnone, List.filterMap_nil,
    List.append_nil]

namespace Heeds

variable {α β : Type} {step : Step α} {f : α → Step β} {calls : Parser → List Call}
  {later : α → Parser → List Call}

/-- The call itself pulls nothing more. -/
theorem closed (h : Heeds step calls) (request : Request) (hrequest : request ≠ .peek) :
    Heeds step fun p => calls p ++ [⟨request, p⟩] where
  ends p := by
    rw [pulls_closed hrequest]
    exact h.ends p
  together p q hpq := by
    rw [pulls_closed hrequest, pulls_closed hrequest]
    exact h.together p q hpq

/-- A step that succeeds has pulled tokens only. -/
theorem tokens_of_ok (h : Heeds step calls) {p q : Parser} {a : α}
    (hrun : run step p = (.ok a, q)) : ∃ ts : List Token, pulls (calls p) = ts.map .ok := by
  apply (h.ends p).exists_tokens
  rintro fault ⟨herror, -⟩
  rw [hrun] at herror
  cases herror

/-- Steps that heed faults do so one after the other. -/
theorem bind (h : Heeds step calls) (hf : ∀ a, Heeds (f a) (later a)) :
    Heeds (step >>= f) (andThen step calls later) where
  ends p := by
    have hends := h.ends p
    rcases hrun : run step p with ⟨fault | a, q⟩
    · rw [hrun] at hends
      simp only [andThen, run_bind, hrun, List.append_nil]
      exact hends.imp fun _ hended => ⟨congrArg Except.error (Except.error.inj hended.1), hended.2⟩
    · obtain ⟨ts, hts⟩ := h.tokens_of_ok hrun
      simp only [andThen, run_bind, hrun, pulls_append, hts]
      exact ((hf a).ends q).append_tokens
  together p q hpq := by
    have hfirst := h.together p q hpq
    simp only [andThen, run_bind, pulls_append]
    generalize run step p = first at hfirst ⊢
    generalize run step q = second at hfirst ⊢
    cases hfirst with
    | ok hafter hcauseless => exact ((hf _).together _ _ hafter).append hcauseless
    | error hafter hcauseless hfault =>
      have hnil : pulls [] = [] := rfl
      rw [hnil, List.append_nil, List.append_nil]
      exact .error hafter hcauseless hfault

/-- A step followed by something that pulls nothing. -/
theorem bind_idle (h : Heeds step calls) (hf : ∀ a, Heeds (f a) fun _ => []) :
    Heeds (step >>= f) calls := by
  have hbind := h.bind hf
  rwa [andThen_nil] at hbind

/-- An answer alone pulls nothing. -/
theorem pure (a : α) : Heeds (pure a : Step α) fun _ => [] where
  ends _ := .nil
  together _ _ hpq := .ok hpq rfl

/-- A fault of the parser itself pulls nothing. -/
theorem throw (fault : Fault) : Heeds (throw fault : Step α) fun _ => [] where
  ends _ := .nil
  together _ _ hpq := .error hpq rfl fun _ => rfl

/-- Of the state of a parser, a step may look at the declared names. -/
theorem get_bind {f : Parser → Step α} (hdeclared : ∀ p q, q.declared = p.declared → f q = f p)
    (hf : ∀ p, Heeds (f p) fun _ => []) : Heeds ((get : Step Parser) >>= f) fun _ => [] where
  ends _ := .nil
  together p q hpq := by
    rw [run_bind, run_bind, run_get, run_get]
    dsimp only
    rw [hdeclared p q hpq.declared]
    exact (hf p).together p q hpq

/-- Declaring a name pulls nothing. -/
theorem declare (name : String) (complete : Bool) :
    Heeds (declare name complete) fun _ => [] where
  ends _ := .nil
  together p q hpq := by
    refine .ok ⟨hpq.stream, hpq.peeked, ?_, hpq.pulled⟩ rfl
    exact congrArg (fun d : Declarations => d.insert name complete) hpq.declared

/-- Consuming a token heeds faults, and reports an end as missing tokens. -/
theorem next : Heeds next nextCalls where
  ends p := by
    rw [pulls_nextCalls, run_next_eq]
    refine (ends_peek p).imp fun fault hended => ?_
    rcases hp : run peek p with ⟨found | token, q⟩
    · rw [hp] at hended
      rw [Except.error.inj hended.1]
      exact ⟨rfl, hended.2⟩
    · rw [hp] at hended
      cases hended.1
  together p q hpq := by
    have hpeek := together_peek hpq
    rw [pulls_nextCalls, pulls_nextCalls, run_next_eq, run_next_eq]
    generalize run peek p = first at hpeek ⊢
    generalize run peek q = second at hpeek ⊢
    cases hpeek with
    | ok hafter hcauseless =>
      exact .ok ⟨hafter.stream, rfl, hafter.declared, hafter.pulled⟩ hcauseless
    | error hafter hcauseless hfault =>
      exact .error hafter hcauseless fun heq => congrArg Fault.whereRequired (hfault heq)

/-- Expecting a token heeds faults. -/
theorem expect (kind : Token.Kind) : Heeds (expect kind) (expectCalls kind) := by
  refine closed (next.bind_idle fun token => ?_) (.expect kind) Request.noConfusion
  split
  · exact pure token
  · exact throw _

/-- Reading an expression heeds faults. -/
theorem expression : Heeds expression expressionCalls := by
  refine closed (next.bind_idle fun token => ?_) .expression Request.noConfusion
  split
  · exact pure _
  · apply get_bind
    · intro p q h
      rw [h]
    · intro p
      split
      · exact pure _
      · exact throw _
  · exact throw _

/-- Reading a new name heeds faults. -/
theorem newName : Heeds newName (expectCalls .identifier) := by
  apply (expect .identifier).bind_idle
  intro token
  apply get_bind
  · intro p q h
    rw [h]
  · intro p
    split
    · exact throw _
    · exact (declare _ _).bind_idle fun _ => pure _

/-- Reading a binding heeds faults, and completing its name pulls nothing. -/
theorem bindStatement : Heeds bindStatement bindCalls := by
  have hparts : Heeds openBinding bindParts :=
    newName.bind fun name => (expect .equals).bind fun _ => expression.bind fun value =>
      (expect .semicolon).bind_idle fun _ => pure _
  have hcomplete : Heeds Parser.bindStatement bindParts :=
    hparts.bind_idle fun (name, _) => (declare name true).bind_idle fun _ => pure _
  exact hcomplete.closed .bind Request.noConfusion

/-- Reading an exit statement heeds faults. -/
theorem exitStatement : Heeds exitStatement exitCalls := by
  have hparts : Heeds Parser.exitStatement exitParts :=
    (expect .parenOpen).bind fun _ => expression.bind fun status =>
      (expect .parenClose).bind fun _ => (expect .semicolon).bind_idle fun _ => pure _
  exact hparts.closed .exit Request.noConfusion

/-- Reading a statement heeds faults. -/
theorem statement : Heeds statement statementCalls := by
  refine closed (next.bind fun token => ?_) .statement Request.noConfusion
  unfold restCalls
  cases token.kind with
  | letWord => exact bindStatement
  | exitWord => exact exitStatement
  | _ => exact throw _

end Heeds

section Rounds

variable {p q r : Parser} {token : Token} {fault : Fault} {first : Statement}

/-- A fault in front of a statement ends the program, and an end does so without a fault. -/
theorem parse_of_fault (hp : run peek p = (.error fault, q)) :
    p.parse = (fault.behind (.ok []), q) := by
  rw [parse_eq, hp]
  cases fault <;> rfl

/-- The round that meets a fault makes one call. -/
theorem rounds_of_fault (hp : run peek p = (.error fault, q)) : rounds p = [⟨.peek, p⟩] := by
  rw [rounds_eq, hp]

/-- A fault in a statement ends the program. -/
theorem parse_of_statement_fault (hp : run peek p = (.ok token, q))
    (hs : run statement q = (.error fault, r)) : p.parse = (.error fault, r) := by
  rw [parse_eq, hp, ← run_statement_of_run_peek hp, hs]

/-- What the round pulls in which a statement fails. -/
theorem pulls_rounds_of_statement_fault (hp : run peek p = (.ok token, q))
    (hs : run statement q = (.error fault, r)) :
    pulls (rounds p) = pulls [⟨.peek, p⟩] ++ pulls (statementCalls q) := by
  rw [rounds_eq, hp]
  dsimp only
  rw [hs, List.append_nil, ← pulls_append, List.singleton_append]

/-- A statement stands in front of the program that follows it. -/
theorem parse_of_statement (hp : run peek p = (.ok token, q))
    (hs : run statement q = (.ok first, r)) :
    p.parse = (r.parse.1.map (first :: ·), r.parse.2) := by
  rw [parse_eq, hp, ← run_statement_of_run_peek hp, hs]

/-- What a round pulls, and the rounds after it. -/
theorem pulls_rounds_of_statement (hp : run peek p = (.ok token, q))
    (hs : run statement q = (.ok first, r)) :
    pulls (rounds p) = pulls [⟨.peek, p⟩] ++ (pulls (statementCalls q) ++ pulls (rounds r)) := by
  rw [rounds_eq, hp]
  dsimp only
  rw [hs, ← pulls_append, ← pulls_append, List.singleton_append]

end Rounds

/-- A fault that the loop pulls ends it. -/
theorem ends_rounds (p : Parser) : (pulls (rounds p)).EndsCall fun fault =>
    (Reply.program p.parse.1).EndedBy fault ∧ p.parse.2.peeked = none := by
  induction hsize : p.size using Nat.strongRecOn generalizing p with
  | ind size ih =>
    rcases hp : run peek p with ⟨found | token, q⟩
    · rw [rounds_of_fault hp, parse_of_fault hp]
      refine (ends_peek p).imp fun fault hended => ?_
      rw [hp] at hended
      rw [Except.error.inj hended.1]
      cases fault with
      | endOfInput => exact ⟨.inr ⟨rfl, [], rfl⟩, hended.2⟩
      | _ => exact ⟨.inl rfl, hended.2⟩
    · obtain ⟨ts, hts⟩ := tokens_of_run_peek hp
      rcases hs : run statement q with ⟨found | first, r⟩
      · rw [pulls_rounds_of_statement_fault hp hs, parse_of_statement_fault hp hs, hts]
        refine ((Heeds.statement.ends q).imp fun fault hended => ?_).append_tokens
        rw [hs] at hended
        exact ⟨.inl (congrArg Except.error (Except.error.inj hended.1)), hended.2⟩
      · obtain ⟨us, hus⟩ := Heeds.statement.tokens_of_ok hs
        have hsmaller : r.size < size := by
          rw [← hsize]
          exact Nat.lt_of_lt_of_le (consumes_statement q r first hs) (keeps_peek p q token hp)
        rw [pulls_rounds_of_statement hp hs, parse_of_statement hp hs, hts, hus]
        refine ((ih r.size hsmaller r rfl).imp fun fault hended => ?_).append_tokens.append_tokens
        obtain ⟨hreply | ⟨hend, program, hreply⟩, hpeeked⟩ := hended
        · exact ⟨.inl (by rw [hreply]; rfl), hpeeked⟩
        · exact ⟨.inr ⟨hend, first :: program, by rw [hreply]; rfl⟩, hpeeked⟩

/-- Parsers that find the same tokens read programs on the same course. -/
theorem agree_parse {p q : Parser} (h : p.SameTokens q) :
    Agree p.parse q.parse (pulls (rounds p)) (pulls (rounds q)) := by
  -- on what is left to read, which every statement makes smaller
  induction hsize : p.size using Nat.strongRecOn generalizing p q with
  | ind size ih =>
    have hpeek := together_peek h
    generalize hp : run peek p = ahead at hpeek
    generalize hq : run peek q = ahead' at hpeek
    cases hpeek with
    | error hafter hcauseless hfault =>
      rw [rounds_of_fault hp, rounds_of_fault hq, parse_of_fault hp, parse_of_fault hq]
      refine ⟨hafter, hcauseless, fun heq => ?_⟩
      rw [hfault heq]
    | ok hafter hcauseless =>
      rename_i token p' q'
      have hstatement := Heeds.statement.together p' q' hafter
      generalize hs : run statement p' = answer at hstatement
      generalize hs' : run statement q' = answer' at hstatement
      cases hstatement with
      | error hlast hparts hfault =>
        rw [pulls_rounds_of_statement_fault hp hs, pulls_rounds_of_statement_fault hq hs',
          parse_of_statement_fault hp hs, parse_of_statement_fault hq hs']
        apply Agree.append _ hcauseless
        exact ⟨hlast, hparts, fun heq => congrArg Except.error (hfault heq)⟩
      | ok hnext hparts =>
        rename_i first p'' q''
        have hsmaller : p''.size < size := by
          rw [← hsize]
          exact Nat.lt_of_lt_of_le (consumes_statement p' p'' first hs) (keeps_peek p p' token hp)
        have hlater := ih p''.size hsmaller hnext rfl
        rw [pulls_rounds_of_statement hp hs, pulls_rounds_of_statement hq hs',
          parse_of_statement hp hs, parse_of_statement hq hs']
        exact ((hlater.map fun answer => answer.map (first :: ·)).append hparts).append hcauseless

/-- A call pulls a fault as its last element or not at all.  The fault ends the call and is not
kept. -/
theorem ends_serve (p : Parser) (request : Request) :
    (pulls (p.calls request)).EndsCall fun fault =>
      (p.serve request).1.EndedBy fault ∧ (p.serve request).2.peeked = none := by
  cases request with
  | parse =>
    rw [calls, pulls_closed Request.noConfusion]
    exact ends_rounds p
  | peek => exact ends_peek p
  | next => exact Heeds.next.ends p
  | expect kind => exact (Heeds.expect kind).ends p
  | statement => exact Heeds.statement.ends p
  | bind => exact Heeds.bindStatement.ends p
  | exit => exact Heeds.exitStatement.ends p
  | expression => exact Heeds.expression.ends p

/-- Parsers that find the same tokens agree on every request. -/
theorem agree_serve {p q : Parser} (h : p.SameTokens q) (request : Request) :
    Agree (p.serve request) (q.serve request) (pulls (p.calls request))
      (pulls (q.calls request)) := by
  cases request with
  | parse =>
    rw [calls, calls, pulls_closed Request.noConfusion, pulls_closed Request.noConfusion]
    exact (agree_parse h).map Reply.program
  | peek => exact (together_peek h).agree.map Reply.ahead
  | next => exact (Heeds.next.together p q h).agree.map Reply.token
  | expect kind => exact ((Heeds.expect kind).together p q h).agree.map Reply.token
  | statement => exact (Heeds.statement.together p q h).agree.map Reply.statement
  | bind => exact (Heeds.bindStatement.together p q h).agree.map Reply.statement
  | exit => exact (Heeds.exitStatement.together p q h).agree.map Reply.statement
  | expression => exact (Heeds.expression.together p q h).agree.map Reply.expr

/-- Parsers that find the same tokens still do so after any requests. -/
theorem SameTokens.served {p q : Parser} (h : p.SameTokens q) (requests : List Request) :
    (p.served requests).SameTokens (q.served requests) :=
  Requests.served_related (r := SameTokens) (fun _ _ h request => (agree_serve h request).after) h
    requests

/-! ## Looking ahead changes nothing -/

/-- A parser that has looked at a token answers every request as it would have done before. -/
theorem serve_of_run_peek {p q : Parser} {token : Token} (h : run peek p = (.ok token, q))
    (request : Request) : q.serve request = p.serve request := by
  -- every step but the first one of a request is made by a parser that is the same in both runs
  have hbind {α β : Type} {step : Step α} (f : α → Step β) (hstep : run step q = run step p) :
      run (step >>= f) q = run (step >>= f) p := by
    rw [run_bind, run_bind, hstep]
  have hpeek : run peek q = run peek p := by
    rw [h, peek, run_of, peeked_of_run_peek h]
  have hnext := run_next_of_run_peek h
  have hexpect (kind : Token.Kind) : run (expect kind) q = run (expect kind) p := hbind _ hnext
  cases request with
  | parse =>
    have hparse : q.parse = p.parse := by
      rw [parse_eq q, parse_eq p, hpeek, run_statement_of_run_peek h]
    rw [serve, serve, hparse]
  | peek => rw [serve, serve, hpeek]
  | next => rw [serve, serve, hnext]
  | expect kind => rw [serve, serve, hexpect]
  | statement => rw [serve, serve, run_statement_of_run_peek h]
  | bind =>
    have hbinding : run bindStatement q = run bindStatement p :=
      hbind _ (hbind _ (hbind _ (hexpect _)))
    rw [serve, serve, hbinding]
  | exit =>
    have hexit : run exitStatement q = run exitStatement p := hbind _ (hexpect _)
    rw [serve, serve, hexit]
  | expression =>
    have hexpression : run expression q = run expression p := hbind _ hnext
    rw [serve, serve, hexpression]

/-- What is answered to requests that are made one after the other, with the parser after each. -/
def transcript (p : Parser) (requests : List Request) : List (Reply × Parser) :=
  Requests.transcript serve id p requests

/-- Looking at a token can be left out of a run, and with it only its own answer. -/
theorem transcript_erase_peek {p : Parser} {earlier : List Request} {token : Token}
    (h : (run peek (p.served earlier)).1 = .ok token) (later : List Request) :
    (p.transcript (earlier ++ .peek :: later)).eraseIdx earlier.length =
      p.transcript (earlier ++ later) := by
  have hpeek : run peek (p.served earlier) = (.ok token, (run peek (p.served earlier)).2) :=
    Prod.ext h rfl
  have hserve (request : Request) : ((p.served earlier).serve .peek).2.serve request =
      (p.served earlier).serve request := serve_of_run_peek hpeek request
  exact Requests.transcript_erase hserve later

/-- In every run of a parser, whatever it is asked for and wherever the stream fails: the tokens
consumed so far, and then the token ahead if there is one, are the tokens among the first elements
of the stream, and `pulled` is their number; every fault ends the call that pulls it and is not
kept; over a stream with the same tokens and other faults the parser comes to the same state, and a
call can be answered differently only if it pulls other faults; and a request to look ahead that
was answered with a token can be left out, without a change to any other answer or to the parser
after it. -/
theorem lookahead_exact (s : TokenStream) (requests : List Request) :
    let history := (ofStream s).history requests
    let p := (ofStream s).served requests
    (∃ n, pulls history = s.first n ∧ p.stream = s.rest n ∧
      consumed history ++ p.peeked.toList = (s.first n).tokens ∧
      p.pulled = (s.first n).tokens.length) ∧
    (∀ c ∈ history, (pulls (c.before.calls c.request)).EndsCall fun fault =>
      c.reply.EndedBy fault ∧ c.after.peeked = none) ∧
    (∀ t, s.SameTokens t →
      let q := (ofStream t).served requests
      p.SameTokens q ∧ ∀ request, Agree (p.serve request) (q.serve request)
        (pulls (p.calls request)) (pulls (q.calls request))) ∧
    ∀ earlier later token, requests = earlier ++ .peek :: later →
      (run peek ((ofStream s).served earlier)).1 = .ok token →
      ((ofStream s).transcript requests).eraseIdx earlier.length =
        (ofStream s).transcript (earlier ++ later) := by
  intro history p
  have htakes : Takes (ofStream s) history p := Takes.tracks.history (ofStream s) requests
  refine ⟨⟨(pulls history).length, htakes.elements, htakes.stream, ?_, ?_⟩, ?_, ?_, ?_⟩
  · have helements : pulls history = s.first (pulls history).length := htakes.elements
    rw [htakes.tokens, ← helements]
    rfl
  · have helements : pulls history = s.first (pulls history).length := htakes.elements
    rw [htakes.pulled, ← helements]
    exact Nat.zero_add _
  · intro c _
    exact ends_serve c.before c.request
  · intro t ht q
    have hsame : (ofStream s).SameTokens (ofStream t) := ⟨ht, rfl, rfl, rfl⟩
    exact ⟨hsame.served requests, agree_serve (hsame.served requests)⟩
  · intro earlier later token hrequests hpeek
    rw [hrequests]
    exact transcript_erase_peek hpeek later

end Parser

end LetExit
