import LetExit.Proofs.TokenSequence

/-!
# Tokens one at a time and all at once

A parser takes its tokens while it reads, and `Lexer.tokenize` collects them before anything
is read.  `TokenStream.Gives` is what both have in common: the tokens that a stream gives
until it reports a fault, which may be its end.

A parser over a stream does what a parser over the list of these tokens does, up to the
place where the list has ended.  There the first parser meets the fault instead, and
`Fault.behind` says what becomes of the answer.  `Parser.parse_of_gives` states this for
tokens that may have been moved to other positions.
-/

set_option autoImplicit false

namespace LetExit

namespace TokenStream

/-- Asked again and again, the stream gives these tokens and then this fault. -/
inductive Gives : TokenStream → List Token → Fault → Prop
  | fault {s rest : TokenStream} {fault : Fault} : s.next = (.error fault, rest) → Gives s [] fault
  | token {s rest : TokenStream} {t : Token} {ts : List Token} {fault : Fault} :
      s.next = (.ok t, rest) → Gives rest ts fault → Gives s (t :: ts) fault

/-- A list of tokens is given as it is, and then the end. -/
theorem gives_answers (ts : List Token) : (answers (ts.map .ok)).Gives ts .endOfInput := by
  induction ts with
  | nil => exact .fault rfl
  | cons t ts ih => exact .token rfl ih

/-- A lexer gives tokens until a fault comes, and these are the tokens that it collects. -/
theorem exists_gives_lexer (l : Lexer) : ∃ ts fault, (lexer l).Gives ts fault ∧
    l.tokenize.1 = if fault = .endOfInput then .ok ts else .error fault := by
  fun_induction Lexer.tokenize l with
  | case1 l fault after hstep =>
    obtain ⟨hnext, hfault⟩ := Lexer.tokenStep_eq_error_iff.mp hstep
    have hs : (lexer l).next = (.error fault, .lexer after) := by rw [next, hnext]
    refine ⟨[], fault, .fault hs, ?_⟩
    rw [if_neg hfault]
  | case2 l after hstep =>
    have hnext := Lexer.tokenStep_eq_ok_none_iff.mp hstep
    have hs : (lexer l).next = (.error .endOfInput, .lexer after) := by rw [next, hnext]
    exact ⟨[], .endOfInput, .fault hs, rfl⟩
  | case3 l t after hstep rest last hrest ih =>
    have hnext := Lexer.tokenStep_eq_ok_some_iff.mp hstep
    have hs : (lexer l).next = (.ok t, .lexer after) := by rw [next, hnext]
    obtain ⟨ts, fault, hgives, htokens⟩ := ih
    refine ⟨t :: ts, fault, .token hs hgives, ?_⟩
    rw [hrest] at htokens
    by_cases hend : fault = .endOfInput
    · rw [if_pos hend] at htokens ⊢
      rw [Except.ok.inj htokens]
    · rw [if_neg hend] at htokens
      cases htokens
  | case4 l t after hstep found last hrest ih =>
    have hnext := Lexer.tokenStep_eq_ok_some_iff.mp hstep
    have hs : (lexer l).next = (.ok t, .lexer after) := by rw [next, hnext]
    obtain ⟨ts, fault, hgives, htokens⟩ := ih
    refine ⟨t :: ts, fault, .token hs hgives, ?_⟩
    rw [hrest] at htokens
    by_cases hend : fault = .endOfInput
    · rw [if_pos hend] at htokens
      cases htokens
    · rw [if_neg hend] at htokens ⊢
      rw [Except.error.inj htokens]

end TokenStream

/-- Reads the program of a list of tokens. -/
def Program.ofTokens (ts : List Token) : Except Fault Program :=
  (Parser.ofStream (.answers (ts.map .ok))).parse.1

namespace Fault

/-- How a fault of the stream is reported where a token has to come. -/
def whereRequired : Fault → Fault
  | endOfInput => tokensExhausted
  | fault => fault

/-- What reading comes to if a fault stands behind the tokens, given what it comes to on the tokens
alone. -/
def behind (fault : Fault) : Except Fault Program → Except Fault Program
  | .ok program => if fault = endOfInput then .ok program else .error fault
  | .error tokensExhausted => .error fault.whereRequired
  | .error own => .error own

/-- A fault of the parser itself comes before the fault behind the tokens. -/
theorem behind_error {own : Fault} (h : own ≠ tokensExhausted) (fault : Fault) :
    fault.behind (.error own) = .error own := by
  cases own with
  | tokensExhausted => exact absurd rfl h
  | _ => rfl

/-- A statement in front does not change which fault is reported. -/
theorem behind_map_cons (fault : Fault) (answer : Except Fault Program) (s : Statement) :
    fault.behind (answer.map (s :: ·)) = (fault.behind answer).map (s :: ·) := by
  cases answer with
  | ok program =>
    by_cases hend : fault = endOfInput
    · subst hend
      rfl
    · have hanswer (program : Program) : fault.behind (.ok program) = .error fault := if_neg hend
      rw [hanswer program]
      exact hanswer (s :: program)
  | error own =>
    by_cases hown : own = tokensExhausted
    · subst hown
      rfl
    · rw [behind_error hown]
      exact behind_error hown fault

/-- An end behind the tokens is no fault. -/
theorem behind_endOfInput (answer : Except Fault Program) : endOfInput.behind answer = answer := by
  cases answer with
  | ok program => rfl
  | error own => cases own <;> rfl

/-- A fault other than the end is reported unless the tokens have a fault of their own. -/
theorem behind_of_ne_endOfInput {fault : Fault} (h : fault ≠ endOfInput)
    {answer : Except Fault Program} (hanswer : ∀ own, answer = .error own → own = tokensExhausted) :
    fault.behind answer = .error fault := by
  cases answer with
  | ok program => exact if_neg h
  | error own =>
    rw [hanswer own rfl]
    cases fault with
    | endOfInput => exact absurd rfl h
    | _ => rfl

/-- With a fault behind the tokens, reading does not succeed. -/
theorem behind_ne_ok {fault : Fault} (h : fault ≠ endOfInput) (answer : Except Fault Program)
    (program : Program) : fault.behind answer ≠ .ok program := by
  intro hok
  by_cases hown : ∃ own, answer = .error own ∧ own ≠ tokensExhausted
  · obtain ⟨own, rfl, hne⟩ := hown
    rw [behind_error hne] at hok
    cases hok
  · have hanswer : ∀ own, answer = .error own → own = tokensExhausted := by
      intro own heq
      exact Decidable.byContradiction fun hne => hown ⟨own, heq, hne⟩
    rw [behind_of_ne_endOfInput h hanswer] at hok
    cases hok

section Relocate

variable (move : Position → Position)

/-- Moving a fault makes no end of it. -/
theorem relocate_eq_endOfInput_iff {fault : Fault} :
    fault.relocate move = endOfInput ↔ fault = endOfInput := by
  cases fault <;> simp [relocate]

/-- Moving a fault does not make it one of missing tokens. -/
theorem relocate_ne_tokensExhausted {fault : Fault} (h : fault ≠ tokensExhausted) :
    fault.relocate move ≠ tokensExhausted := by
  cases fault with
  | tokensExhausted => exact absurd rfl h
  | _ => exact Fault.noConfusion

/-- How a fault is reported does not depend on positions. -/
theorem relocate_whereRequired (fault : Fault) :
    fault.whereRequired.relocate move = (fault.relocate move).whereRequired := by
  cases fault <;> rfl

end Relocate

end Fault

namespace Parser

/-- Where a token has to come, a fault of the stream is reported. -/
theorem run_next_of_fault {s rest : TokenStream} {fault : Fault} (h : s.next = (.error fault, rest))
    (d : Declarations) (n : Nat) :
    run next ⟨s, none, d, n⟩ = (.error fault.whereRequired, ⟨rest, none, d, n⟩) := by
  simp only [next, peek, run_of, h]
  cases fault <;> rfl

/-- The second parser reads the tokens that the stream of the first gives in front of the fault, at
other positions, and nothing behind them. -/
structure Mirrors (move : Position → Position) (fault : Fault) (p q : Parser) : Prop where
  stream : ∃ ts, p.stream.Gives ts fault ∧
    q.stream.Gives (ts.map (Token.relocate move)) .endOfInput
  peeked : q.peeked = p.peeked.map (Token.relocate move)
  declared : q.declared = p.declared

/-- Where the first parser meets the fault, the second has run out of tokens. -/
def mirroring (move : Position → Position) (fault : Fault) : Pairing :=
  ⟨move, Mirrors move fault, fun first second =>
    first.1 = fault.whereRequired ∧ second.1 = .tokensExhausted⟩

section Mirrors

variable {move : Position → Position} {fault : Fault}

/-- Parsers that mirror each other read statements in the same way. -/
theorem simulates_mirroring : (mirroring move fault).Simulates where
  declared_eq _ _ h := h.declared
  related_withDeclared _ _ h _ := ⟨h.stream, h.peeked, rfl⟩
  next := by
    rintro ⟨s, peeked, d, n⟩ ⟨s', peeked', d', n'⟩ ⟨hstream, hpeeked, hdeclared⟩
    dsimp only at hstream hpeeked hdeclared
    subst hpeeked hdeclared
    cases peeked with
    | some t => exact .ok ⟨hstream, rfl, rfl⟩
    | none =>
      obtain ⟨ts, hgives, hgives'⟩ := hstream
      cases hgives with
      | fault hs =>
        obtain ⟨hs'⟩ := hgives'
        rw [Option.map_none, run_next_of_fault hs, run_next_of_fault hs']
        exact .stream ⟨rfl, rfl⟩
      | token hs hrest =>
        obtain _ | ⟨hs', hrest'⟩ := hgives'
        rw [Option.map_none, run_next_eq_ok_iff.mpr ⟨_, hs, rfl⟩,
          run_next_eq_ok_iff.mpr ⟨_, hs', rfl⟩]
        exact .ok ⟨⟨_, hrest, hrest'⟩, rfl, rfl⟩

/-- Between two statements both parsers see a token, or they see the fault and the end. -/
theorem Mirrors.run_peek {p q : Parser} (h : Mirrors move fault p q) :
    (∃ t t', (run peek p).1 = .ok t ∧ (run peek q).1 = .ok t') ∨
      ((run peek p).1 = .error fault ∧ (run peek q).1 = .error .endOfInput) := by
  obtain ⟨s, peeked, d, n⟩ := p
  obtain ⟨s', peeked', d', n'⟩ := q
  obtain ⟨⟨ts, hgives, hgives'⟩, hpeeked, -⟩ := h
  dsimp only at hgives hgives' hpeeked
  subst hpeeked
  cases peeked with
  | some t => exact Or.inl ⟨t, t.relocate move, rfl, rfl⟩
  | none =>
    rw [Option.map_none, run_peek_fst, run_peek_fst]
    cases hgives with
    | fault hs =>
      obtain ⟨hs'⟩ := hgives'
      rw [hs, hs']
      exact Or.inr ⟨rfl, rfl⟩
    | token hs hrest =>
      obtain _ | ⟨hs', hrest'⟩ := hgives'
      rw [hs, hs']
      exact Or.inl ⟨_, _, rfl, rfl⟩

/-- A parser over a stream with a fault comes to what a parser over the tokens in front of the fault
comes to, unless that has run out of tokens or is done with them. -/
theorem Mirrors.parse {p q : Parser} (h : Mirrors move fault p q) :
    p.parse.1.mapError (Fault.relocate move) = (fault.relocate move).behind q.parse.1 := by
  -- on what is left to read, which every statement makes smaller
  induction hsize : p.size using Nat.strongRecOn generalizing p q with
  | ind size ih =>
    rw [parse_eq p, parse_eq q]
    have hpeek := h.run_peek
    rcases hp : run peek p with ⟨ahead, p'⟩
    rcases hq : run peek q with ⟨ahead', q'⟩
    rw [hp, hq] at hpeek
    obtain ⟨t, t', rfl, rfl⟩ | ⟨rfl, rfl⟩ := hpeek
    · have hanswers := simulates_mirroring.statement p q h
      dsimp only
      rcases hs : run statement p with ⟨answer, p''⟩
      rcases hs' : run statement q with ⟨answer', q''⟩
      rw [hs, hs'] at hanswers
      cases hanswers with
      | ok hafter =>
        have hsmaller : p''.size < size := by
          rw [← hsize]
          exact consumes_statement p p'' _ hs
        have hlater := ih p''.size hsmaller hafter rfl
        dsimp only [id_eq]
        rw [Fault.behind_map_cons, ← hlater]
        cases p''.parse.1 <;> rfl
      | own hown _ =>
        rw [Fault.behind_error (Fault.relocate_ne_tokensExhausted _ hown)]
        rfl
      | stream hfails =>
        obtain ⟨rfl, rfl⟩ := hfails
        show Except.error (fault.whereRequired.relocate move) = _
        rw [Fault.relocate_whereRequired]
        rfl
    · by_cases hend : fault = .endOfInput
      · subst hend
        rfl
      · have hmoved : fault.relocate move ≠ .endOfInput :=
          fun hmoved => hend ((Fault.relocate_eq_endOfInput_iff move).mp hmoved)
        have hanswer : (fault.relocate move).behind (.ok []) = .error (fault.relocate move) :=
          if_neg hmoved
        dsimp only
        rw [hanswer]
        cases fault with
        | endOfInput => exact absurd rfl hend
        | _ => rfl

end Mirrors

/-- Reading from a stream is decided by the tokens that it gives and by the fault behind them. -/
theorem parse_of_gives {s : TokenStream} {ts : List Token} {fault : Fault} (h : s.Gives ts fault)
    (move : Position → Position) :
    (ofStream s).parse.1.mapError (Fault.relocate move) =
      (fault.relocate move).behind (Program.ofTokens (ts.map (Token.relocate move))) := by
  have hmirrors : Mirrors move fault (ofStream s)
      (ofStream (.answers ((ts.map (Token.relocate move)).map .ok))) :=
    ⟨⟨ts, h, TokenStream.gives_answers _⟩, rfl, rfl⟩
  exact hmirrors.parse

end Parser

/-- Reading a text is reading its tokens, with the fault behind them. -/
theorem Program.parse_eq_behind {input : Input} {ts : List Token} {fault : Fault}
    (h : (TokenStream.lexer (.ofInput input)).Gives ts fault) :
    parse input = fault.behind (ofTokens ts) := by
  have hparse := Parser.parse_of_gives h id
  have htokens : ts.map (Token.relocate id) = ts := List.map_id ts
  have hanswer (answer : Except Fault Program) :
      answer.mapError (Fault.relocate id) = answer := by
    cases answer with
    | ok program => rfl
    | error own => exact congrArg Except.error own.relocate_id
  rw [htokens, hanswer, fault.relocate_id] at hparse
  exact hparse

/-- **Reading tokens one at a time agrees with collecting them.**  Let a lexer over any source give
some tokens until it reports the end or another fault.  If it reports the end, it collects these
tokens, and the source is read as the list of them is.  If it reports another fault, collecting the
tokens fails with that fault, and reading fails as well: with the fault that a parser finds in the
list, if the list makes it fail otherwise than by running out of tokens, and with the fault of the
lexer in all other cases.  So only a source whose tokens can be collected is read. -/
theorem parse_agrees_with_tokenize (input : Input) :
    ∃ ts fault, (TokenStream.lexer (.ofInput input)).Gives ts fault ∧
      (fault = .endOfInput →
        (Lexer.ofInput input).tokenize.1 = .ok ts ∧
        Program.parse input = Program.ofTokens ts) ∧
      (fault ≠ .endOfInput →
        (Lexer.ofInput input).tokenize.1 = .error fault ∧
        (∀ own, Program.ofTokens ts = .error own → own ≠ .tokensExhausted →
          Program.parse input = .error own) ∧
        ((∀ own, Program.ofTokens ts = .error own → own = .tokensExhausted) →
          Program.parse input = .error fault)) ∧
      ∀ p, Program.parse input = .ok p → (Lexer.ofInput input).tokenize.1 = .ok ts := by
  obtain ⟨ts, fault, hgives, htokens⟩ := TokenStream.exists_gives_lexer (.ofInput input)
  have hparse := Program.parse_eq_behind hgives
  refine ⟨ts, fault, hgives, fun hend => ?_, fun hend => ?_, fun p hp => ?_⟩
  · rw [if_pos hend] at htokens
    refine ⟨htokens, ?_⟩
    rw [hparse, hend, Fault.behind_endOfInput]
  · rw [if_neg hend] at htokens
    refine ⟨htokens, fun own hown hne => ?_, fun hexhausted => ?_⟩
    · rw [hparse, hown, Fault.behind_error hne]
    · rw [hparse]
      exact Fault.behind_of_ne_endOfInput hend hexhausted
  · by_cases hend : fault = .endOfInput
    · rw [if_pos hend] at htokens
      exact htokens
    · rw [hparse] at hp
      exact absurd hp (Fault.behind_ne_ok hend _ p)

end LetExit
