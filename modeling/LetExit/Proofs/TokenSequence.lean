import LetExit.Proofs.Layout
import LetExit.Proofs.Simulation

/-!
# What a parser sees of its tokens

A parser asks its stream for one token after the other, and the answers are all it sees of
the stream.  Two streams are `TokenStream.Alike` if they give the same answers for ever,
and `Parser.parse_alike` says that parsers in the same state over such streams come to the
same program or to the same fault.

The answers of a lexer depend on its view alone (`TokenStream.alike_lexer`).
-/

set_option autoImplicit false

namespace LetExit

namespace TokenStream

/-- The answers that a stream gives when it is asked again and again. -/
def answer (s : TokenStream) : Nat → Except Fault Token
  | 0 => s.next.1
  | n + 1 => s.next.2.answer n

/-- The streams cannot be told apart by asking. -/
def Alike (s t : TokenStream) : Prop :=
  ∀ n, s.answer n = t.answer n

/-- Streams that are alike give the same answer and are alike after it. -/
theorem Alike.next {s t : TokenStream} (h : s.Alike t) : Corresponds Alike s.next t.next :=
  ⟨h 0, fun n => h (n + 1)⟩

/-- Lexers whose views have the same next token, and the same view behind it, are alike. -/
theorem alike_lexer {l m : Lexer}
    (h : Lexer.View.next l.view.position l.view.readings =
      Lexer.View.next m.view.position m.view.readings) :
    (TokenStream.lexer l).Alike (.lexer m) := by
  intro n
  induction n generalizing l m with
  | zero =>
    rw [← Lexer.view_next, ← Lexer.view_next] at h
    exact (Prod.mk.inj h).1
  | succ n ih =>
    rw [← Lexer.view_next, ← Lexer.view_next] at h
    have hview : l.next.2.view = m.next.2.view := (Prod.mk.inj h).2
    apply ih
    rw [hview]

end TokenStream

namespace Parser

/-- The parsers are in the same state over streams that are alike.  How many tokens they have taken
is left out, since no step looks at it. -/
structure Alike (p q : Parser) : Prop where
  stream : p.stream.Alike q.stream
  peeked : p.peeked = q.peeked
  declared : p.declared = q.declared

/-- A step that gives parsers which are alike the same answer, and leaves them alike. -/
def Respects {α : Type} (step : Step α) : Prop :=
  ∀ p q, p.Alike q → Corresponds Alike (run step p) (run step q)

/-- Looking ahead does not tell streams apart that are alike. -/
theorem respects_peek : Respects peek := by
  intro p q h
  obtain ⟨stream, peeked, declared, pulled⟩ := p
  obtain ⟨stream', peeked', declared', pulled'⟩ := q
  obtain ⟨hstream, hpeeked, hdeclared⟩ := h
  dsimp only at hstream hpeeked hdeclared
  subst hpeeked hdeclared
  cases peeked with
  | some token => exact ⟨rfl, hstream, rfl, rfl⟩
  | none =>
    rcases hs : stream.next with ⟨answer, rest⟩
    obtain ⟨rest', hs', hrest⟩ := hstream.next.exists_eq hs
    simp only [peek, run_of, hs, hs']
    cases answer with
    | ok token => exact ⟨rfl, hrest, rfl, rfl⟩
    | error fault => exact ⟨rfl, hrest, rfl, rfl⟩

/-- Consuming a token does not tell streams apart that are alike. -/
theorem respects_next : Respects next := by
  intro p q h
  rcases hp : run peek p with ⟨answer, p'⟩
  obtain ⟨q', hq, hafter⟩ := (respects_peek p q h).exists_eq hp
  simp only [next, run_of, hp, hq]
  cases answer with
  | ok token => exact ⟨rfl, hafter.stream, rfl, hafter.declared⟩
  | error fault => cases fault <;> exact ⟨rfl, hafter⟩

/-- Parsers that are alike belong together, and their streams report the same faults. -/
def alikePairing : Pairing :=
  ⟨id, Alike, fun first second => first.1 = second.1 ∧ first.2.Alike second.2⟩

/-- Parsers that are alike read statements in the same way. -/
theorem simulates_alikePairing : alikePairing.Simulates where
  declared_eq _ _ h := h.declared.symm
  related_withDeclared _ _ h _ := ⟨h.stream, h.peeked, rfl⟩
  next := by
    intro p q h
    rcases hp : run next p with ⟨answer, p'⟩
    obtain ⟨q', hq, hafter⟩ := (respects_next p q h).exists_eq hp
    rw [hq]
    cases answer with
    | ok token => exact .ok hafter
    | error fault => exact .stream ⟨rfl, hafter⟩

/-- Reading a statement does not tell streams apart that are alike. -/
theorem respects_statement : Respects statement := by
  intro p q h
  have hanswers := simulates_alikePairing.statement p q h
  generalize run statement p = first at hanswers ⊢
  generalize run statement q = second at hanswers ⊢
  cases hanswers with
  | ok hafter => exact ⟨rfl, hafter⟩
  | own _ hafter => exact ⟨congrArg Except.error (Fault.relocate_id _).symm, hafter⟩
  | stream hfails => exact ⟨congrArg Except.error hfails.1, hfails.2⟩

/-- Parsers that are alike read the same next statement, if there is one. -/
theorem statementStep_alike (p q : Parser) (h : p.Alike q) :
    Corresponds Alike p.statementStep q.statementStep := by
  rcases hp : run peek p with ⟨ahead, p'⟩
  obtain ⟨q', hq, hafter⟩ := (respects_peek p q h).exists_eq hp
  rw [statementStep, statementStep, hp, hq]
  cases ahead with
  | error fault => cases fault <;> exact ⟨rfl, hafter⟩
  | ok token =>
    dsimp only
    rcases hs : run statement p' with ⟨answer, p''⟩
    obtain ⟨q'', hs', hlast⟩ := (respects_statement p' q' hafter).exists_eq hs
    rw [hs']
    cases answer <;> exact ⟨rfl, hlast⟩

/-- Parsers that are alike read the same program or report the same fault. -/
theorem parse_alike {p q : Parser} (h : p.Alike q) : Corresponds Alike p.parse q.parse :=
  collects_parse.corresponds statementStep_alike h

section Lookahead

variable {s : TokenStream} {d : Declarations} {n : Nat}

/-- Without a token in the lookahead, looking ahead answers what the stream does. -/
theorem run_peek_fst : (run peek ⟨s, none, d, n⟩).1 = s.next.1 := by
  rcases hs : s.next with ⟨answer, rest⟩
  simp only [peek, run_of, hs]
  cases answer <;> rfl

/-- Without a token in the lookahead, the token that is consumed is the next of the stream. -/
theorem run_next_eq_ok_iff {t : Token} {q : Parser} :
    run next ⟨s, none, d, n⟩ = (.ok t, q) ↔
      ∃ rest, s.next = (.ok t, rest) ∧ q = ⟨rest, none, d, n + 1⟩ := by
  rcases hs : s.next with ⟨answer, rest⟩
  simp only [next, peek, run_of, hs]
  cases answer with
  | ok token =>
    dsimp only
    constructor
    · intro h
      obtain ⟨htoken, hq⟩ := Prod.mk.inj h
      exact ⟨rest, by rw [htoken], hq.symm⟩
    · rintro ⟨rest', heq, rfl⟩
      obtain ⟨htoken, rfl⟩ := Prod.mk.inj heq
      rw [htoken]
  | error fault => cases fault <;> simp

/-- The tokens ahead of a parser over a lexer are those that the lexer finds. -/
theorem ahead_lexer_iff {l : Lexer} {ts : List Token} :
    Ahead ⟨.lexer l, none, d, n⟩ ts ↔ l.tokenize.1 = .ok ts := by
  constructor
  · intro h
    induction ts generalizing l n with
    | nil =>
      obtain ⟨hpeek⟩ := h
      have hend : l.next.1 = .error .endOfInput := by
        have hfst := run_peek_fst (s := .lexer l) (d := d) (n := n)
        rw [hpeek] at hfst
        exact hfst.symm
      exact Lexer.tokenize_of_next_endOfInput (Prod.ext hend rfl)
    | cons t ts ih =>
      obtain _ | ⟨hrun, hahead⟩ := h
      obtain ⟨rest, hnext, rfl⟩ := run_next_eq_ok_iff.mp hrun
      obtain ⟨htoken, rfl⟩ := Prod.mk.inj hnext
      exact Lexer.tokenize_of_next_ok (Prod.ext htoken rfl) (ih hahead)
  · intro h
    fun_induction Lexer.tokenize l generalizing ts n with
    | case1 l fault after hstep => cases h
    | case2 l after hstep =>
      cases h
      have hnext := Lexer.tokenStep_eq_ok_none_iff.mp hstep
      have hend : (run peek ⟨.lexer l, none, d, n⟩).1 = .error .endOfInput := by
        rw [run_peek_fst, TokenStream.next, hnext]
      exact .nil (Prod.ext hend rfl)
    | case3 l t after hstep rest last hrest ih =>
      cases h
      have hnext := Lexer.tokenStep_eq_ok_some_iff.mp hstep
      have hrun : (TokenStream.lexer l).next = (.ok t, .lexer after) := by
        rw [TokenStream.next, hnext]
      exact .cons (run_next_eq_ok_iff.mpr ⟨_, hrun, rfl⟩) (ih (by rw [hrest]))
    | case4 l t after hstep fault last hrest ih => cases h

end Lookahead

end Parser

end LetExit
