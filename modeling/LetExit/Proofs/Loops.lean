import LetExit.Program.Parser

/-!
# Loops

The functions of a lexer and of a parser recurse where a program would loop.  Three of them
collect what a step gives, one thing after the other, until the step gives nothing more: the
characters of a word, the tokens of a text and the statements of a program.  `Collects` is what
they have in common, so that facts about a step become facts about the whole function once and for
all: what a step does to the state the function does too (`Collects.keeps`), and states that a step
answers in the same way are answered in the same way by the function (`Collects.corresponds`).

`Ends` is what it means for a loop to end after some number of rounds.  Each of the loops ends with
the answer of its function, after a number of rounds that what is left to read bounds.
-/

set_option autoImplicit false

namespace LetExit

/-- Two runs give the same answer and end in states that are related. -/
def Corresponds {α σ : Type} (r : σ → σ → Prop) (first second : α × σ) : Prop :=
  first.1 = second.1 ∧ r first.2 second.2

/-- The answer of a run is the answer of a run that corresponds to it. -/
theorem Corresponds.exists_eq {α σ : Type} {r : σ → σ → Prop} {first second : α × σ}
    (h : Corresponds r first second) {answer : α} {s : σ} (hfirst : first = (answer, s)) :
    ∃ t, second = (answer, t) ∧ r s t := by
  subst hfirst
  obtain ⟨hanswer, hafter⟩ := h
  exact ⟨second.2, Prod.ext hanswer.symm rfl, hafter⟩

section Loops

variable {σ ρ α : Type}

/-! ## Collecting -/

/-- What a function answers for all things to come, given what the first step towards them gives. -/
def unrolled (all : σ → Except Fault (List α) × σ) :
    Except Fault (Option α) × σ → Except Fault (List α) × σ
  | (.ok (some a), t) => ((all t).1.map (a :: ·), (all t).2)
  | (.ok none, t) => (.ok [], t)
  | (.error fault, t) => (.error fault, t)

/-- A function answers what the repetition of a step collects, and every step that gives something
leaves less to read. -/
structure Collects (step : σ → Except Fault (Option α) × σ) (size : σ → Nat)
    (all : σ → Except Fault (List α) × σ) : Prop where
  unroll : ∀ s, all s = unrolled all (step s)
  smaller : ∀ {s t : σ} {a : α}, step s = (.ok (some a), t) → size t < size s

namespace Collects

variable {step : σ → Except Fault (Option α) × σ} {size : σ → Nat}
  {all : σ → Except Fault (List α) × σ}

/-- What every step does to the state, the function does to it. -/
theorem keeps (h : Collects step size all) {r : σ → σ → Prop}
    (htrans : ∀ {s t u : σ}, r s t → r t u → r s u) (hstep : ∀ s, r s (step s).2) (s : σ) :
    r s (all s).2 := by
  induction hsize : size s using Nat.strongRecOn generalizing s with
  | ind n ih =>
    have hfirst := hstep s
    rw [h.unroll s]
    rcases hs : step s with ⟨fault | _ | a, t⟩
    · rwa [hs] at hfirst
    · rwa [hs] at hfirst
    · rw [hs] at hfirst
      have hlt := h.smaller hs
      exact htrans hfirst (ih (size t) (by omega) t rfl)

/-- States that every step answers in the same way are answered in the same way by the function. -/
theorem corresponds (h : Collects step size all) {r : σ → σ → Prop}
    (hstep : ∀ s t, r s t → Corresponds r (step s) (step t)) {s t : σ} (hst : r s t) :
    Corresponds r (all s) (all t) := by
  induction hsize : size s using Nat.strongRecOn generalizing s t with
  | ind n ih =>
    rcases hs : step s with ⟨answer, s'⟩
    obtain ⟨t', ht, hafter⟩ := (hstep s t hst).exists_eq hs
    rw [h.unroll s, h.unroll t, hs, ht]
    rcases answer with fault | _ | a
    · exact ⟨rfl, hafter⟩
    · exact ⟨rfl, hafter⟩
    · have hlt := h.smaller hs
      obtain ⟨hrest, hlast⟩ := ih (size s') (by omega) hafter rfl
      exact ⟨congrArg (Except.map (a :: ·)) hrest, hlast⟩

end Collects

/-! ## Rounds -/

/-- A loop runs its round again and again, from the state that the round leaves, until the round
gives a result.  Started in a state, it ends after some number of rounds with a result. -/
inductive Ends (round : σ → σ ⊕ ρ) : Nat → σ → ρ → Prop
  | stop {s : σ} {r : ρ} : round s = .inr r → Ends round 1 s r
  | again {n : Nat} {s t : σ} {r : ρ} : round s = .inl t → Ends round n t r →
      Ends round (n + 1) s r

/-- A loop ends if every round that goes on makes the state smaller. -/
theorem exists_ends {round : σ → σ ⊕ ρ} (size : σ → Nat) (result : σ → ρ)
    (hstop : ∀ s r, round s = .inr r → result s = r)
    (hagain : ∀ s t, round s = .inl t → size t < size s ∧ result s = result t) (s : σ) :
    ∃ n, n ≤ size s + 1 ∧ Ends round n s (result s) := by
  induction hsize : size s using Nat.strongRecOn generalizing s with
  | ind k ih =>
    cases hround : round s with
    | inr r =>
      rw [hstop s r hround]
      exact ⟨1, by omega, .stop hround⟩
    | inl t =>
      obtain ⟨hlt, hresult⟩ := hagain s t hround
      obtain ⟨n, hn, hends⟩ := ih (size t) (by omega) t rfl
      rw [hresult]
      exact ⟨n + 1, by omega, .again hround hends⟩

/-- A round of a loop that collects what a step gives, one thing after the other, until the step
gives nothing more.  A fault loses what has been collected. -/
def collect (step : σ → Except Fault (Option α) × σ) :
    List α × σ → (List α × σ) ⊕ (Except Fault (List α) × σ)
  | (done, s) =>
    match step s with
    | (.ok (some a), t) => .inl (done ++ [a], t)
    | (.ok none, t) => .inr (.ok done, t)
    | (.error fault, t) => .inr (.error fault, t)

/-- The answer of a function, behind what has been collected in front of it. -/
def resumed (all : σ → Except Fault (List α) × σ) : List α × σ → Except Fault (List α) × σ
  | (done, s) => ((all s).1.map (done ++ ·), (all s).2)

/-- Behind nothing, the answer of a function is the answer itself. -/
theorem resumed_nil (all : σ → Except Fault (List α) × σ) (s : σ) :
    resumed all ([], s) = all s := by
  rw [resumed]
  rcases all s with ⟨_ | _, _⟩ <;> rfl

namespace Collects

variable {step : σ → Except Fault (Option α) × σ} {size : σ → Nat}
  {all : σ → Except Fault (List α) × σ}

/-- The last round gives the answer of the function. -/
theorem resumed_of_stop (h : Collects step size all) {state : List α × σ}
    {r : Except Fault (List α) × σ} (hround : collect step state = .inr r) :
    resumed all state = r := by
  obtain ⟨done, s⟩ := state
  rw [resumed, h.unroll s]
  rw [collect] at hround
  rcases hstep : step s with ⟨fault | _ | a, t⟩ <;> rw [hstep] at hround <;> cases hround
  · rfl
  · exact congrArg (fun rest => (Except.ok rest, t)) (List.append_nil done)

/-- A round that is not the last leaves less to read and does not change the answer to come. -/
theorem smaller_and_resumed_of_again (h : Collects step size all) {state state' : List α × σ}
    (hround : collect step state = .inl state') :
    size state'.2 < size state.2 ∧ resumed all state = resumed all state' := by
  obtain ⟨done, s⟩ := state
  rw [resumed, h.unroll s]
  rw [collect] at hround
  rcases hstep : step s with ⟨fault | _ | a, t⟩ <;> rw [hstep] at hround <;> cases hround
  refine ⟨h.smaller hstep, ?_⟩
  rw [unrolled, resumed]
  rcases (all t).1 with fault | rest
  · rfl
  · have happend : done ++ a :: rest = done ++ [a] ++ rest := by simp
    exact congrArg (fun rest => (Except.ok rest, (all t).2)) happend

/-- A loop that collects what a step gives ends with the answer of the function. -/
theorem ends (h : Collects step size all) (s : σ) :
    ∃ n, n ≤ size s + 1 ∧ Ends (collect step) n ([], s) (all s) := by
  rw [← resumed_nil all s]
  exact exists_ends (fun state => size state.2) (resumed all)
    (fun _ _ => h.resumed_of_stop) (fun _ _ => h.smaller_and_resumed_of_again) ([], s)

end Collects

end Loops

/-! ## The loops of a lexer and of a parser -/

namespace Lexer

/-- A token is searched for round by round. -/
theorem next_eq (l : Lexer) :
    l.next =
      match l.nextRound with
      | .inl m => m.next
      | .inr answer => answer := by
  rw [next.eq_def]
  cases l.nextRound <;> rfl

/-- A word is collected character by character. -/
theorem collects_takeWord : Collects wordStep size takeWord where
  unroll l := by
    rw [takeWord.eq_def]
    rcases l.wordStep with ⟨fault | _ | c, m⟩
    · rfl
    · rfl
    · rw [unrolled]
      dsimp only
      rcases m.takeWord with ⟨_ | _, _⟩ <;> rfl
  smaller := size_lt_of_wordStep

/-- A text is collected token by token. -/
theorem collects_tokenize : Collects tokenStep size tokenize where
  unroll l := by
    rw [tokenize.eq_def]
    rcases l.tokenStep with ⟨fault | _ | token, m⟩
    · rfl
    · rfl
    · rw [unrolled]
      dsimp only
      rcases m.tokenize with ⟨_ | _, _⟩ <;> rfl
  smaller h := size_lt_of_next_ok (tokenStep_eq_ok_some_iff.mp h)

end Lexer

namespace Parser

/-- A program is collected statement by statement. -/
theorem collects_parse : Collects statementStep size parse where
  unroll p := by
    rw [parse.eq_def]
    rcases p.statementStep with ⟨fault | _ | first, q⟩
    · rfl
    · rfl
    · rw [unrolled]
      dsimp only
      rcases q.parse with ⟨_ | _, _⟩ <;> rfl
  smaller := size_lt_of_statementStep

end Parser

end LetExit
