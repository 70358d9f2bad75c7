import LetExit.Proofs.Language
import LetExit.Proofs.Written

/-!
# Inconsistencies

A generator stops at a statement that has no code.  Which statements have none can be
read off the program alone (`Program.Complaint`), and it is the first of them that a
generator names, whatever its sink does.

A program that was read from a text has no such statement.  The reader of a program keeps
track of names by itself, and knows nothing of the cells of a generator: what joins the
two is that it lets only scoped programs pass.
-/

set_option autoImplicit false

namespace LetExit

/-- What there is to say about the statement at an index, if it has no code: it is missing, its
expression is missing, or its expression is a name that no `let` of smaller index binds. -/
inductive Program.Complaint (p : Program) (i : Nat) : String → Prop
  | statement : p[i]? = some .hole → p.Complaint i "unknown statement type <nil>"
  | expression {s : Statement} : p[i]? = some s → s.expr? = some .hole →
      p.Complaint i "unknown expression type <nil>"
  | name {s : Statement} {x : String} : p[i]? = some s → s.expr? = some (.name x) →
      (∀ j < i, ∀ e, p[j]? ≠ some (.bind x e)) →
      p.Complaint i ("identifier " ++ x ++ " has no stack slot")

/-- Writing a program stops at an inconsistency with the given message. -/
def CompileFault.Stops (answer : Except CompileFault Unit) (text : String) : Prop :=
  ∃ reason, answer = .error (.generate (.inconsistent reason)) ∧
    (CompileFault.generate (.inconsistent reason)).message = text

/-- Finishing can fail to write, but it finds no inconsistency. -/
theorem Generator.finish_ne_inconsistent {g after : Generator} {reason : Inconsistency} :
    g.finish ≠ (.error (.inconsistent reason), after) := by
  intro h
  unfold finish at h
  split at h
  · cases h
  · split at h <;> cases h

namespace Program

/-- The complaints about a program are the messages of its defects. -/
theorem complaint_iff {p : Program} {i : Nat} {text : String} :
    p.Complaint i text ↔ ∃ reason, p.DefectAt i reason ∧ reason.message = text := by
  constructor
  · intro h
    cases h with
    | statement hs => exact ⟨_, .missingStatement hs, rfl⟩
    | expression hs he => exact ⟨_, .missingExpression hs he, rfl⟩
    | name hs he hx => exact ⟨_, .unresolved hs he hx, rfl⟩
  · rintro ⟨reason, hdefect, rfl⟩
    cases hdefect with
    | missingStatement hs => exact .statement hs
    | missingExpression hs he => exact .expression hs he
    | unresolved hs he hx => exact .name hs he hx

/-- Among the statements that give cause for complaint there is a first. -/
theorem exists_first_complaint {p : Program} {i : Nat} {text : String} (h : p.Complaint i text) :
    ∃ first text, p.Complaint first text ∧ ∀ j < first, ∀ other, ¬p.Complaint j other := by
  induction i using Nat.strongRecOn generalizing text with
  | ind i ih =>
    by_cases hearlier : ∃ j < i, ∃ other, p.Complaint j other
    · obtain ⟨j, hj, other, hother⟩ := hearlier
      exact ih j hj hother
    · refine ⟨i, text, h, fun j hj other hother => ?_⟩
      exact hearlier ⟨j, hj, other, hother⟩

/-- Whether and why writing stops at an inconsistency does not depend on the sink. -/
theorem generate_eq_inconsistent_iff {p : Program} {sink : Sink} {reason : Inconsistency} :
    (p.generate sink).1 = .error (.generate (.inconsistent reason)) ↔
      (p.stackCode []).outcome = .error reason := by
  rw [generate, Generator.generate_eq _ p [] rfl]
  cases (p.stackCode []).outcome with
  | error found =>
    dsimp only
    rw [Except.error.injEq, CompileFault.generate.injEq, GenerateFault.inconsistent.injEq,
      Except.error.injEq]
  | ok =>
    constructor
    · intro h
      split at h
      · cases h
      · rename_i fault after hfinish
        obtain rfl := CompileFault.generate.inj (Except.error.inj h)
        exact absurd hfinish Generator.finish_ne_inconsistent
    · intro h
      cases h

/-- Writing stops at the first statement that has no code, with what there is to say about it. -/
theorem stops_generate_iff {p : Program} {sink : Sink} {text : String} :
    CompileFault.Stops (p.generate sink).1 text ↔
      ∃ i, p.Complaint i text ∧ ∀ j < i, ∀ other, ¬p.Complaint j other := by
  -- no complaint in front of an index is the same as no defect there
  have hnone (i : Nat) :
      (∀ j < i, ∀ other, ¬p.Complaint j other) ↔ ∀ j < i, ∀ other, ¬p.DefectAt j other := by
    simp only [complaint_iff, not_exists, not_and]
    constructor
    · intro h j hj reason hdefect
      exact h j hj _ reason hdefect rfl
    · intro h j hj _ reason hdefect
      exact absurd hdefect (h j hj reason)
  constructor
  · rintro ⟨reason, hanswer, rfl⟩
    rw [generate_eq_inconsistent_iff, outcome_stackCode_eq_error_iff] at hanswer
    obtain ⟨i, hdefect, hfirst⟩ := hanswer
    exact ⟨i, complaint_iff.mpr ⟨reason, hdefect, rfl⟩, (hnone i).mpr hfirst⟩
  · rintro ⟨i, hcomplaint, hfirst⟩
    obtain ⟨reason, hdefect, rfl⟩ := complaint_iff.mp hcomplaint
    refine ⟨reason, ?_, rfl⟩
    rw [generate_eq_inconsistent_iff, outcome_stackCode_eq_error_iff]
    exact ⟨i, hdefect, (hnone i).mp hfirst⟩

end Program

/-- A program that was read has code. -/
theorem Program.outcome_stackCode_of_parse {input : Input} {p : Program}
    (h : parse input = .ok p) : (p.stackCode []).outcome = .ok () :=
  outcome_stackCode_eq_ok (complete_of_parse h) (scoped_of_parse h)

/-- Compiling a text never stops with a complaint. -/
theorem not_stops_compile (input : Input) (sink : Sink) (text : String) :
    ¬CompileFault.Stops (compile input sink).1 text := by
  rintro ⟨reason, hanswer, -⟩
  rw [compile] at hanswer
  split at hanswer
  · rename_i p hparse
    rw [Program.generate_eq_inconsistent_iff, Program.outcome_stackCode_of_parse hparse] at hanswer
    cases hanswer
  · cases hanswer

/-- A sink is handed something exactly if the text was read. -/
theorem attempts_compile_eq_iff (input : Input) (sink : Sink) :
    (compile input sink).2.attempts = sink.attempts ↔
      ∃ fault, Program.parse input = .error fault := by
  rw [compile]
  cases hparse : Program.parse input with
  | error fault => exact ⟨fun _ => ⟨fault, rfl⟩, fun _ => rfl⟩
  | ok p =>
    have hlt := Program.lt_attempts_generate (Program.outcome_stackCode_of_parse hparse) sink
    constructor
    · intro hsame
      dsimp only at hsame
      rw [hsame] at hlt
      exact absurd hlt (Nat.lt_irrefl _)
    · rintro ⟨fault, hfault⟩
      cases hfault

/-- For a tree that need not come from a text, writing stops at an inconsistency exactly if some
statement has no code, and it names the first of them.  For a text from any source and any sink,
compiling never stops at an inconsistency, and it leaves the sink alone exactly if the text was
refused. -/
theorem stops_only_at_complaints :
    (∀ (p : Program) (sink : Sink),
      ((∃ text, CompileFault.Stops (p.generate sink).1 text) ↔ ∃ i text, p.Complaint i text) ∧
      ∀ text, CompileFault.Stops (p.generate sink).1 text ↔
        ∃ i, p.Complaint i text ∧ ∀ j < i, ∀ other, ¬p.Complaint j other) ∧
    (∀ (input : Input) (sink : Sink),
      (∀ text, ¬CompileFault.Stops (compile input sink).1 text) ∧
      ((compile input sink).2.attempts = sink.attempts ↔
        ∃ fault, Program.parse input = .error fault)) := by
  refine ⟨fun p sink => ⟨?_, fun text => Program.stops_generate_iff⟩, fun input sink =>
    ⟨not_stops_compile input sink, attempts_compile_eq_iff input sink⟩⟩
  constructor
  · rintro ⟨text, hstops⟩
    obtain ⟨i, hcomplaint, -⟩ := Program.stops_generate_iff.mp hstops
    exact ⟨i, text, hcomplaint⟩
  · rintro ⟨i, text, hcomplaint⟩
    obtain ⟨first, text, hfirst⟩ := Program.exists_first_complaint hcomplaint
    exact ⟨text, Program.stops_generate_iff.mpr ⟨first, hfirst⟩⟩

end LetExit
