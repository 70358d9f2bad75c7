import LetExit.Proofs.Resumption

/-!
# Scope and slots

A parser that has come to an end between two statements can be asked for a program again,
and it still knows the names declared before.  A generator carries its frame from one
program to the next.  In a session every program that the parser reads is given to the
generator, and neither of the two looks at the state of the other.

`Session.InStep` is what holds after every round: the names that the parser has declared
and the cells of the generator are those of all programs so far, taken as one program.
-/

set_option autoImplicit false

namespace LetExit

namespace Declarations

/-- New names are counted once each. -/
theorem Holds.size_complete {d : Declarations} {earlier names : List String} (h : d.Holds earlier)
    (hnodup : names.Nodup) (hnew : ∀ x ∈ names, x ∉ earlier) :
    (d.complete names).size = d.size + names.length := by
  induction names generalizing d earlier with
  | nil => rfl
  | cons x later ih =>
    obtain ⟨hx, hlater⟩ := List.nodup_cons.mp hnodup
    have hcontains : d.contains x = false := by
      rw [Std.ExtTreeMap.contains_eq_isSome_getElem?, h x, if_neg (hnew x List.mem_cons_self)]
      rfl
    have hinsert : (d.insert x true).size = d.size + 1 := by
      rw [Std.ExtTreeMap.size_insert, hcontains]
      rfl
    have hrest := ih (h.after (.bind x .hole)) hlater fun y hy => by
      have hyx : y ≠ x := fun heq => hx (heq ▸ hy)
      have hy' := hnew y (List.mem_cons_of_mem x hy)
      simp [Statement.binds, hyx, hy']
    calc (d.complete (x :: later)).size = (d.insert x true).size + later.length := hrest
      _ = d.size + (later.length + 1) := by omega

end Declarations

/-- Reading a program declares its names. -/
theorem Parser.declared_of_parse {p : Parser} {program : Program} (h : p.parse.1 = .ok program) :
    p.parse.2.declared = p.declared.complete program.names := by
  obtain ⟨ts, hahead, hderives, hadmits⟩ := parse_eq_ok_iff.mp h
  rw [← List.append_nil ts, ahead_append_iff] at hahead
  obtain ⟨q, hadvances, ⟨hpeek⟩⟩ := hahead
  -- behind the program only the end of the stream is left
  have hlast := run_peek_withDeclared q (p.declared.complete program.names)
  rw [hpeek] at hlast
  rw [parse_of_advances hadvances hderives hadmits, parse_eq, hlast]
  rfl

namespace Program

/-- A program whose nodes are all there has code on a stack that holds all names it refers to. -/
theorem outcome_stackCode_of_scopedAfter {p : Program} {cells : List String}
    (hcomplete : p.Complete) (hscoped : p.ScopedAfter cells) :
    (p.stackCode cells).outcome = .ok () := by
  induction p generalizing cells with
  | nil => rfl
  | cons s later ih =>
    obtain ⟨hs, hlater⟩ := hscoped
    rw [stackCode]
    cases hcode : s.stackCode cells with
    | ok code => exact ih (fun t ht => hcomplete t (List.mem_cons_of_mem s ht)) hlater
    | error reason =>
      obtain ⟨hne, hexpr⟩ := hcomplete s List.mem_cons_self
      rcases Statement.stackCode_eq_error_iff.mp hcode with ⟨h, -⟩ | ⟨h, -⟩ | ⟨x, hx, hout, -⟩
      · exact absurd h hne
      · exact absurd h hexpr
      · exact absurd (hs x hx) hout

/-- A program that has code leaves its names on the stack, above the cells before it. -/
theorem cells_stackCode {p : Program} {cells : List String}
    (h : (p.stackCode cells).outcome = .ok ()) :
    (p.stackCode cells).cells = p.names.reverse ++ cells := by
  have happend := congrArg Code.cells (stackCode_append [] h)
  rwa [List.append_nil] at happend

end Program

namespace Frame

/-- A frame is as deep as it has cells. -/
theorem depth_ofNames (cells : List String) : (ofNames cells).depth = cells.length := by
  induction cells with
  | nil => rfl
  | cons x below ih =>
    show (ofNames below).depth + 1 = _
    rw [ih, List.length_cons]
    omega

/-- The names with a slot are the names of the cells. -/
theorem mem_slots_ofNames_iff {cells : List String} {x : String} :
    x ∈ (ofNames cells).slots ↔ x ∈ cells := by
  induction cells with
  | nil => simp [ofNames, empty]
  | cons y below ih =>
    rw [ofNames, Std.ExtTreeMap.mem_insert, ih, List.mem_cons, Std.compare_eq_iff_eq, eq_comm]

end Frame

namespace Generator

/-- Finishing a program does not touch the frame. -/
theorem frame_finish (g : Generator) : g.finish.2.frame = g.frame := by
  unfold finish
  split
  · rfl
  · split <;> rfl

/-- A generator does not stop in a program that has code to its end, and then it holds the cells
of the program on top of those it had. -/
theorem generate_of_outcome_ok {g : Generator} {p : Program} {cells : List String}
    (hframe : g.frame = .ofNames cells) (h : (p.stackCode cells).outcome = .ok ()) :
    (∀ reason, (g.generate p).1 ≠ .error (.inconsistent reason)) ∧
      (g.generate p).2.frame = .ofNames (p.names.reverse ++ cells) := by
  rw [generate_eq g p cells hframe, h]
  refine ⟨fun reason hstop => ?_, ?_⟩
  · exact finish_ne_inconsistent (Prod.ext hstop rfl)
  · rw [frame_finish, ← Program.cells_stackCode h]
    rfl

end Generator

/-- A parser and a generator, and the programs that were read by the one and given to the other. -/
structure Session where
  parser : Parser
  generator : Generator
  programs : List Program

namespace Session

/-- A session in which nothing has been read yet. -/
def start (stream : TokenStream) (sink : Sink) : Session :=
  ⟨.ofStream stream, .ofSink sink, []⟩

/-- The session after the parser has read a program and the generator was given it. -/
def after (s : Session) (program : Program) : Session :=
  ⟨s.parser.parse.2, (s.generator.generate program).2, s.programs ++ [program]⟩

/-- The sessions that a number of rounds lead to, in each of which the parser reads a program. -/
inductive Reached (stream : TokenStream) (sink : Sink) : Session → Prop
  | start : Reached stream sink (start stream sink)
  | round {s : Session} {program : Program} : Reached stream sink s →
      s.parser.parse.1 = .ok program → Reached stream sink (s.after program)

/-- The names bound by all programs so far, the latest first. -/
def cells (s : Session) : List String :=
  (Program.names s.programs.flatten).reverse

/-- What the parser knows, what the generator knows, and what the programs so far come to. -/
structure InStep (s : Session) : Prop where
  declared : s.parser.declared.Holds s.cells
  size_declared : s.parser.declared.size = s.cells.length
  frame : s.generator.frame = .ofNames s.cells
  nodup : (Program.names s.programs.flatten).Nodup
  scopedAfter : Program.ScopedAfter [] s.programs.flatten

/-- A session starts in step. -/
theorem inStep_start (stream : TokenStream) (sink : Sink) : (start stream sink).InStep where
  declared := Declarations.holds_empty
  size_declared := rfl
  frame := rfl
  nodup := List.nodup_nil
  scopedAfter := trivial

/-- The names of a program are on top of those before it. -/
theorem cells_after (s : Session) (program : Program) :
    (s.after program).cells = program.names.reverse ++ s.cells := by
  rw [cells, after, List.flatten_append, List.flatten_singleton, Program.names_append,
    List.reverse_append, cells]

namespace InStep

variable {s : Session} {program : Program}

/-- What is read next has code on the cells that are there. -/
theorem outcome_stackCode (h : s.InStep) (hparse : s.parser.parse.1 = .ok program) :
    (program.stackCode s.cells).outcome = .ok () := by
  obtain ⟨ts, -, hderives, hadmits⟩ := Parser.parse_eq_ok_iff.mp hparse
  obtain ⟨-, -, hscoped⟩ := h.declared.admitsAll_iff.mp hadmits
  exact Program.outcome_stackCode_of_scopedAfter hderives.complete hscoped

/-- A round in which the parser reads a program keeps the session in step. -/
theorem after (h : s.InStep) (hparse : s.parser.parse.1 = .ok program) :
    (s.after program).InStep := by
  obtain ⟨ts, -, -, hadmits⟩ := Parser.parse_eq_ok_iff.mp hparse
  obtain ⟨hnodup, hnew, hscoped⟩ := h.declared.admitsAll_iff.mp hadmits
  have hdeclared : (s.after program).parser.declared = s.parser.declared.complete program.names :=
    Parser.declared_of_parse hparse
  have hcells := s.cells_after program
  have hprograms : (s.after program).programs.flatten = s.programs.flatten ++ program := by
    rw [Session.after, List.flatten_append, List.flatten_singleton]
  constructor
  · rw [hdeclared, hcells]
    exact h.declared.complete program.names
  · rw [hdeclared, hcells, h.declared.size_complete hnodup hnew, h.size_declared,
      List.length_append, List.length_reverse, Nat.add_comm]
  · rw [hcells]
    exact (Generator.generate_of_outcome_ok h.frame (h.outcome_stackCode hparse)).2
  · rw [hprograms, Program.names_append, List.nodup_append]
    refine ⟨h.nodup, hnodup, fun x hx y hy hxy => ?_⟩
    exact hnew y hy (List.mem_reverse.mpr (hxy ▸ hx))
  · rw [hprograms, Program.scopedAfter_append_iff, List.append_nil]
    exact ⟨h.scopedAfter, hscoped⟩

end InStep

/-- Every session is in step after any number of rounds. -/
theorem Reached.inStep {stream : TokenStream} {sink : Sink} {s : Session}
    (h : Reached stream sink s) : s.InStep := by
  induction h with
  | start => exact inStep_start stream sink
  | round _ hparse ih => exact ih.after hparse

end Session

/-- **Scope and slots stay in step.**  Let a parser over any stream be asked for programs again and
again, and let every program that it reads be given to one generator, with any sink.  As long as the
parser reads programs, the generator never stops in one of them.  After every round the names that
can be referred to are the names that have a slot, no declared name is left incomplete, and the
stack is as deep as there are declared names.  All programs so far, taken as one program, bind no
name twice and refer only to names that are bound before. -/
theorem scope_matches_slots {stream : TokenStream} {sink : Sink} {s : Session}
    (h : Session.Reached stream sink s) :
    (∀ program, s.parser.parse.1 = .ok program →
      ∀ reason, (s.generator.generate program).1 ≠ .error (.inconsistent reason)) ∧
    (∀ x : String, s.parser.declared[x]? = some true ↔ x ∈ s.generator.frame.slots) ∧
    (∀ x : String, s.parser.declared[x]? ≠ some false) ∧
    s.generator.frame.depth = s.parser.declared.size ∧
    (Program.names s.programs.flatten).Nodup ∧ Program.Scoped s.programs.flatten := by
  obtain ⟨hdeclared, hsize, hframe, hnodup, hscoped⟩ := h.inStep
  refine ⟨fun program hparse => ?_, fun x => ?_, fun x => ?_, ?_, ?_, ?_⟩
  · exact (Generator.generate_of_outcome_ok hframe (h.inStep.outcome_stackCode hparse)).1
  · rw [hdeclared x, hframe, Frame.mem_slots_ofNames_iff]
    split <;> simp_all
  · rw [hdeclared x]
    split <;> simp
  · rw [hframe, Frame.depth_ofNames, hsize]
  · exact hnodup
  · exact Program.scoped_iff_scopedAfter.mpr hscoped

/-- A source that reports an end between two programs, of which the second refers to a name of the
first. -/
def Session.twoPrograms : TokenStream :=
  .lexer (.ofInput (.ofDeliveries [.bytes (Utf8.ofString "let x = 5;"), .interruption .ended,
    .bytes (Utf8.ofString "let y = x; exit(y);")]))

/-- Both programs are read and have code, although the sink takes only ten bytes. -/
theorem scope_matches_slots_two_programs :
    ∃ s : Session, Session.Reached Session.twoPrograms (.fresh (some (10, .short))) s ∧
      s.programs = [[.bind "x" (.literal 5)], [.bind "y" (.name "x"), .exit (.name "y")]] ∧
      (∀ x : String, s.parser.declared[x]? = some true ↔ x ∈ s.generator.frame.slots) ∧
      s.generator.frame.depth = s.parser.declared.size ∧
      (Program.names s.programs.flatten).Nodup ∧ Program.Scoped s.programs.flatten := by
  have hfirst : (Session.start Session.twoPrograms (.fresh (some (10, .short)))).parser.parse.1 =
      .ok [.bind "x" (.literal 5)] := by
    with_unfolding_all rfl
  have hsecond : ((Session.start Session.twoPrograms (.fresh (some (10, .short)))).after
      [.bind "x" (.literal 5)]).parser.parse.1 =
      .ok [.bind "y" (.name "x"), .exit (.name "y")] := by
    with_unfolding_all rfl
  have hreached := Session.Reached.round (.round .start hfirst) hsecond
  obtain ⟨-, hslots, -, hdepth, hnodup, hscoped⟩ := scope_matches_slots hreached
  exact ⟨_, hreached, rfl, hslots, hdepth, hnodup, hscoped⟩

end LetExit
