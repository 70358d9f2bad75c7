import LetExit.Proofs.Written

/-!
# Using a generator again

A generator carries its frame and its output from one program to the next.  A statement
that has no code stops a program, and neither it nor what is behind it leaves a trace;
what is in front of it is kept.  So programs given to one generator one after the other
are the parts of one program, made of what is kept of each, and their text is the text
of that program with the prologue in front of every part.
-/

set_option autoImplicit false

namespace LetExit

/-- The statements in front of the first that has no code. -/
def Program.kept (frame : Frame) : Program → Program
  | [] => []
  | s :: later =>
    match s.code frame with
    | .ok (_, after) => s :: Program.kept after later
    | .error _ => []

namespace Generator

/-- The generator after it was given programs one after the other. -/
def after (g : Generator) (programs : List Program) : Generator :=
  programs.foldl (fun g p => (g.generate p).2) g

/-- What is kept of programs that are given to a generator one after the other. -/
def keptParts (g : Generator) : List Program → List Program
  | [] => []
  | p :: later => p.kept g.frame :: (g.generate p).2.keptParts later

/-- What is kept of each program, given the programs before it. -/
theorem getElem?_keptParts (g : Generator) (programs : List Program) (j : Nat) :
    (g.keptParts programs)[j]? =
      programs[j]?.map fun p => p.kept (g.after (programs.take j)).frame := by
  induction programs generalizing g j with
  | nil => rfl
  | cons p later ih =>
    cases j with
    | zero => rfl
    | succ j => exact ih (g.generate p).2 j

end Generator

namespace Program

/-- The statements that are kept are the first ones. -/
theorem kept_isPrefix (frame : Frame) (p : Program) : p.kept frame <+: p := by
  induction p generalizing frame with
  | nil => exact List.prefix_rfl
  | cons s later ih =>
    rw [kept]
    split
    · exact (List.prefix_cons_inj s).mpr (ih _)
    · exact List.nil_prefix

/-- What is kept of a program has code to its end, which is all the code that the program has. -/
theorem stackCode_kept (cells : List String) (p : Program) :
    (stackCode cells (p.kept (.ofNames cells))).outcome = .ok () ∧
    (stackCode cells (p.kept (.ofNames cells))).instructions = (p.stackCode cells).instructions ∧
    (p.stackCode cells).cells = (p.kept (.ofNames cells)).names.reverse ++ cells ∧
    ((p.stackCode cells).outcome = .ok () ↔ p.kept (.ofNames cells) = p) := by
  induction p generalizing cells with
  | nil => exact ⟨rfl, rfl, rfl, iff_of_true rfl rfl⟩
  | cons s later ih =>
    rw [kept, Statement.code_ofNames, stackCode]
    cases hs : s.stackCode cells with
    | error reason => exact ⟨rfl, rfl, rfl, iff_of_false (by simp) (by simp [Except.map])⟩
    | ok code =>
      obtain ⟨hok, hinstructions, hcells, hwhole⟩ := ih (s.binds ++ cells)
      simp only [Except.map]
      rw [stackCode, hs, names_cons, List.reverse_append, s.reverse_binds, List.append_assoc]
      refine ⟨hok, congrArg (code ++ ·) hinstructions, hcells, hwhole.trans ?_⟩
      rw [List.cons.injEq]
      exact (and_iff_right rfl).symm

end Program

namespace Generator

/-- A generator whose sink accepts everything stays one, and its frame is one of names. -/
theorem Accepting.after {g : Generator} (h : g.Accepting) (cells : List String)
    (hframe : g.frame = .ofNames cells) (programs : List Program) :
    (g.after programs).Accepting ∧ ∃ cells, (g.after programs).frame = .ofNames cells := by
  induction programs generalizing g cells with
  | nil => exact ⟨h, cells, hframe⟩
  | cons p later ih =>
    obtain ⟨answer, after, hgenerate, haccepting, hafter, -⟩ := h.generate cells hframe p
    have hstep : g.after (p :: later) = after.after later := by
      rw [Generator.after, List.foldl_cons, hgenerate]
      rfl
    rw [hstep]
    exact ih haccepting _ hafter

/-- The parts have code, piece by piece the code of the program that they make up, and the text of
the generator grows by a file for each piece. -/
theorem Accepting.exists_codes {g : Generator} (h : g.Accepting) (cells : List String)
    (hframe : g.frame = .ofNames cells) (programs : List Program) :
    ∃ codes : List (List Instruction), codes.length = programs.length ∧
      ∀ j, (Program.stackCode cells ((g.keptParts programs).take j).flatten).outcome = .ok () ∧
        (Program.stackCode cells ((g.keptParts programs).take j).flatten).instructions =
          (codes.take j).flatten ∧
        (g.after (programs.take j)).output.text =
          g.output.text ++ (codes.take j).flatMap assemblyFile := by
  induction programs generalizing g cells with
  | nil =>
    refine ⟨[], rfl, fun j => ?_⟩
    simp only [keptParts, List.take_nil]
    exact ⟨rfl, rfl, (List.append_nil _).symm⟩
  | cons p later ih =>
    obtain ⟨answer, after, hgenerate, haccepting, hafter, htext, -⟩ := h.generate cells hframe p
    obtain ⟨hok, hinstructions, hcells, -⟩ := p.stackCode_kept cells
    obtain ⟨codes, hlength, hcodes⟩ := ih haccepting _ hafter
    refine ⟨(p.stackCode cells).instructions :: codes, congrArg (· + 1) hlength, fun j => ?_⟩
    cases j with
    | zero => exact ⟨rfl, rfl, (List.append_nil _).symm⟩
    | succ j =>
      obtain ⟨hoklater, hcode, htextlater⟩ := hcodes j
      rw [hcells] at hoklater hcode
      rw [keptParts, hgenerate, hframe, List.take_succ_cons, List.take_succ_cons,
        List.take_succ_cons, List.flatten_cons, List.flatten_cons, List.flatMap_cons,
        Program.stackCode_append _ hok]
      refine ⟨hoklater, ?_, ?_⟩
      · rw [hinstructions, hcode]
      · rw [← List.append_assoc, ← htext, ← htextlater, Generator.after, List.foldl_cons, hgenerate]
        rfl

end Generator

/-- The lines of several pieces of code, one after the other. -/
theorem instructionLines_flatten (codes : List (List Instruction)) :
    instructionLines codes.flatten = (codes.map instructionLines).flatten := by
  induction codes with
  | nil => rfl
  | cons code later ih =>
    rw [List.flatten_cons, instructionLines_append, ih, List.map_cons, List.flatten_cons]

/-- **Using a generator again is concatenation.**  Let programs be given one after the other to a
generator whose sink takes everything.  There is a text for each of them such that at any time the
texts so far, in a row behind one prologue, are the file of the one program made of what is kept of
each program so far, and with a prologue in front of each they are all bytes that the generator has
written.  A program is kept whole exactly if the generator does not stop in it, and then no byte is
held back after it. -/
theorem after_concatenates (programs : List Program) :
    ∃ parts : List Bytes, parts.length = programs.length ∧
      (∀ j, ∃ sink,
        Program.generate (((Generator.ofSink (.fresh none)).keptParts programs).take j).flatten
          (.fresh none) = (.ok (), sink) ∧
        sink.written = prologue.flatMap Utf8.ofString ++ (parts.take j).flatten) ∧
      (∀ j, ((Generator.ofSink (.fresh none)).after (programs.take j)).output.text =
        (parts.take j).flatMap (prologue.flatMap Utf8.ofString ++ ·)) ∧
      ∀ j p, programs[j]? = some p → ∃ q answer after,
        ((Generator.ofSink (.fresh none)).keptParts programs)[j]? = some q ∧ q <+: p ∧
        ((Generator.ofSink (.fresh none)).after (programs.take j)).generate p = (answer, after) ∧
        (q = p ∧ answer = .ok () ∧ after.output.held = [] ∨
          q ≠ p ∧ ∃ reason, answer = .error (.inconsistent reason)) := by
  have hstart := Generator.accepting_ofSink_fresh
  obtain ⟨codes, hlength, hcodes⟩ := hstart.exists_codes [] rfl programs
  refine ⟨codes.map instructionLines, (List.length_map _).trans hlength, ?_, ?_, ?_⟩
  · intro j
    obtain ⟨hok, hcode, -⟩ := hcodes j
    obtain ⟨sink, hgenerate, hwritten⟩ := Program.generate_fresh hok
    refine ⟨sink, hgenerate, ?_⟩
    rw [hwritten, hcode, assemblyFile_eq, instructionLines_flatten, List.map_take]
  · intro j
    obtain ⟨-, -, htext⟩ := hcodes j
    rw [htext, ← List.map_take, List.flatMap_map]
    exact congrArg ((codes.take j).flatMap ·) (funext assemblyFile_eq)
  · intro j p hp
    obtain ⟨haccepting, cells, hframe⟩ := hstart.after [] rfl (programs.take j)
    obtain ⟨-, -, -, hwhole⟩ := Program.stackCode_kept cells p
    obtain ⟨answer, after, hgenerate, -, -, -, hanswer⟩ := haccepting.generate cells hframe p
    refine ⟨Program.kept (.ofNames cells) p, answer, after, ?_, Program.kept_isPrefix _ p,
      hgenerate, ?_⟩
    · rw [Generator.getElem?_keptParts, hp, ← hframe]
      rfl
    · rcases hanswer with ⟨hok, hanswer, hheld⟩ | ⟨reason, herror, hanswer⟩
      · exact Or.inl ⟨hwhole.mp hok, hanswer, hheld⟩
      · refine Or.inr ⟨fun h => ?_, reason, hanswer⟩
        rw [hwhole.mpr h] at herror
        cases herror

end LetExit
