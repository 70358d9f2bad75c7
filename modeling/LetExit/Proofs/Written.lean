import LetExit.Compile
import LetExit.Proofs.StackCode

/-!
# What reaches a sink

Text goes to a sink through a buffer.  As long as the sink accepts everything, the
bytes it has accepted followed by those held back are all the bytes written so far,
so a program that has code to its end leaves exactly its assembly file
(`Program.generate_fresh`).

Whatever the sink does, it is handed at least one block: `Output.Touched` says that
there is something to hand over, or that it has been handed over already, and no
fault comes from anywhere but a block (`Program.lt_attempts_generate`).
-/

set_option autoImplicit false

namespace LetExit

/-- The bytes of an assembly file with the given instructions. -/
def assemblyFile (code : List Instruction) : Bytes :=
  (prologue ++ code.map Instruction.line).flatMap Utf8.ofString

/-- The bytes of the lines of instructions. -/
def instructionLines (code : List Instruction) : Bytes :=
  (code.map Instruction.line).flatMap Utf8.ofString

/-- The lines of code, one after the other. -/
theorem instructionLines_append (code later : List Instruction) :
    instructionLines (code ++ later) = instructionLines code ++ instructionLines later := by
  rw [instructionLines, List.map_append, List.flatMap_append]
  rfl

/-- An assembly file is an opening and the lines of the code. -/
theorem assemblyFile_eq (code : List Instruction) :
    assemblyFile code = prologue.flatMap Utf8.ofString ++ instructionLines code :=
  List.flatMap_append

namespace Output

/-- All bytes that were written, handed over or not. -/
def text (output : Output) : Bytes :=
  output.sink.written ++ output.held

/-- The sink takes everything, and so there was no fault. -/
def Accepting (output : Output) : Prop :=
  output.sink.answer = Sink.upTo none ∧ output.failure = none

/-- A sink without a limit takes every block. -/
theorem write_of_upTo_none {sink : Sink} (h : sink.answer = Sink.upTo none) (block : Bytes) :
    sink.write block =
      (.ok (), ⟨sink.answer, sink.written ++ block, sink.attempts ++ [block.length]⟩) := by
  simp only [Sink.write, h, Sink.upTo]

/-- A block is handed over to a sink without a limit as it is. -/
theorem drain_of_upTo_none {sink : Sink} (h : sink.answer = Sink.upTo none) (pending : Bytes) :
    ∃ after, drain sink pending = (.ok (), after) ∧ after.Accepting ∧
      after.text = sink.written ++ pending := by
  fun_induction drain sink pending with
  | case1 sink pending hfits => exact ⟨_, rfl, ⟨h, rfl⟩, rfl⟩
  | case2 sink pending hlong sink' hwrite ih =>
    rw [write_of_upTo_none h] at hwrite
    obtain ⟨-, rfl⟩ := Prod.mk.inj hwrite
    obtain ⟨after, hdrain, haccepting, htext⟩ := ih h
    refine ⟨after, hdrain, haccepting, ?_⟩
    rw [htext, List.append_assoc, List.take_append_drop]
  | case3 sink pending hlong fault sink' hwrite =>
    rw [write_of_upTo_none h] at hwrite
    cases hwrite

/-- Where the sink takes everything, writing succeeds and adds the bytes. -/
theorem Accepting.write {output : Output} (h : output.Accepting) (bytes : Bytes) :
    ∃ after, output.write bytes = (.ok (), after) ∧ after.Accepting ∧
      after.text = output.text ++ bytes := by
  obtain ⟨after, hdrain, haccepting, htext⟩ := drain_of_upTo_none h.1 (output.held ++ bytes)
  refine ⟨after, ?_, haccepting, ?_⟩
  · rw [Output.write, h.2]
    exact hdrain
  · rw [htext, text, List.append_assoc]

/-- Where the sink takes everything, flushing succeeds and leaves nothing held. -/
theorem Accepting.flush {output : Output} (h : output.Accepting) :
    ∃ after, output.flush = (.ok (), after) ∧ after.Accepting ∧ after.held = [] ∧
      after.text = output.text := by
  rw [Output.flush, h.2]
  dsimp only
  split
  · rename_i hempty
    exact ⟨output, rfl, h, List.isEmpty_iff.mp hempty, rfl⟩
  · rw [write_of_upTo_none h.1]
    exact ⟨_, rfl, ⟨h.1, rfl⟩, rfl, List.append_nil _⟩

end Output

namespace Generator

/-- The sink takes everything, and so there was no fault. -/
def Accepting (g : Generator) : Prop :=
  g.output.Accepting ∧ g.failure = none

/-- A generator over a new sink without a limit has met no fault. -/
theorem accepting_ofSink_fresh : (ofSink (.fresh none)).Accepting :=
  ⟨⟨rfl, rfl⟩, rfl⟩

/-- Where the sink takes everything, a line is added to the text. -/
theorem Accepting.emit {g : Generator} (h : g.Accepting) (line : String) :
    (g.emit line).Accepting ∧ (g.emit line).output.text = g.output.text ++ Utf8.ofString line := by
  obtain ⟨after, hwrite, haccepting, htext⟩ := h.1.write (Utf8.ofString line)
  simp only [Generator.emit, h.2, hwrite]
  exact ⟨⟨haccepting, rfl⟩, htext⟩

/-- Where the sink takes everything, lines are added to the text in order. -/
theorem Accepting.foldl_emit {g : Generator} (h : g.Accepting) (lines : List String) :
    (lines.foldl Generator.emit g).Accepting ∧
      (lines.foldl Generator.emit g).output.text =
        g.output.text ++ lines.flatMap Utf8.ofString := by
  induction lines generalizing g with
  | nil => simpa using h
  | cons line later ih =>
    obtain ⟨haccepting, htext⟩ := h.emit line
    rw [List.foldl_cons, List.flatMap_cons, ← List.append_assoc, ← htext]
    exact ih haccepting

/-- Where the sink takes everything, a program adds its assembly file to the text. -/
theorem Accepting.afterLines {g : Generator} (h : g.Accepting) (code : Program.Code) :
    (g.afterLines code).Accepting ∧
      (g.afterLines code).output.text = g.output.text ++ assemblyFile code.instructions :=
  h.foldl_emit (prologue ++ code.instructions.map Instruction.line)

/-- Where the sink takes everything, finishing succeeds and leaves nothing held. -/
theorem Accepting.finish {g : Generator} (h : g.Accepting) :
    ∃ after, g.finish = (.ok (), after) ∧ after.Accepting ∧ after.frame = g.frame ∧
      after.output.held = [] ∧ after.output.text = g.output.text := by
  obtain ⟨after, hflush, haccepting, hheld, htext⟩ := h.1.flush
  simp only [Generator.finish, h.2, hflush]
  exact ⟨_, rfl, ⟨haccepting, rfl⟩, rfl, hheld, htext⟩

/-- A generator whose sink takes everything adds the file of the code that a program has.  If the
program has code to its end, nothing is held back. -/
theorem Accepting.generate {g : Generator} (h : g.Accepting) (cells : List String)
    (hframe : g.frame = .ofNames cells) (p : Program) :
    ∃ answer after, g.generate p = (answer, after) ∧ after.Accepting ∧
      after.frame = .ofNames (p.stackCode cells).cells ∧
      after.output.text = g.output.text ++ assemblyFile (p.stackCode cells).instructions ∧
      ((p.stackCode cells).outcome = .ok () ∧ answer = .ok () ∧ after.output.held = [] ∨
        ∃ reason, (p.stackCode cells).outcome = .error reason ∧
          answer = .error (.inconsistent reason)) := by
  obtain ⟨hlines, htext⟩ := h.afterLines (p.stackCode cells)
  rw [Generator.generate_eq g p cells hframe]
  cases houtcome : (p.stackCode cells).outcome with
  | error reason => exact ⟨_, _, rfl, hlines, rfl, htext, Or.inr ⟨reason, rfl, rfl⟩⟩
  | ok =>
    obtain ⟨after, hfinish, haccepting, hafter, hheld, hflushed⟩ := hlines.finish
    refine ⟨.ok (), after, hfinish, haccepting, hafter, ?_, Or.inl ⟨rfl, rfl, hheld⟩⟩
    rw [hflushed, htext]

end Generator

/-- A program that has code to its end is written whole to a sink that takes everything. -/
theorem Program.generate_fresh {p : Program} (h : (p.stackCode []).outcome = .ok ()) :
    ∃ sink, p.generate (.fresh none) = (.ok (), sink) ∧
      sink.written = assemblyFile (p.stackCode []).instructions := by
  obtain ⟨answer, after, hgenerate, -, -, htext, ⟨-, rfl, hheld⟩ | ⟨reason, houtcome, -⟩⟩ :=
    Generator.accepting_ofSink_fresh.generate [] rfl p
  · refine ⟨after.output.sink, ?_, ?_⟩
    · rw [Program.generate, hgenerate]
    · rw [Output.text, hheld, List.append_nil] at htext
      exact htext
  · rw [h] at houtcome
    cases houtcome

namespace Output

/-- More blocks than the given number have been handed over. -/
def Handed (count : Nat) (output : Output) : Prop :=
  count < output.sink.attempts.length

/-- More blocks than the given number have been handed over, or will be. -/
structure Touched (count : Nat) (output : Output) : Prop where
  /-- The number was not larger from the start. -/
  le_attempts : count ≤ output.sink.attempts.length
  /-- Bytes that are not handed over are held. -/
  held_or_handed : output.held ≠ [] ∨ output.Handed count
  /-- Only a block can be the cause of a fault. -/
  handed_of_failure : output.failure ≠ none → output.Handed count

/-- A block that is handed over is one more. -/
theorem lt_attempts_write {sink : Sink} {count : Nat} (h : count ≤ sink.attempts.length)
    (block : Bytes) : count < (sink.write block).2.attempts.length := by
  have hattempts : (sink.write block).2.attempts = sink.attempts ++ [block.length] := by
    simp only [Sink.write]
    split <;> rfl
  rw [hattempts, List.length_append, List.length_singleton]
  omega

/-- Draining some bytes, or draining after a block, leaves an output that is touched. -/
theorem touched_drain {sink : Sink} {pending : Bytes} {count : Nat}
    (hle : count ≤ sink.attempts.length)
    (h : pending ≠ [] ∨ count < sink.attempts.length) :
    (drain sink pending).2.Touched count ∧
      ((drain sink pending).1 ≠ .ok () → (drain sink pending).2.Handed count) := by
  fun_induction drain sink pending with
  | case1 sink pending hfits => exact ⟨⟨hle, h, by simp⟩, by simp⟩
  | case2 sink pending hlong sink' hwrite ih =>
    have hlt := lt_attempts_write hle (pending.take capacity)
    rw [hwrite] at hlt
    exact ih (Nat.le_of_lt hlt) (Or.inr hlt)
  | case3 sink pending hlong fault sink' hwrite =>
    have hlt := lt_attempts_write hle (pending.take capacity)
    rw [hwrite] at hlt
    exact ⟨⟨Nat.le_of_lt hlt, Or.inr hlt, fun _ => hlt⟩, fun _ => hlt⟩

/-- Writing keeps an output touched, and a fault comes only from a block. -/
theorem Touched.write {output : Output} {count : Nat} (h : output.Touched count) (bytes : Bytes) :
    (output.write bytes).2.Touched count ∧
      ((output.write bytes).1 ≠ .ok () → (output.write bytes).2.Handed count) := by
  rw [Output.write]
  split
  · rename_i fault hfailure
    exact ⟨h, fun _ => h.handed_of_failure (by simp [hfailure])⟩
  · apply touched_drain h.le_attempts
    rcases h.held_or_handed with hheld | hhanded
    · exact Or.inl (by simp [hheld])
    · exact Or.inr hhanded

/-- Flushing an output that is touched hands over a block. -/
theorem Touched.handed_flush {output : Output} {count : Nat} (h : output.Touched count) :
    output.flush.2.Handed count := by
  rw [Output.flush]
  split
  · rename_i fault hfailure
    exact h.handed_of_failure (by simp [hfailure])
  · split
    · rename_i hempty
      rcases h.held_or_handed with hheld | hhanded
      · exact absurd (List.isEmpty_iff.mp hempty) hheld
      · exact hhanded
    · have hlt := lt_attempts_write h.le_attempts output.held
      split <;> rename_i hwrite <;> rw [hwrite] at hlt <;> exact hlt

end Output

namespace Generator

/-- The output of the generator is touched, and only a block can be the cause of a fault. -/
def Touched (count : Nat) (g : Generator) : Prop :=
  g.output.Touched count ∧ (g.failure ≠ none → g.output.Handed count)

/-- A line touches a generator if its bytes touch the output. -/
theorem touched_emit {g : Generator} {count : Nat} {line : String} (hfailure : g.failure = none)
    (h : (g.output.write (Utf8.ofString line)).2.Touched count ∧
      ((g.output.write (Utf8.ofString line)).1 ≠ .ok () →
        (g.output.write (Utf8.ofString line)).2.Handed count)) :
    (g.emit line).Touched count := by
  obtain ⟨htouched, hhanded⟩ := h
  rw [Generator.emit, hfailure]
  dsimp only
  split
  · rename_i after hwrite
    rw [hwrite] at htouched
    exact ⟨htouched, by simp⟩
  · rename_i fault after hwrite
    rw [hwrite] at htouched hhanded
    exact ⟨htouched, fun _ => hhanded (by simp)⟩

/-- Writing a line keeps a generator touched. -/
theorem Touched.emit {g : Generator} {count : Nat} (h : g.Touched count) (line : String) :
    (g.emit line).Touched count := by
  cases hfailure : g.failure with
  | none => exact touched_emit hfailure (h.1.write (Utf8.ofString line))
  | some fault =>
    rw [Generator.emit, hfailure]
    exact h

/-- Writing lines keeps a generator touched. -/
theorem Touched.foldl_emit {g : Generator} {count : Nat} (h : g.Touched count)
    (lines : List String) : (lines.foldl Generator.emit g).Touched count := by
  induction lines generalizing g with
  | nil => exact h
  | cons line later ih => exact ih (h.emit line)

/-- Finishing a generator that is touched hands over a block. -/
theorem Touched.handed_finish {g : Generator} {count : Nat} (h : g.Touched count) :
    g.finish.2.output.Handed count := by
  have hflush := h.1.handed_flush
  rw [Generator.finish]
  split
  · rename_i fault hfailure
    exact h.2 (by simp [hfailure])
  · split <;> rename_i hout <;> rw [hout] at hflush <;> exact hflush

end Generator

/-- Whatever a sink does, a program that has code to its end hands it a block. -/
theorem Program.lt_attempts_generate {p : Program} (h : (p.stackCode []).outcome = .ok ())
    (sink : Sink) : sink.attempts.length < (p.generate sink).2.attempts.length := by
  -- the first line of the file leaves something to hand over
  have hline : Utf8.ofString "global _start\n" ≠ [] := by decide
  have hfirst : ((Generator.ofSink sink).emit "global _start\n").Touched sink.attempts.length :=
    Generator.touched_emit rfl (Output.touched_drain (Nat.le_refl _) (Or.inl hline))
  have hall : ((Generator.ofSink sink).afterLines (p.stackCode [])).Touched sink.attempts.length :=
    hfirst.foldl_emit (prologue.tail ++ (p.stackCode []).instructions.map Instruction.line)
  have hhanded := hall.handed_finish
  rw [Program.generate, Generator.generate_eq _ p [] rfl, h]
  dsimp only
  split <;> rename_i hfinish <;> rw [hfinish] at hhanded <;> exact hhanded

end LetExit
