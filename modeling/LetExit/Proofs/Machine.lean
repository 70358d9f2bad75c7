import LetExit.Proofs.Decimal
import LetExit.Proofs.Utf8
import LetExit.Proofs.Written

/-!
# A machine for assembly files

`Assembly.read?` reads an assembly file line by line into instructions.  It knows the
five instructions that generated code consists of, and it undoes the writing of a
file (`Assembly.read?_assemblyFile`).

`Machine` runs instructions.  It has two registers, a stack of 64-bit words and a record
of the system calls made so far.  It is stuck where an instruction asks for a word that
is not there: a pop from the empty stack, or a cell whose offset is negative, between
two cells, or outside the stack.
-/

set_option autoImplicit false

namespace LetExit

namespace Assembly

/-- The lines of a text. -/
def lines : List Char → List (List Char)
  | [] => []
  | c :: later =>
    if c = '\n' then [] :: lines later
    else match lines later with
      | [] => [[c]]
      | line :: rest => (c :: line) :: rest

/-- What follows a given start of a line. -/
def after? : List Char → List Char → Option (List Char)
  | [], line => some line
  | _ :: _, [] => none
  | c :: start, d :: line => if c = d then after? start line else none

/-- The instruction on a line. -/
def instruction? (line : List Char) : Option Instruction :=
  match after? "  mov rax, ".toList line with
  | some number => (Decimal.toInt? number).map .load
  | none =>
    match after? "  push QWORD [rsp + ".toList line with
    | some offset =>
      if offset.getLast? = some ']' then
        (Decimal.toInt? offset.dropLast).map fun k => .push (.cell k)
      else none
    | none =>
      if line = "  push rax".toList then some (.push (.register "rax"))
      else if line = "  pop rdi".toList then some (.pop "rdi")
      else if line = "  syscall".toList then some .systemCall
      else none

/-- The instructions of an assembly file, which stand behind the lines of the prologue. -/
def read? (file : Bytes) : Option (List Instruction) := do
  match lines (← Utf8.chars? file) with
  | first :: second :: third :: body =>
    if [first, second, third] = ["global _start".toList, [], "_start:".toList] then
      body.mapM instruction?
    else none
  | _ => none

/-- The instructions that a file may hold. -/
inductive Known : Instruction → Prop
  | load (n : Int) : Known (.load n)
  | pushRax : Known (.push (.register "rax"))
  | pushCell (k : Int) : Known (.push (.cell k))
  | popRdi : Known (.pop "rdi")
  | systemCall : Known .systemCall

/-- A line ends at the first newline. -/
theorem lines_append_newline {line : List Char} (h : '\n' ∉ line) (later : List Char) :
    lines (line ++ '\n' :: later) = line :: lines later := by
  induction line with
  | nil => simp [lines]
  | cons c line ih =>
    rw [List.mem_cons, not_or] at h
    rw [List.cons_append, lines, if_neg (Ne.symm h.1), ih h.2]

/-- What follows the start of a line is the rest of it. -/
theorem after?_append (start line : List Char) : after? start (start ++ line) = some line := by
  induction start with
  | nil => rfl
  | cons c start ih => rw [List.cons_append, after?, if_pos rfl, ih]

/-- The characters of an instruction on its line. -/
def lineOf (i : Instruction) : List Char :=
  ' ' :: ' ' :: i.text.toList

/-- The text of a number is its decimal. -/
theorem toList_text (n : Int) : (Decimal.text n).toList = Decimal.ofInt n :=
  String.toList_ofList

/-- The line that loads a number. -/
theorem lineOf_load (n : Int) :
    lineOf (.load n) = "  mov rax, ".toList ++ Decimal.ofInt n := by
  rw [lineOf, Instruction.text, String.toList_append, toList_text]
  rfl

/-- The line that pushes a copy of a cell. -/
theorem lineOf_push_cell (k : Int) :
    lineOf (.push (.cell k)) = "  push QWORD [rsp + ".toList ++ (Decimal.ofInt k ++ [']']) := by
  rw [lineOf, Instruction.text, Operand.text, String.toList_append, String.toList_append,
    String.toList_append, toList_text, List.append_assoc]
  rfl

/-- The line of an instruction is read as that instruction. -/
theorem instruction?_lineOf {i : Instruction} (h : Known i) : instruction? (lineOf i) = some i := by
  cases h with
  | load n =>
    rw [instruction?, lineOf_load, after?_append]
    dsimp only
    rw [Decimal.toInt?_ofInt]
    rfl
  | pushRax => decide
  | pushCell k =>
    -- the line is told from a load by its third character
    have hload : after? "  mov rax, ".toList (lineOf (.push (.cell k))) = none := by
      rw [lineOf_push_cell]
      rfl
    rw [instruction?, hload, lineOf_push_cell, after?_append]
    simp only [List.getLast?_append, List.getLast?_singleton, Option.some_or, if_true,
      List.dropLast_concat, Decimal.toInt?_ofInt]
    rfl
  | popRdi => decide
  | systemCall => decide

/-- The line of an instruction is one line. -/
theorem newline_notMem_lineOf {i : Instruction} (h : Known i) : '\n' ∉ lineOf i := by
  cases h with
  | load n =>
    rw [lineOf_load, List.mem_append, not_or]
    exact ⟨by decide, Decimal.notMem_ofInt (by decide) n⟩
  | pushRax => decide
  | pushCell k =>
    rw [lineOf_push_cell, List.mem_append, List.mem_append, not_or, not_or]
    exact ⟨by decide, Decimal.notMem_ofInt (by decide) k, by decide⟩
  | popRdi => decide
  | systemCall => decide

/-- The lines of code are the lines of its instructions. -/
theorem lines_flatMap_line {code : List Instruction} (h : ∀ i ∈ code, Known i) :
    lines (code.flatMap fun i => lineOf i ++ ['\n']) = code.map lineOf := by
  induction code with
  | nil => rfl
  | cons i later ih =>
    obtain ⟨hi, hlater⟩ := List.forall_mem_cons.mp h
    rw [List.flatMap_cons, List.append_assoc, List.singleton_append,
      lines_append_newline (newline_notMem_lineOf hi), ih hlater, List.map_cons]

/-- The lines of code are read as that code. -/
theorem mapM_instruction? {code : List Instruction} (h : ∀ i ∈ code, Known i) :
    (code.map lineOf).mapM instruction? = some code := by
  induction code with
  | nil => rfl
  | cons i later ih =>
    obtain ⟨hi, hlater⟩ := List.forall_mem_cons.mp h
    rw [List.map_cons, List.mapM_cons, instruction?_lineOf hi, ih hlater]
    rfl

/-- The line of an instruction in bytes. -/
theorem ofString_line (i : Instruction) :
    Utf8.ofString i.line = Utf8.encode (lineOf i ++ ['\n']) := by
  simp [Utf8.ofString, Instruction.line, lineOf]

/-- The assembly file as a text: an opening, and a line for each instruction. -/
theorem assemblyFile_eq_encode (code : List Instruction) :
    assemblyFile code = Utf8.encode
      ("global _start\n\n_start:\n".toList ++ code.flatMap fun i => lineOf i ++ ['\n']) := by
  have hprologue :
      prologue.flatMap Utf8.ofString = Utf8.encode "global _start\n\n_start:\n".toList := rfl
  have hcode : (code.map Instruction.line).flatMap Utf8.ofString =
      Utf8.encode (code.flatMap fun i => lineOf i ++ ['\n']) := by
    induction code with
    | nil => rfl
    | cons i later ih =>
      rw [List.map_cons, List.flatMap_cons, List.flatMap_cons, Utf8.encode_append,
        ofString_line, ih]
  rw [assemblyFile, List.flatMap_append, hprologue, hcode, Utf8.encode_append]

/-- Reading undoes writing. -/
theorem read?_assemblyFile {code : List Instruction} (h : ∀ i ∈ code, Known i) :
    read? (assemblyFile code) = some code := by
  have hprologue (later : List Char) : lines ("global _start\n\n_start:\n".toList ++ later) =
      "global _start".toList :: [] :: "_start:".toList :: lines later := rfl
  rw [read?, assemblyFile_eq_encode, Utf8.chars?_encode]
  simp only [Option.bind_eq_bind, Option.bind_some, hprologue, lines_flatMap_line h, if_true]
  exact mapM_instruction? h

end Assembly

/-- A machine with two registers.  The top of the stack comes first, and so does the first of the
system calls, each of which is recorded with the contents of both registers. -/
structure Machine where
  rax : Int64
  rdi : Int64
  stack : List Int64
  calls : List (Int64 × Int64)

namespace Machine

/-- The machine before the first instruction, with anything in its registers. -/
def start (rax rdi : Int64) : Machine :=
  ⟨rax, rdi, [], []⟩

/-- What an instruction does to the machine, or nothing where the machine is stuck. -/
def step (m : Machine) : Instruction → Option Machine
  | .load n => if Decimal.fits64 n then some { m with rax := Int64.ofInt n } else none
  | .push (.register name) =>
    if name = "rax" then some { m with stack := m.rax :: m.stack } else none
  | .push (.cell k) =>
    if 0 ≤ k ∧ k % 8 = 0 then
      match m.stack[k.toNat / 8]? with
      | some v => some { m with stack := v :: m.stack }
      | none => none
    else none
  | .pop name =>
    if name = "rdi" then
      match m.stack with
      | v :: below => some { m with rdi := v, stack := below }
      | [] => none
    else none
  | .systemCall => some { m with calls := m.calls ++ [(m.rax, m.rdi)] }

/-- Runs instructions one after the other. -/
def run (m : Machine) : List Instruction → Option Machine
  | [] => some m
  | i :: later =>
    match m.step i with
    | some after => after.run later
    | none => none

/-- Code runs from its first instruction on. -/
theorem run_cons {m after : Machine} {i : Instruction} (h : m.step i = some after)
    (later : List Instruction) : m.run (i :: later) = after.run later := by
  rw [run, h]

/-- Code behind other code runs from the state in which that ends. -/
theorem run_append (m : Machine) (code later : List Instruction) :
    m.run (code ++ later) = (m.run code).bind fun after => after.run later := by
  induction code generalizing m with
  | nil => rfl
  | cons i code ih =>
    rw [List.cons_append, run, run]
    cases m.step i with
    | none => rfl
    | some after => exact ih after

/-- A 64-bit value can be loaded, and is loaded unchanged. -/
theorem step_load (m : Machine) (v : Int64) :
    m.step (.load v.toInt) = some { m with rax := v } := by
  rw [step, if_pos (Decimal.fits64_toInt v), Int64.ofInt_toInt]

/-- A copy of the cell at a distance from the top is pushed. -/
theorem step_push_cell {m : Machine} {i : Nat} {v : Int64} (h : m.stack[i]? = some v) :
    m.step (.push (.cell (8 * i))) = some { m with stack := v :: m.stack } := by
  have hoffset : (8 * (i : Int)).toNat / 8 = i := by omega
  have hguard : 0 ≤ 8 * (i : Int) ∧ 8 * (i : Int) % 8 = 0 := by omega
  rw [step, if_pos hguard, hoffset, h]

/-- The top of the stack is popped into the register of the status. -/
theorem step_pop_rdi {m : Machine} {v : Int64} {below : List Int64} (h : m.stack = v :: below) :
    m.step (.pop "rdi") = some { m with rdi := v, stack := below } := by
  rw [step, if_pos rfl, h]

end Machine

end LetExit
