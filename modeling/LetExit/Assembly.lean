import LetExit.Text.Decimal

/-!
# Assembly text

The instructions that programs are made of, and the text of a whole assembly file: a
prologue of three lines, and then one indented line for each instruction.
-/

set_option autoImplicit false

namespace LetExit

/-- What an instruction pushes: a register, or the stack cell at a byte offset above the stack
pointer. -/
inductive Operand where
  | register (name : String)
  | cell (offset : Int)
deriving DecidableEq, Repr

/-- The text of an operand. -/
def Operand.text : Operand → String
  | .register name => name
  | .cell offset => "QWORD [rsp + " ++ Decimal.text offset ++ "]"

/-- An instruction. -/
inductive Instruction where
  /-- Loads a number into the accumulator. -/
  | load (value : Int)
  /-- Pushes a value on the stack. -/
  | push (operand : Operand)
  /-- Pops the top of the stack into a register. -/
  | pop (register : String)
  /-- Calls the operating system. -/
  | systemCall
deriving DecidableEq, Repr

namespace Instruction

/-- The text of an instruction. -/
def text : Instruction → String
  | load value => "mov rax, " ++ Decimal.text value
  | push operand => "push " ++ operand.text
  | pop register => "pop " ++ register
  | systemCall => "syscall"

/-- The line of an instruction in an assembly file. -/
def line (i : Instruction) : String :=
  "  " ++ i.text ++ "\n"

end Instruction

/-- The lines in front of the instructions, which make the entry point known. -/
def prologue : List String :=
  ["global _start\n", "\n", "_start:\n"]

end LetExit
