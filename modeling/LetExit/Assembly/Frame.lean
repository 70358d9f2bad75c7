import LetExit.Assembly
import Std.Data.ExtTreeMap

/-!
# The stack frame

A frame follows the stack of the generated program: how many cells are on it, and in
which cell each name lives.  Cells are numbered from the bottom, starting at 1, and a
value stays in its cell, while its distance from the top grows with every push.  So
the distance of a name is computed whenever it is asked for.
-/

set_option autoImplicit false

namespace LetExit

/-- The number of cells on the stack and the cell of each name. -/
structure Frame where
  depth : Int
  slots : Std.ExtTreeMap String Int

namespace Frame

/-- The frame of an empty stack. -/
def empty : Frame :=
  ⟨0, ∅⟩

/-- The number of bytes in a cell. -/
def cellSize : Int :=
  8

/-- Pushes a value: the instruction that does it and the frame after it. -/
def push (frame : Frame) (operand : Operand) : Instruction × Frame :=
  (.push operand, { frame with depth := frame.depth + 1 })

/-- Pops a value: the instruction that does it and the frame after it. -/
def pop (frame : Frame) (register : String) : Instruction × Frame :=
  (.pop register, { frame with depth := frame.depth - 1 })

/-- Gives a name to the cell on top of the stack. -/
def declare (frame : Frame) (name : String) : Frame :=
  { frame with slots := frame.slots.insert name frame.depth }

/-- The distance in bytes from the top of the stack to the cell of a name. -/
def resolve? (frame : Frame) (name : String) : Option Int :=
  frame.slots[name]?.map fun slot => (frame.depth - slot) * cellSize

end Frame

end LetExit
