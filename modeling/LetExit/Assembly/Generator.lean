import LetExit.Assembly.Frame
import LetExit.Output
import LetExit.Program

/-!
# Generating assembly

Values are kept on the stack.  An expression pushes one cell, `let` gives that cell its
name, and `exit` pops it as the status of the process.

A generator writes programs to an output one after the other and carries its frame
from one to the next.  A statement that makes no sense stops it before any of the
statement's code is written.  A write fault does not stop it: the frame still follows
all statements, and only the text is dropped.
-/

set_option autoImplicit false

namespace LetExit

/-- Why a tree has no code. -/
inductive Inconsistency where
  | missingStatement
  | missingExpression
  | unresolved (name : String)
deriving DecidableEq, Repr

/-- The message of an inconsistency. -/
def Inconsistency.message : Inconsistency → String
  | .missingStatement => "unknown statement type <nil>"
  | .missingExpression => "unknown expression type <nil>"
  | .unresolved name => "identifier " ++ name ++ " has no stack slot"

/-- The number of the system call that ends the process. -/
def exitCall : Int :=
  60

/-- The code that pushes the value of an expression, and the frame after it. -/
def Expr.code (frame : Frame) : Expr → Except Inconsistency (List Instruction × Frame)
  | .literal value =>
    let (push, frame) := frame.push (.register "rax")
    .ok ([.load value.toInt, push], frame)
  | .name ident =>
    match frame.resolve? ident with
    | some offset =>
      let (push, frame) := frame.push (.cell offset)
      .ok ([push], frame)
    | none => .error (.unresolved ident)
  | .hole => .error .missingExpression

/-- The code of a statement, and the frame after it. -/
def Statement.code (frame : Frame) : Statement → Except Inconsistency (List Instruction × Frame)
  | .bind ident value =>
    match value.code frame with
    | .ok (code, frame) => .ok (code, frame.declare ident)
    | .error reason => .error reason
  | .exit status =>
    match status.code frame with
    | .ok (code, frame) =>
      let (pop, frame) := frame.pop "rdi"
      .ok (code ++ [pop, .load exitCall, .systemCall], frame)
    | .error reason => .error reason
  | .hole => .error .missingStatement

/-- Why a program was not written. -/
inductive GenerateFault where
  | write (fault : WriteFault)
  | inconsistent (reason : Inconsistency)
deriving DecidableEq, Repr

/-- The message of a generate fault. -/
def GenerateFault.message : GenerateFault → String
  | .write fault => fault.message
  | .inconsistent reason => reason.message

/-- The state of generating: the output, the frame, and the fault after which text is dropped. -/
structure Generator where
  output : Output
  frame : Frame
  failure : Option WriteFault

namespace Generator

/-- A generator that has written nothing. -/
def ofSink (sink : Sink) : Generator :=
  ⟨.ofSink sink, .empty, none⟩

/-- Writes a line, or drops it after a write fault. -/
def emit (g : Generator) (line : String) : Generator :=
  match g.failure with
  | some _ => g
  | none =>
    match g.output.write (Utf8.ofString line) with
    | (.ok (), output) => { g with output := output }
    | (.error fault, output) => { g with output := output, failure := some fault }

/-- Writes the code of statements up to the first that has none. -/
def statements (g : Generator) : Program → Except Inconsistency Unit × Generator
  | [] => (.ok (), g)
  | s :: later =>
    match s.code g.frame with
    | .ok (code, frame) =>
      statements ((code.map Instruction.line).foldl emit { g with frame := frame }) later
    | .error reason => (.error reason, g)

/-- Writes a whole program.  An inconsistency counts more than a write fault, and leaves the text
before it unflushed. -/
def generate (g : Generator) (program : Program) : Except GenerateFault Unit × Generator :=
  match (prologue.foldl emit g).statements program with
  | (.error reason, g') => (.error (.inconsistent reason), g')
  | (.ok (), g') =>
    match g'.failure with
    | some fault => (.error (.write fault), g')
    | none =>
      match g'.output.flush with
      | (.ok (), output) => (.ok (), { g' with output := output })
      | (.error fault, output) => (.error (.write fault), { g' with output := output })

end Generator

end LetExit
