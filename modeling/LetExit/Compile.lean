import LetExit.Assembly.Generator
import LetExit.Program.Parser

/-!
# Compiling

A program is read whole before any of its code is written, so a text that is refused
writes nothing.
-/

set_option autoImplicit false

namespace LetExit

/-- Why a text was not compiled. -/
inductive CompileFault where
  | parse (fault : Fault)
  | generate (fault : GenerateFault)
deriving DecidableEq, Repr

/-- The message of a compile fault.  An inconsistency speaks for itself. -/
def CompileFault.message : CompileFault → String
  | .parse fault => "compiler: parse failed: " ++ fault.message
  | .generate (.write fault) => "compiler: generate codes failed: " ++ fault.message
  | .generate (.inconsistent reason) => reason.message

/-- Writes the assembly of a program to a sink. -/
def Program.generate (program : Program) (sink : Sink) : Except CompileFault Unit × Sink :=
  match (Generator.ofSink sink).generate program with
  | (.ok (), g) => (.ok (), g.output.sink)
  | (.error fault, g) => (.error (.generate fault), g.output.sink)

/-- Writes the assembly of a text to a sink. -/
def compile (input : Input) (sink : Sink) : Except CompileFault Unit × Sink :=
  match Program.parse input with
  | .ok program => program.generate sink
  | .error fault => (.error (.parse fault), sink)

end LetExit
