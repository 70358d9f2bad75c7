import LetExit.Text.Utf8

/-!
# Buffered output

Output is collected in a buffer and handed to a sink in blocks.  A buffer that is
exactly full is handed on when more arrives or at the end.  A sink decides freely how
it takes each block; the first block it does not take without a fault ends the output:
nothing is handed to the sink after it.
-/

set_option autoImplicit false

namespace LetExit

/-- Why a sink did not accept a block. -/
inductive WriteFault where
  /-- The sink gave a reason. -/
  | failed (reason : String)
  /-- The sink took only a part and gave no reason. -/
  | short
deriving DecidableEq, Repr

/-- The message of a write fault. -/
def WriteFault.message : WriteFault → String
  | .failed reason => reason
  | .short => "short write"

/-- How a sink takes a block: all of it, or its first bytes only and with a fault. -/
inductive Sink.Answer where
  | accepted
  | refused (taken : Nat) (fault : WriteFault)
deriving DecidableEq, Repr

/-- A place that takes bytes.  How it takes a block may depend on the bytes it accepted before, on
the lengths of the blocks it was handed before, and on the block.  It keeps what it accepted and
the length of every block it was handed. -/
structure Sink where
  answer : Bytes → List Nat → Bytes → Sink.Answer
  written : Bytes
  attempts : List Nat

namespace Sink

/-- Takes everything, or as many bytes in all as a limit allows and then fails as stated. -/
def upTo : Option (Nat × WriteFault) → Bytes → List Nat → Bytes → Answer
  | none, _, _, _ => .accepted
  | some (limit, fault), written, _, block =>
    if written.length + block.length ≤ limit then .accepted
    else .refused (limit - written.length) fault

/-- A sink that has not been used, with or without a limit. -/
def fresh (limit : Option (Nat × WriteFault)) : Sink :=
  ⟨upTo limit, [], []⟩

/-- Hands a block to the sink. -/
def write (sink : Sink) (block : Bytes) : Except WriteFault Unit × Sink :=
  let attempts := sink.attempts ++ [block.length]
  match sink.answer sink.written sink.attempts block with
  | .accepted => (.ok (), ⟨sink.answer, sink.written ++ block, attempts⟩)
  | .refused taken fault => (.error fault, ⟨sink.answer, sink.written ++ block.take taken, attempts⟩)

end Sink

/-- A sink behind a buffer: the bytes held back, and the fault that ended the output. -/
structure Output where
  sink : Sink
  held : Bytes
  failure : Option WriteFault

namespace Output

/-- An output that has not been used. -/
def ofSink (sink : Sink) : Output :=
  ⟨sink, [], none⟩

/-- The number of bytes that the buffer holds. -/
def capacity : Nat :=
  4096

/-- Hands whole blocks to the sink until the rest fits into the buffer. -/
def drain (sink : Sink) (pending : Bytes) : Except WriteFault Unit × Output :=
  if pending.length ≤ capacity then (.ok (), ⟨sink, pending, none⟩)
  else
    match sink.write (pending.take capacity) with
    | (.ok (), sink') => drain sink' (pending.drop capacity)
    | (.error fault, sink') => (.error fault, ⟨sink', [], some fault⟩)
termination_by pending.length
decreasing_by
  simp only [List.length_drop, capacity] at *
  omega

/-- Writes bytes behind those that are held. -/
def write (output : Output) (bytes : Bytes) : Except WriteFault Unit × Output :=
  match output.failure with
  | some fault => (.error fault, output)
  | none => drain output.sink (output.held ++ bytes)

/-- Hands all that is held to the sink. -/
def flush (output : Output) : Except WriteFault Unit × Output :=
  match output.failure with
  | some fault => (.error fault, output)
  | none =>
    if output.held.isEmpty then (.ok (), output)
    else
      match output.sink.write output.held with
      | (.ok (), sink) => (.ok (), ⟨sink, [], none⟩)
      | (.error fault, sink) => (.error fault, ⟨sink, [], some fault⟩)

end Output

end LetExit
