import LetExit.Proofs.Written

/-!
# Sinks with a limit

A sink that takes a limited number of bytes in all ends the output at some block.  This
may be in the middle of a line, at its end, or only when the rest is flushed.

The state of such an output after some bytes is given by `Output.limited` from the
bytes alone, without running the output.  Writing a line takes the state of the bytes
before it to the state of the bytes with it (`Output.write_limited`), so it does not
matter how the bytes were cut into lines.  A generator follows its output
(`Generator.emit_ofOutput`) whatever the sink does.
-/

set_option autoImplicit false

namespace LetExit

/-- Of blocks with the given lengths, those that are handed to a sink with a limit: all up to the
first that passes it. -/
def attempted (limit : Nat) : List Nat → List Nat
  | [] => []
  | length :: later =>
    if length ≤ limit then length :: attempted (limit - length) later else [length]

/-- Of blocks with one length, all are attempted or one more than the limit has room for. -/
theorem attempted_replicate_append (limit n : Nat) {length : Nat} (hpos : 0 < length)
    (later : List Nat) :
    attempted limit (List.replicate n length ++ later) =
      if n * length ≤ limit then
        List.replicate n length ++ attempted (limit - n * length) later
      else List.replicate (limit / length + 1) length := by
  induction n generalizing limit with
  | zero => simp
  | succ n ih =>
    rw [List.replicate_succ, List.cons_append, attempted]
    have hmul : (n + 1) * length = n * length + length := Nat.succ_mul n length
    by_cases hfirst : length ≤ limit
    · have hdiv : (limit - length) / length + 1 = limit / length :=
        (Nat.div_eq_sub_div hpos hfirst).symm
      rw [if_pos hfirst, ih, hmul]
      by_cases hall : n * length ≤ limit - length
      · have hrest : limit - length - n * length = limit - (n * length + length) := by omega
        rw [if_pos hall, if_pos (by omega), hrest]
        rfl
      · rw [if_neg hall, if_neg (by omega), ← hdiv]
        rfl
    · rw [if_neg hfirst, if_neg (by omega), Nat.div_eq_of_lt (by omega)]
      rfl

example : attempted 5000 [4096, 4096, 10] = [4096, 4096] ∧
    attempted 8192 [4096, 4096, 10] = [4096, 4096, 10] := by decide

/-- A single block is always attempted. -/
theorem attempted_singleton (limit length : Nat) : attempted limit [length] = [length] := by
  rw [attempted]
  split <;> rfl

/-- A sink with a limit takes what it has room for and then reports its fault. -/
theorem Sink.write_upTo (limit : Nat) (fault : WriteFault) (written : Bytes) (attempts : List Nat)
    (block : Bytes) :
    write ⟨upTo (some (limit, fault)), written, attempts⟩ block =
      if written.length + block.length ≤ limit then
        (.ok (), ⟨upTo (some (limit, fault)), written ++ block, attempts ++ [block.length]⟩)
      else (.error fault, ⟨upTo (some (limit, fault)),
        written ++ block.take (limit - written.length), attempts ++ [block.length]⟩) := by
  by_cases hfits : written.length + block.length ≤ limit
  · simp only [write, upTo, if_pos hfits]
  · simp only [write, upTo, if_neg hfits]

namespace Output

/-- The answer of an operation that left the output in its state. -/
def status (output : Output) : Except WriteFault Unit :=
  match output.failure with
  | some fault => .error fault
  | none => .ok ()

/-- Handing over a block answers the status that it leaves. -/
theorem drain_fst (sink : Sink) (pending : Bytes) :
    (drain sink pending).1 = (drain sink pending).2.status := by
  fun_induction drain sink pending with
  | case1 => rfl
  | case2 sink pending hlong sink' hwrite ih => exact ih
  | case3 => rfl

/-- Writing answers the status that it leaves. -/
theorem write_fst (output : Output) (bytes : Bytes) :
    (output.write bytes).1 = (output.write bytes).2.status := by
  rw [write]
  cases hfailure : output.failure with
  | none => exact drain_fst output.sink (output.held ++ bytes)
  | some fault =>
    show Except.error fault = output.status
    rw [status, hfailure]

/-- The number of whole blocks that are handed over while the given number of bytes is written.  A
buffer that is exactly full is kept. -/
def blocks (length : Nat) : Nat :=
  (length - 1) / capacity

/-- The blocks that are handed over are no longer than what was written. -/
theorem blocks_mul_le (length : Nat) : blocks length * capacity ≤ length := by
  simp only [blocks, capacity]
  omega

/-- Something of what was written is always held. -/
theorem blocks_mul_lt {length : Nat} (h : 0 < length) : blocks length * capacity < length := by
  simp only [blocks, capacity]
  omega

/-- Writing more never hands over less. -/
theorem blocks_mul_mono {a b : Nat} (h : a ≤ b) : blocks a * capacity ≤ blocks b * capacity :=
  Nat.mul_le_mul_right capacity (Nat.div_le_div_right (Nat.sub_le_sub_right h 1))

/-- The last block has at least one byte and at most as many as the buffer holds. -/
theorem blocks_eq {length n : Nat} (hlast : n * capacity < length)
    (hfits : length ≤ n * capacity + capacity) : blocks length = n := by
  simp only [blocks, capacity] at *
  omega

/-- The state of an output to a sink with a limit after the given bytes. -/
def limited (limit : Nat) (fault : WriteFault) (bytes : Bytes) : Output :=
  if blocks bytes.length * capacity ≤ limit then
    ⟨⟨Sink.upTo (some (limit, fault)), bytes.take (blocks bytes.length * capacity),
      List.replicate (blocks bytes.length) capacity⟩,
      bytes.drop (blocks bytes.length * capacity), none⟩
  else
    ⟨⟨Sink.upTo (some (limit, fault)), bytes.take limit,
      List.replicate (limit / capacity + 1) capacity⟩, [], some fault⟩

section Limited

variable (limit : Nat) (fault : WriteFault)

/-- An output that has written nothing is new. -/
theorem limited_nil : limited limit fault [] = ofSink (.fresh (some (limit, fault))) := by
  have hblocks : blocks ([] : Bytes).length * capacity ≤ limit := Nat.zero_le limit
  rw [limited, if_pos hblocks]
  rfl

/-- From a sink that has taken only whole blocks, draining leads to the state of all bytes. -/
theorem drain_limited {sink : Sink} {front pending : Bytes} {n : Nat}
    (hsink : sink = ⟨Sink.upTo (some (limit, fault)), front, List.replicate n capacity⟩)
    (hfront : front.length = n * capacity) (hlimit : n * capacity ≤ limit)
    (hpending : n = 0 ∨ pending ≠ []) :
    (drain sink pending).2 = limited limit fault (front ++ pending) := by
  have hlength : (front ++ pending).length = n * capacity + pending.length := by
    rw [List.length_append, hfront]
  fun_induction drain sink pending generalizing front n with
  | case1 sink pending hfits =>
    have hblocks : blocks (front ++ pending).length = n := by
      by_cases hnil : pending = []
      · have hn : n = 0 := hpending.resolve_right fun hne => hne hnil
        rw [hlength, hnil, hn]
        rfl
      · have hpos : 0 < pending.length := List.length_pos_iff.mpr hnil
        apply blocks_eq <;> omega
    rw [limited, hblocks, if_pos hlimit, ← hfront, List.take_left, List.drop_left, hsink]
  | case2 sink pending hlong sink' hwrite ih =>
    have hblock : (pending.take capacity).length = capacity :=
      List.length_take_of_le (Nat.le_of_not_le hlong)
    rw [hsink, Sink.write_upTo, hblock, hfront] at hwrite
    by_cases hfits : n * capacity + capacity ≤ limit
    · rw [if_pos hfits] at hwrite
      have hsink' := (Prod.mk.inj hwrite).2.symm
      have hmul : (n + 1) * capacity = n * capacity + capacity := Nat.succ_mul n capacity
      rw [← List.replicate_succ'] at hsink'
      have hall : front ++ pending = front ++ pending.take capacity ++ pending.drop capacity := by
        rw [List.append_assoc, List.take_append_drop]
      have hrest : pending.drop capacity ≠ [] := by
        intro h
        have hnil := congrArg List.length h
        rw [List.length_drop, List.length_nil] at hnil
        omega
      rw [hall]
      apply ih hsink' _ _ (Or.inr hrest) _
      · rw [List.length_append, hfront, hblock, hmul]
      · omega
      · rw [← hall, hlength, hmul, List.length_drop]
        omega
    · rw [if_neg hfits] at hwrite
      cases hwrite
  | case3 sink pending hlong found sink' hwrite =>
    have hblock : (pending.take capacity).length = capacity :=
      List.length_take_of_le (Nat.le_of_not_le hlong)
    rw [hsink, Sink.write_upTo, hblock, hfront] at hwrite
    by_cases hfits : n * capacity + capacity ≤ limit
    · rw [if_pos hfits] at hwrite
      cases hwrite
    · rw [if_neg hfits] at hwrite
      obtain ⟨hfound, rfl⟩ := Prod.mk.inj hwrite
      obtain rfl : fault = found := Except.error.inj hfound
      have hblocks : ¬blocks (front ++ pending).length * capacity ≤ limit := by
        have hnext : blocks (n * capacity + capacity + 1) = n + 1 := by
          apply blocks_eq <;> rw [Nat.succ_mul] <;> omega
        have hmono : blocks (n * capacity + capacity + 1) * capacity ≤
            blocks (front ++ pending).length * capacity := blocks_mul_mono (by omega)
        rw [hnext, Nat.succ_mul] at hmono
        omega
      have hdiv : limit / capacity = n := by
        simp only [capacity] at *
        omega
      have htake : (front ++ pending).take limit =
          front ++ (pending.take capacity).take (limit - n * capacity) := by
        rw [List.take_append, hfront, List.take_of_length_le (by omega), List.take_take,
          Nat.min_eq_left (by omega)]
      rw [limited, if_neg hblocks, hdiv, htake, List.replicate_succ']

/-- Writing bytes leads from the state of the bytes before them to the state of all bytes. -/
theorem write_limited (bytes later : Bytes) :
    ((limited limit fault bytes).write later).2 = limited limit fault (bytes ++ later) := by
  by_cases hlimit : blocks bytes.length * capacity ≤ limit
  · have hfront : (bytes.take (blocks bytes.length * capacity)).length =
        blocks bytes.length * capacity :=
      List.length_take_of_le (blocks_mul_le bytes.length)
    have hpending : blocks bytes.length = 0 ∨
        bytes.drop (blocks bytes.length * capacity) ++ later ≠ [] := by
      by_cases hnone : bytes = []
      · rw [hnone]
        exact Or.inl rfl
      · have hlt := blocks_mul_lt (List.length_pos_iff.mpr hnone)
        refine Or.inr fun h => ?_
        have hnil := List.drop_eq_nil_iff.mp (List.append_eq_nil_iff.mp h).1
        omega
    rw [limited, if_pos hlimit]
    have hdrain := drain_limited limit fault rfl hfront hlimit hpending
    rw [← List.append_assoc, List.take_append_drop] at hdrain
    exact hdrain
  · have hlater : ¬blocks (bytes ++ later).length * capacity ≤ limit := by
      have hmono : blocks bytes.length * capacity ≤ blocks (bytes ++ later).length * capacity :=
        blocks_mul_mono (List.length_append ▸ Nat.le_add_right bytes.length later.length)
      omega
    have hwithin : limit ≤ bytes.length := by
      have hle := blocks_mul_le bytes.length
      omega
    rw [limited, if_neg hlimit, limited, if_neg hlater, List.take_append_of_le_length hwithin]
    rfl

/-- The blocks that are attempted while bytes are written. -/
theorem attempts_limited (bytes : Bytes) : (limited limit fault bytes).sink.attempts =
    attempted limit (List.replicate (blocks bytes.length) capacity) := by
  have hattempted := attempted_replicate_append limit (blocks bytes.length)
    (show 0 < capacity by decide) []
  rw [List.append_nil, attempted, List.append_nil] at hattempted
  rw [hattempted, limited]
  split <;> rfl

/-- The sink has accepted the first bytes, unless the bytes that are held would have room too. -/
theorem written_limited (bytes : Bytes) : (limited limit fault bytes).sink.written =
    bytes.take (min limit (blocks bytes.length * capacity)) := by
  rw [limited]
  split
  · rw [Nat.min_eq_right (by omega)]
  · rw [Nat.min_eq_left (by omega)]

/-- Flushing hands over the rest as a last block, which has at least one byte. -/
theorem flush_limited {bytes : Bytes} (hne : bytes ≠ []) : ∃ after,
    (limited limit fault bytes).flush =
      (if bytes.length ≤ limit then .ok () else .error fault, after) ∧
    after.sink.written = bytes.take limit ∧
    after.sink.attempts = attempted limit (List.replicate (blocks bytes.length) capacity ++
      [bytes.length - blocks bytes.length * capacity]) := by
  have hpos : 0 < bytes.length := List.length_pos_iff.mpr hne
  have hrest : blocks bytes.length * capacity < bytes.length := blocks_mul_lt hpos
  rw [attempted_replicate_append limit (blocks bytes.length) (show 0 < capacity by decide)]
  by_cases hlimit : blocks bytes.length * capacity ≤ limit
  · have hheld : (bytes.drop (blocks bytes.length * capacity)).isEmpty = false := by
      rw [List.isEmpty_eq_false_iff, ← List.length_pos_iff, List.length_drop]
      omega
    have hfront : (bytes.take (blocks bytes.length * capacity)).length =
        blocks bytes.length * capacity := List.length_take_of_le (Nat.le_of_lt hrest)
    have hsum : blocks bytes.length * capacity +
        (bytes.drop (blocks bytes.length * capacity)).length = bytes.length := by
      rw [List.length_drop]
      omega
    rw [limited, if_pos hlimit, if_pos hlimit]
    simp only [flush, hheld, Bool.false_eq_true, if_false]
    rw [Sink.write_upTo, hfront, hsum, List.length_drop, attempted_singleton]
    by_cases hall : bytes.length ≤ limit
    · rw [if_pos hall, if_pos hall, List.take_append_drop]
      exact ⟨_, rfl, (List.take_of_length_le hall).symm, rfl⟩
    · have htake : bytes.take limit = bytes.take (blocks bytes.length * capacity) ++
          (bytes.drop (blocks bytes.length * capacity)).take
            (limit - blocks bytes.length * capacity) := by
        rw [← List.take_add, Nat.add_sub_cancel' hlimit]
      rw [if_neg hall, if_neg hall, htake]
      exact ⟨_, rfl, rfl, rfl⟩
  · have hlong : ¬bytes.length ≤ limit := by omega
    rw [limited, if_neg hlimit, if_neg hlimit, if_neg hlong]
    exact ⟨_, rfl, rfl, rfl⟩

end Limited

end Output

namespace Generator

/-- The generator that has written to an output and knows the fault that ended it. -/
def ofOutput (output : Output) (frame : Frame) : Generator :=
  ⟨output, frame, output.failure⟩

/-- Writing a line is writing its bytes, also after a fault. -/
theorem emit_ofOutput (output : Output) (frame : Frame) (line : String) :
    (ofOutput output frame).emit line = ofOutput (output.write (Utf8.ofString line)).2 frame := by
  have hfst := output.write_fst (Utf8.ofString line)
  cases hfailure : output.failure with
  | some fault =>
    have hwrite : output.write (Utf8.ofString line) = (.error fault, output) := by
      rw [Output.write, hfailure]
    rw [hwrite, emit, ofOutput, hfailure]
  | none =>
    rw [emit, ofOutput, hfailure]
    generalize output.write (Utf8.ofString line) = answer at hfst
    obtain ⟨_, after⟩ := answer
    dsimp only at hfst
    cases hafter : after.failure with
    | some fault =>
      rw [Output.status, hafter] at hfst
      rw [hfst, ofOutput, hafter]
    | none =>
      rw [Output.status, hafter] at hfst
      rw [hfst, ofOutput, hafter]

/-- Writing lines to a sink with a limit is writing their bytes. -/
theorem foldl_emit_limited (limit : Nat) (fault : WriteFault) (bytes : Bytes) (frame : Frame)
    (lines : List String) :
    lines.foldl emit (ofOutput (.limited limit fault bytes) frame) =
      ofOutput (.limited limit fault (bytes ++ lines.flatMap Utf8.ofString)) frame := by
  induction lines generalizing bytes with
  | nil => rw [List.foldl_nil, List.flatMap_nil, List.append_nil]
  | cons line later ih =>
    rw [List.foldl_cons, emit_ofOutput, Output.write_limited, ih, List.flatMap_cons,
      List.append_assoc]

/-- The end of a program is the flush of the output, also after a fault. -/
theorem finish_ofOutput (output : Output) (frame : Frame) :
    (ofOutput output frame).finish =
      (output.flush.1.mapError .write, ⟨output.flush.2, frame, output.failure⟩) := by
  cases hfailure : output.failure with
  | some fault =>
    rw [Output.flush, finish, ofOutput, hfailure]
    rfl
  | none =>
    rw [finish, ofOutput, hfailure]
    rcases output.flush with ⟨_ | _, after⟩ <;> rfl

/-- All lines of a program have been written to a sink with a limit. -/
theorem afterLines_limited (limit : Nat) (fault : WriteFault) (code : Program.Code) :
    (ofSink (.fresh (some (limit, fault)))).afterLines code =
      ofOutput (.limited limit fault (assemblyFile code.instructions)) (.ofNames code.cells) := by
  have hstart : ofSink (.fresh (some (limit, fault))) =
      ofOutput (.limited limit fault []) .empty := by
    rw [Output.limited_nil]
    rfl
  rw [afterLines, hstart, foldl_emit_limited]
  rfl

end Generator

/-- An assembly file is never empty. -/
theorem assemblyFile_ne_nil (code : List Instruction) : assemblyFile code ≠ [] := by
  rw [assemblyFile_eq]
  exact List.append_ne_nil_of_left_ne_nil (by decide) _

/-- A program that has code to its end leaves the first bytes of its file in a sink with a limit. -/
theorem Program.generate_limited_of_ok {p : Program} {file : Bytes}
    (h : (p.stackCode []).outcome = .ok ())
    (hfile : file = assemblyFile (p.stackCode []).instructions) (limit : Nat)
    (fault : WriteFault) : ∃ after,
      p.generate (.fresh (some (limit, fault))) =
        (if file.length ≤ limit then .ok () else .error (.generate (.write fault)), after) ∧
      after.written = file.take limit ∧
      after.attempts = attempted limit
        (List.replicate (Output.blocks file.length) Output.capacity ++
          [file.length - Output.blocks file.length * Output.capacity]) := by
  have hne : file ≠ [] := hfile ▸ assemblyFile_ne_nil _
  obtain ⟨after, hflush, hwritten, hattempts⟩ := Output.flush_limited limit fault hne
  refine ⟨after.sink, ?_, hwritten, hattempts⟩
  rw [Program.generate, Generator.generate_eq _ p [] rfl, h]
  dsimp only
  rw [Generator.afterLines_limited, ← hfile, Generator.finish_ofOutput, hflush]
  by_cases hall : file.length ≤ limit
  · rw [if_pos hall, if_pos hall]
    rfl
  · rw [if_neg hall, if_neg hall]
    rfl

/-- A program whose code stops leaves a sink with a limit as it is after the bytes of that code. -/
theorem Program.generate_limited_of_error {p : Program} {reason : Inconsistency}
    (h : (p.stackCode []).outcome = .error reason) (limit : Nat) (fault : WriteFault) :
    p.generate (.fresh (some (limit, fault))) =
      (.error (.generate (.inconsistent reason)),
        (Output.limited limit fault (assemblyFile (p.stackCode []).instructions)).sink) := by
  rw [Program.generate, Generator.generate_eq _ p [] rfl, h]
  dsimp only
  rw [Generator.afterLines_limited]
  rfl

/-- The message of a write fault of a program, with the reason of the sink or without one. -/
theorem CompileFault.message_write (fault : WriteFault) :
    (∀ reason, fault = .failed reason → CompileFault.message (.generate (.write fault)) =
      "compiler: generate codes failed: " ++ reason) ∧
    (fault = .short → CompileFault.message (.generate (.write fault)) =
      "compiler: generate codes failed: short write") := by
  constructor
  · rintro reason rfl
    rfl
  · rintro rfl
    decide

/-- **A write fault loses only the end of the text and is never missed.**  Let a sink take a limited
number of bytes and then fail, with or without a reason.  If a program has code to its end, the
sink has taken the first bytes of its text, writing succeeds exactly if all of them fit, and the
sink was handed full blocks and a last one, up to the block that passes the limit.  If the code of
a program stops, the sink was handed the full blocks alone. -/
theorem generate_limited (p : Program) (limit : Nat) (fault : WriteFault) :
    (∃ whole answer after m r, p.generate (.fresh none) = (.ok (), whole) ∧
      p.generate (.fresh (some (limit, fault))) = (answer, after) ∧
      whole.written.length = 4096 * m + r ∧ 1 ≤ r ∧ r ≤ 4096 ∧
      after.written = whole.written.take limit ∧
      (answer = .ok () ↔ whole.written.length ≤ limit) ∧
      (limit < whole.written.length → ∃ f, answer = .error f ∧
        (∀ reason, fault = .failed reason →
          f.message = "compiler: generate codes failed: " ++ reason) ∧
        (fault = .short → f.message = "compiler: generate codes failed: short write")) ∧
      after.attempts = attempted limit (List.replicate m 4096 ++ [r])) ∨
    ∃ reason whole after,
      (Generator.ofSink (.fresh none)).generate p = (.error (.inconsistent reason), whole) ∧
      p.generate (.fresh (some (limit, fault))) =
        (.error (.generate (.inconsistent reason)), after) ∧
      prologue.flatMap Utf8.ofString <+: whole.output.text ∧
      after.written = whole.output.text.take
        (min limit ((whole.output.text.length - 1) / 4096 * 4096)) ∧
      after.attempts =
        attempted limit (List.replicate ((whole.output.text.length - 1) / 4096) 4096) := by
  obtain ⟨answer, whole, hwhole, -, -, htext, ⟨hok, rfl, hheld⟩ | ⟨reason, herror, rfl⟩⟩ :=
    Generator.accepting_ofSink_fresh.generate [] rfl p
  · left
    rw [Output.text, hheld, List.append_nil] at htext
    obtain ⟨after, hafter, hwritten, hattempts⟩ :=
      Program.generate_limited_of_ok hok htext limit fault
    have hgenerate : p.generate (.fresh none) = (.ok (), whole.output.sink) := by
      rw [Program.generate, hwhole]
    have hpos : 0 < whole.output.sink.written.length := by
      rw [htext]
      exact List.length_pos_iff.mpr (assemblyFile_ne_nil _)
    refine ⟨_, _, after, Output.blocks whole.output.sink.written.length, _, hgenerate, hafter,
      ?_, ?_, ?_, hwritten, ?_, ?_, hattempts⟩
    · have hlt := Output.blocks_mul_lt hpos
      rw [Nat.mul_comm]
      exact (Nat.add_sub_cancel' (Nat.le_of_lt hlt)).symm
    · have hlt := Output.blocks_mul_lt hpos
      omega
    · simp only [Output.blocks, Output.capacity]
      omega
    · by_cases hall : whole.output.sink.written.length ≤ limit
      · rw [if_pos hall]
        exact iff_of_true rfl hall
      · rw [if_neg hall]
        exact iff_of_false (by simp) hall
    · intro hlong
      rw [if_neg (Nat.not_le_of_lt hlong)]
      exact ⟨_, rfl, CompileFault.message_write fault⟩
  · right
    have hafter := Program.generate_limited_of_error herror limit fault
    have hfile : whole.output.text = assemblyFile (p.stackCode []).instructions := htext
    rw [← hfile] at hafter
    refine ⟨reason, whole, _, hwhole, hafter, ?_, Output.written_limited limit fault _,
      Output.attempts_limited limit fault _⟩
    rw [hfile, assemblyFile_eq]
    exact List.prefix_append _ _

end LetExit
