import LetExit.Proofs.Reuse
import LetExit.Proofs.Session

/-!
# Stack discipline

A generator may be given any programs, also trees with missing nodes, names bound twice or names
bound nowhere, and its sink may fail at any time.  Its frame still follows the stack.  All that
decides about it are the statements that were completed: the cells are their names, so there are as
many cells as completed bindings, and a reference reaches a cell that is there
(`Generator.frame_discipline`).

A frame is read off the names of its cells, so the discipline is shown for `Frame.ofNames` and
holds of every frame that a generator reaches (`Generator.frame_inside`).
-/

set_option autoImplicit false

namespace LetExit

namespace Frame

/-- What holds of the frame of a generator that has completed a number of bindings. -/
structure Disciplined (frame : Frame) (bindings : Nat) : Prop where
  depth : frame.depth = bindings
  /-- Names live in cells that are on the stack. -/
  slot_mem : ∀ (x : String) (slot : Int), frame.slots[x]? = some slot →
    1 ≤ slot ∧ slot ≤ frame.depth
  /-- No two names share a cell. -/
  slot_inj : ∀ (x y : String) (slot : Int), frame.slots[x]? = some slot →
    frame.slots[y]? = some slot → x = y
  /-- A statement pushes from a cell only as its first instruction, and then from one that is on the
  stack. -/
  push_cell : ∀ (s : Statement) (code : List Instruction) (after : Frame),
    s.code frame = .ok (code, after) → ∀ (front back : List Instruction) (offset : Int),
    code = front ++ .push (.cell offset) :: back →
    front = [] ∧ ∃ j : Nat, offset = 8 * j ∧ (j : Int) < frame.depth

/-- A name lives in the topmost cell with that name. -/
theorem exists_index_of_slot {cells : List String} {x : String} {slot : Int}
    (h : (ofNames cells).slots[x]? = some slot) :
    ∃ i : Nat, cells[i]? = some x ∧ slot = cells.length - i := by
  have hresolve := resolve?_ofNames cells x
  rw [resolve?, h, depth_ofNames] at hresolve
  cases hi : cells.idxOf? x with
  | none =>
    rw [hi] at hresolve
    cases hresolve
  | some i =>
    rw [hi] at hresolve
    have hdistance : ((cells.length : Int) - slot) * 8 = 8 * (i : Int) := Option.some.inj hresolve
    obtain ⟨hlt, hx, -⟩ := List.idxOf?_eq_some_iff.mp hi
    refine ⟨i, ?_, by omega⟩
    rw [List.getElem?_eq_getElem hlt, hx]

/-- An expression pushes from a cell only if it is a name, and then at once. -/
theorem push_cell_of_stackCode {cells : List String} {e : Expr}
    {code tail front back : List Instruction} {offset : Int} (hcode : e.stackCode cells = .ok code)
    (htail : ∀ other, .push (.cell other) ∉ tail)
    (hsplit : code ++ tail = front ++ .push (.cell offset) :: back) :
    front = [] ∧ ∃ j : Nat, offset = 8 * j ∧ j < cells.length := by
  cases e with
  | literal value =>
    cases hcode
    have hmem : Instruction.push (.cell offset) ∈
        [.load value.toInt, .push (.register "rax")] ++ tail := by
      rw [hsplit]
      exact List.mem_append_right _ List.mem_cons_self
    simp [htail] at hmem
  | name ident =>
    rw [Expr.stackCode] at hcode
    cases hi : cells.idxOf? ident with
    | none =>
      rw [hi] at hcode
      cases hcode
    | some i =>
      rw [hi] at hcode
      cases hcode
      cases front with
      | nil =>
        obtain ⟨hlt, -⟩ := List.idxOf?_eq_some_iff.mp hi
        have hoffset : (8 : Int) * i = offset := by simpa using (List.cons.inj hsplit).1
        exact ⟨rfl, i, hoffset.symm, hlt⟩
      | cons first front =>
        have hrest : tail = front ++ .push (.cell offset) :: back := (List.cons.inj hsplit).2
        have hmem : Instruction.push (.cell offset) ∈ tail := by
          rw [hrest]
          exact List.mem_append_right _ List.mem_cons_self
        exact absurd hmem (htail offset)
  | hole => cases hcode

/-- A frame of names is disciplined. -/
theorem disciplined_ofNames (cells : List String) : (ofNames cells).Disciplined cells.length where
  depth := depth_ofNames cells
  slot_mem := by
    intro x slot h
    obtain ⟨i, hi, rfl⟩ := exists_index_of_slot h
    have hlt := (List.getElem?_eq_some_iff.mp hi).1
    rw [depth_ofNames]
    omega
  slot_inj := by
    intro x y slot hx hy
    obtain ⟨i, hi, hslot⟩ := exists_index_of_slot hx
    obtain ⟨j, hj, hslot'⟩ := exists_index_of_slot hy
    have hij : i = j := by omega
    rw [hij, hj] at hi
    exact (Option.some.inj hi).symm
  push_cell := by
    intro s code after h front back offset hsplit
    rw [Statement.code_ofNames] at h
    rw [depth_ofNames]
    cases s with
    | bind ident value =>
      cases hvalue : value.stackCode cells with
      | error reason =>
        rw [Statement.stackCode, hvalue] at h
        cases h
      | ok valueCode =>
        rw [Statement.stackCode, hvalue] at h
        cases h
        rw [← List.append_nil code] at hsplit
        obtain ⟨hfront, j, hoffset, hj⟩ := push_cell_of_stackCode hvalue (by simp) hsplit
        exact ⟨hfront, j, hoffset, by omega⟩
    | exit status =>
      cases hstatus : status.stackCode cells with
      | error reason =>
        rw [Statement.stackCode, hstatus] at h
        cases h
      | ok statusCode =>
        rw [Statement.stackCode, hstatus] at h
        cases h
        obtain ⟨hfront, j, hoffset, hj⟩ :=
          push_cell_of_stackCode hstatus (by simp [exitCode]) hsplit
        exact ⟨hfront, j, hoffset, by omega⟩
    | hole => cases h

end Frame

namespace Generator

/-- The generator inside a program: it was given whole programs, and has come so far in another. -/
def inside (g : Generator) (programs : List Program) (front : Program) : Generator :=
  ((prologue.foldl emit (g.after programs)).statements front).2

/-- What comes after the last statement does not touch the frame. -/
theorem frame_generate_eq (g : Generator) (p : Program) :
    (g.generate p).2.frame = ((prologue.foldl emit g).statements p).2.frame := by
  rw [generate]
  split
  · rename_i h
    rw [h]
  · rename_i h
    rw [h]
    split
    · rfl
    · split <;> rfl

/-- The last of several programs is given to the generator that the others leave. -/
theorem after_concat (g : Generator) (programs : List Program) (p : Program) :
    g.after (programs ++ [p]) = ((g.after programs).generate p).2 := by
  rw [after, List.foldl_append]
  rfl

/-- Inside a program the frame is the one after as much of it as a whole program. -/
theorem frame_inside_eq (g : Generator) (programs : List Program) (front : Program) :
    (g.inside programs front).frame = (g.after (programs ++ [front])).frame := by
  rw [after_concat, frame_generate_eq, inside]

variable {g : Generator} {cells : List String}

/-- A program adds a cell for each binding that it completes. -/
theorem frame_generate (h : g.frame = .ofNames cells) (p : Program) :
    (g.generate p).2.frame = .ofNames ((p.kept g.frame).names.reverse ++ cells) := by
  obtain ⟨-, -, hcells, -⟩ := p.stackCode_kept cells
  rw [h, ← hcells, generate_eq g p cells h]
  split
  · rfl
  · exact frame_finish _

/-- The frame after programs holds the names of what was kept of them. -/
theorem frame_after (h : g.frame = .ofNames cells) (programs : List Program) :
    (g.after programs).frame =
      .ofNames ((Program.names (g.keptParts programs).flatten).reverse ++ cells) := by
  induction programs generalizing g cells with
  | nil => exact h
  | cons p later ih =>
    have hlater := ih (frame_generate h p)
    rw [keptParts, List.flatten_cons, Program.names_append, List.reverse_append, List.append_assoc]
    exact hlater

/-- Two generators with the same frame have the same frame after the same programs, whatever their
outputs do. -/
theorem frame_after_congr {g' : Generator} (h : g.frame = .ofNames cells) (hg : g'.frame = g.frame)
    (programs : List Program) : (g'.after programs).frame = (g.after programs).frame := by
  induction programs generalizing g g' cells with
  | nil => exact hg
  | cons p later ih =>
    have hgenerate : (g'.generate p).2.frame = (g.generate p).2.frame := by
      rw [frame_generate (hg.trans h), frame_generate h, hg]
    exact ih (frame_generate h p) hgenerate

/-- A generator stops for the reason that its program has on the cells that are there. -/
theorem generate_stops_iff (h : g.frame = .ofNames cells) (p : Program) (reason : Inconsistency) :
    (g.generate p).1 = .error (.inconsistent reason) ↔
      (p.stackCode cells).outcome = .error reason := by
  rw [generate_eq g p cells h]
  cases houtcome : (p.stackCode cells).outcome with
  | error found => simp
  | ok =>
    constructor
    · intro hstop
      exact (finish_ne_inconsistent (Prod.ext hstop rfl)).elim
    · intro hstop
      cases hstop

/-- In every state that a generator can reach, inside a program or behind it and whatever its sink
does: the depth of its frame is the number of bindings completed so far, every slot is one of that
many cells, distinct names have distinct slots, and a push from the stack reaches a cell that is on
it.  For any other sink the frame is the same, and so are the programs in which the generator
stops, and the reasons. -/
theorem frame_discipline (sink : Sink) (programs : List Program) (front : Program) :
    let g := ofSink sink
    (g.inside programs front).frame.Disciplined
      (Program.names (g.keptParts (programs ++ [front])).flatten).length ∧
    (g.after (programs ++ [front])).frame = (g.inside programs front).frame ∧
    ∀ sink', ((ofSink sink').inside programs front).frame = (g.inside programs front).frame ∧
      ∀ reason, (((ofSink sink').after programs).generate front).1 = .error (.inconsistent reason) ↔
        ((g.after programs).generate front).1 = .error (.inconsistent reason) := by
  intro g
  have hstart : g.frame = .ofNames [] := rfl
  have hsame (sink' : Sink) (programs : List Program) :
      ((ofSink sink').after programs).frame = (g.after programs).frame := by
    have hempty : (ofSink sink').frame = g.frame := rfl
    exact frame_after_congr hstart hempty programs
  refine ⟨?_, (frame_inside_eq g programs front).symm, fun sink' => ⟨?_, fun reason => ?_⟩⟩
  · rw [frame_inside_eq, frame_after hstart, List.append_nil, ← List.length_reverse]
    exact Frame.disciplined_ofNames _
  · rw [frame_inside_eq, frame_inside_eq, hsame]
  · have hframe := frame_after hstart programs
    rw [generate_stops_iff hframe, generate_stops_iff ((hsame sink' programs).trans hframe)]

end Generator

end LetExit
