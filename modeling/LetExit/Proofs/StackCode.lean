import LetExit.Assembly.Generator
import LetExit.Proofs.Scope

/-!
# Code over named cells

Every frame that a generator reaches is determined by the names of the cells on the
stack, top first: it is `Frame.ofNames` of them.  In such a frame a name resolves to
its index among the cells, so the code of a statement can be given without a frame.
`Program.stackCode` collects this code for a program up to the first statement that
has none, and `Generator.generate_eq` says that this is what a generator writes.

A statement has no code for three reasons, which `Program.DefectAt` states in terms of
the program alone; the first statement with a defect is where the code ends
(`Program.outcome_stackCode_eq_error_iff`).
-/

set_option autoImplicit false

namespace LetExit

/-- The frame of a stack whose cells have the given names, top first. -/
def Frame.ofNames : List String → Frame
  | [] => .empty
  | x :: below =>
    ⟨(ofNames below).depth + 1, (ofNames below).slots.insert x ((ofNames below).depth + 1)⟩

/-- The code that pushes the value of an expression on a stack with named cells. -/
def Expr.stackCode (cells : List String) : Expr → Except Inconsistency (List Instruction)
  | .literal value => .ok [.load value.toInt, .push (.register "rax")]
  | .name ident =>
    match cells.idxOf? ident with
    | some i => .ok [.push (.cell (8 * i))]
    | none => .error (.unresolved ident)
  | .hole => .error .missingExpression

/-- The code that pops the status of the process and ends it. -/
def exitCode : List Instruction :=
  [.pop "rdi", .load exitCall, .systemCall]

/-- The code of a statement on a stack with named cells. -/
def Statement.stackCode (cells : List String) : Statement → Except Inconsistency (List Instruction)
  | .bind _ value => value.stackCode cells
  | .exit status => (status.stackCode cells).map (· ++ exitCode)
  | .hole => .error .missingStatement

/-- What the statements of a program come to: their instructions up to the first statement that has
none, the names of the cells after them, and why that statement has none. -/
structure Program.Code where
  instructions : List Instruction
  cells : List String
  outcome : Except Inconsistency Unit

/-- The code of a program on a stack with named cells. -/
def Program.stackCode (cells : List String) : Program → Program.Code
  | [] => ⟨[], cells, .ok ()⟩
  | s :: later =>
    match s.stackCode cells with
    | .ok code =>
      let rest := Program.stackCode (s.binds ++ cells) later
      ⟨code ++ rest.instructions, rest.cells, rest.outcome⟩
    | .error reason => ⟨[], cells, .error reason⟩

namespace Frame

/-- A name resolves to the distance of the topmost cell with that name. -/
theorem resolve?_ofNames (cells : List String) (x : String) :
    (ofNames cells).resolve? x = (cells.idxOf? x).map fun (i : Nat) => 8 * (i : Int) := by
  induction cells with
  | nil => simp [ofNames, empty, resolve?]
  | cons y below ih =>
    rw [List.idxOf?_cons]
    simp only [resolve?, ofNames, Std.ExtTreeMap.getElem?_insert]
    by_cases hxy : y = x
    · simp [hxy]
    · have hne : compare y x ≠ .eq := fun heq => hxy (Std.compare_eq_iff_eq.mp heq)
      have hbeq : (y == x) = false := by simpa using hxy
      -- below the new cell every distance grows by one cell
      have hshift : ((ofNames below).slots[x]?.map fun slot =>
          ((ofNames below).depth + 1 - slot) * cellSize) =
          ((ofNames below).resolve? x).map (· + 8) := by
        rw [resolve?, Option.map_map]
        congr 1
        funext slot
        simp only [Function.comp, cellSize]
        omega
      rw [if_neg hne, hshift, ih]
      simp only [hbeq, Bool.false_eq_true, if_false]
      cases below.idxOf? x with
      | none => rfl
      | some i =>
        show some (8 * (i : Int) + 8) = some (8 * ((i + 1 : Nat) : Int))
        rw [Option.some.injEq]
        omega

end Frame

/-- The code of an expression over a frame of names is its code over the named cells. -/
theorem Expr.code_ofNames (cells : List String) (e : Expr) :
    e.code (.ofNames cells) = (e.stackCode cells).map fun code =>
      (code, { Frame.ofNames cells with depth := (Frame.ofNames cells).depth + 1 }) := by
  cases e with
  | literal value => rfl
  | name ident =>
    simp only [Expr.code, Expr.stackCode, Frame.resolve?_ofNames]
    cases cells.idxOf? ident <;> rfl
  | hole => rfl

/-- The code of a statement over a frame of names is its code over the named cells. -/
theorem Statement.code_ofNames (cells : List String) (s : Statement) :
    s.code (.ofNames cells) =
      (s.stackCode cells).map fun code => (code, Frame.ofNames (s.binds ++ cells)) := by
  cases s with
  | bind ident value =>
    simp only [Statement.code, Expr.code_ofNames, Statement.stackCode]
    cases value.stackCode cells <;> rfl
  | exit status =>
    simp only [Statement.code, Expr.code_ofNames, Statement.stackCode]
    cases status.stackCode cells with
    | error reason => rfl
    | ok code =>
      have hdepth : ∀ n : Int, n + 1 - 1 = n := fun n => by omega
      simp only [Except.map, Frame.pop, hdepth]
      rfl
  | hole => rfl

namespace Generator

/-- Writing a line neither reads nor changes the frame. -/
theorem emit_frame (g : Generator) (frame : Frame) (line : String) :
    ({ g with frame := frame } : Generator).emit line = { g.emit line with frame := frame } := by
  obtain ⟨output, before, failure⟩ := g
  simp only [emit]
  cases failure with
  | some fault => rfl
  | none => rcases output.write (Utf8.ofString line) with ⟨_ | _, _⟩ <;> rfl

/-- Writing lines does not depend on the frame. -/
theorem foldl_emit_frame (g : Generator) (frame : Frame) (lines : List String) :
    lines.foldl emit { g with frame := frame } = { lines.foldl emit g with frame := frame } := by
  induction lines generalizing g with
  | nil => rfl
  | cons line later ih => rw [List.foldl_cons, List.foldl_cons, emit_frame, ih]

/-- Generating statements writes the lines of their code and leaves the cells of their names. -/
theorem statements_eq (g : Generator) (p : Program) (cells : List String)
    (h : g.frame = .ofNames cells) :
    g.statements p = ((p.stackCode cells).outcome,
      { ((p.stackCode cells).instructions.map Instruction.line).foldl emit g with
        frame := .ofNames (p.stackCode cells).cells }) := by
  induction p generalizing g cells with
  | nil =>
    obtain ⟨output, frame, failure⟩ := g
    simp only at h
    rw [h]
    rfl
  | cons s later ih =>
    rw [statements, h, Statement.code_ofNames, Program.stackCode]
    cases s.stackCode cells with
    | error reason =>
      obtain ⟨output, frame, failure⟩ := g
      simp only at h
      rw [h]
      rfl
    | ok code =>
      simp only [Except.map]
      rw [foldl_emit_frame, ih _ (s.binds ++ cells) rfl, foldl_emit_frame, List.map_append,
        List.foldl_append]

/-- The end of a program that has code to its end: a write fault is reported, and otherwise the
text is flushed. -/
def finish (g : Generator) : Except GenerateFault Unit × Generator :=
  match g.failure with
  | some fault => (.error (.write fault), g)
  | none =>
    match g.output.flush with
    | (.ok (), output) => (.ok (), { g with output := output })
    | (.error fault, output) => (.error (.write fault), { g with output := output })

/-- The generator after all lines of a program were written. -/
def afterLines (g : Generator) (code : Program.Code) : Generator :=
  { (prologue ++ code.instructions.map Instruction.line).foldl emit g with
    frame := .ofNames code.cells }

/-- A generator writes the lines of a program and then finishes it, unless it has no code. -/
theorem generate_eq (g : Generator) (p : Program) (cells : List String)
    (h : g.frame = .ofNames cells) :
    g.generate p =
      match (p.stackCode cells).outcome with
      | .error reason => (.error (.inconsistent reason), g.afterLines (p.stackCode cells))
      | .ok () => (g.afterLines (p.stackCode cells)).finish := by
  have hframe : (prologue.foldl emit g).frame = .ofNames cells := by
    have hsame : prologue.foldl emit g = { prologue.foldl emit g with frame := g.frame } :=
      foldl_emit_frame g g.frame prologue
    rw [hsame, h]
  rw [generate, statements_eq _ p cells hframe, ← List.foldl_append]
  cases (p.stackCode cells).outcome <;> rfl

end Generator

/-- The statement at an index has no code, for the given reason: the statement or its expression is
missing, or its expression is a name that no `let` of smaller index binds. -/
inductive Program.DefectAt (p : Program) (i : Nat) : Inconsistency → Prop
  | missingStatement : p[i]? = some .hole → p.DefectAt i .missingStatement
  | missingExpression {s : Statement} : p[i]? = some s → s.expr? = some .hole →
      p.DefectAt i .missingExpression
  | unresolved {s : Statement} {x : String} : p[i]? = some s → s.expr? = some (.name x) →
      (∀ j < i, ∀ e, p[j]? ≠ some (.bind x e)) → p.DefectAt i (.unresolved x)

/-- The reasons for which a statement has no code. -/
theorem Statement.stackCode_eq_error_iff {cells : List String} {s : Statement}
    {reason : Inconsistency} : s.stackCode cells = .error reason ↔
      (s = .hole ∧ reason = .missingStatement) ∨
      (s.expr? = some .hole ∧ reason = .missingExpression) ∨
      ∃ x, s.expr? = some (.name x) ∧ x ∉ cells ∧ reason = .unresolved x := by
  have hexpr : ∀ e : Expr, e.stackCode cells = .error reason ↔
      (e = .hole ∧ reason = .missingExpression) ∨
      ∃ x, e = .name x ∧ x ∉ cells ∧ reason = .unresolved x := by
    intro e
    cases e with
    | literal value => simp [Expr.stackCode]
    | name ident =>
      rw [Expr.stackCode]
      cases hi : cells.idxOf? ident with
      | none =>
        rw [List.idxOf?_eq_none_iff] at hi
        simp [hi, eq_comm]
      | some i =>
        have hmem : ident ∈ cells := by
          apply Classical.byContradiction
          intro hne
          rw [List.idxOf?_eq_none_iff.mpr hne] at hi
          cases hi
        simp [hmem]
    | hole => simp [Expr.stackCode, eq_comm]
  cases s with
  | bind ident value => simp [Statement.stackCode, Statement.expr?, hexpr]
  | exit status =>
    have hmap : (status.stackCode cells).map (· ++ exitCode) = .error reason ↔
        status.stackCode cells = .error reason := by
      cases status.stackCode cells <;> simp [Except.map]
    simp [Statement.stackCode, Statement.expr?, hmap, hexpr]
  | hole => simp [Statement.stackCode, Statement.expr?, eq_comm]

namespace Program

/-- The statement at an index has no code after those in front of it, on a stack that held the given
cells before the program. -/
def FailsAt (cells : List String) (p : Program) (i : Nat) (reason : Inconsistency) : Prop :=
  ∃ s, p[i]? = some s ∧ s.stackCode ((names (p.take i)).reverse ++ cells) = .error reason

/-- The first statement of a program fails over the cells before the program. -/
theorem failsAt_zero_iff {cells : List String} {s : Statement} {later : Program}
    {reason : Inconsistency} :
    FailsAt cells (s :: later) 0 reason ↔ s.stackCode cells = .error reason := by
  simp [FailsAt, names]

/-- A later statement fails over the cells that the first one leaves. -/
theorem failsAt_succ_iff {cells : List String} {s : Statement} {later : Program} {i : Nat}
    {reason : Inconsistency} :
    FailsAt cells (s :: later) (i + 1) reason ↔ FailsAt (s.binds ++ cells) later i reason := by
  simp only [FailsAt, List.getElem?_cons_succ, List.take_succ_cons, names_cons,
    List.reverse_append, s.reverse_binds, List.append_assoc]

/-- The code of a program ends at the first statement that has none. -/
theorem outcome_eq_error_iff_failsAt {cells : List String} {p : Program} {reason : Inconsistency} :
    (p.stackCode cells).outcome = .error reason ↔
      ∃ i, FailsAt cells p i reason ∧ ∀ j < i, ∀ other, ¬ FailsAt cells p j other := by
  induction p generalizing cells with
  | nil => simp [stackCode, FailsAt]
  | cons s later ih =>
    rw [stackCode]
    cases hs : s.stackCode cells with
    | error found =>
      -- no statement is in front of the first one
      constructor
      · intro h
        refine ⟨0, ?_, fun j hj => absurd hj (Nat.not_lt_zero j)⟩
        rw [failsAt_zero_iff, hs, Except.error.inj h]
      · rintro ⟨i, hi, hfirst⟩
        cases i with
        | zero =>
          rw [failsAt_zero_iff, hs] at hi
          rw [Except.error.inj hi]
        | succ i =>
          have hzero := hfirst 0 (Nat.succ_pos i) found
          exact absurd (failsAt_zero_iff.mpr hs) hzero
    | ok code =>
      -- all indices move by one, and the first statement is not among those that fail
      have hzero : ∀ other, ¬ FailsAt cells (s :: later) 0 other := by
        intro other h
        rw [failsAt_zero_iff, hs] at h
        cases h
      dsimp only
      rw [ih]
      constructor
      · rintro ⟨i, hi, hfirst⟩
        refine ⟨i + 1, failsAt_succ_iff.mpr hi, fun j hj other => ?_⟩
        cases j with
        | zero => exact hzero other
        | succ j =>
          rw [failsAt_succ_iff]
          exact hfirst j (Nat.lt_of_succ_lt_succ hj) other
      · rintro ⟨i, hi, hfirst⟩
        cases i with
        | zero => exact absurd hi (hzero reason)
        | succ i =>
          refine ⟨i, failsAt_succ_iff.mp hi, fun j hj other => ?_⟩
          rw [← failsAt_succ_iff]
          exact hfirst (j + 1) (Nat.succ_lt_succ hj) other

/-- On an empty stack a statement has no code exactly if it is defective. -/
theorem failsAt_nil_iff_defectAt {p : Program} {i : Nat} {reason : Inconsistency} :
    FailsAt [] p i reason ↔ p.DefectAt i reason := by
  have hbound : ∀ x, x ∉ (names (p.take i)).reverse ++ [] ↔
      ∀ j < i, ∀ e, p[j]? ≠ some (.bind x e) := by
    intro x
    rw [List.append_nil, List.mem_reverse, mem_names_take_iff]
    simp
  simp only [FailsAt, Statement.stackCode_eq_error_iff, hbound]
  constructor
  · rintro ⟨s, hs, ⟨rfl, rfl⟩ | ⟨he, rfl⟩ | ⟨x, he, hx, rfl⟩⟩
    · exact .missingStatement hs
    · exact .missingExpression hs he
    · exact .unresolved hs he hx
  · intro h
    cases h with
    | missingStatement hs => exact ⟨_, hs, .inl ⟨rfl, rfl⟩⟩
    | missingExpression hs he => exact ⟨_, hs, .inr (.inl ⟨he, rfl⟩)⟩
    | unresolved hs he hx => exact ⟨_, hs, .inr (.inr ⟨_, he, hx, rfl⟩)⟩

/-- The code of a program on an empty stack ends at the first statement with a defect. -/
theorem outcome_stackCode_eq_error_iff {p : Program} {reason : Inconsistency} :
    (p.stackCode []).outcome = .error reason ↔
      ∃ i, p.DefectAt i reason ∧ ∀ j < i, ∀ other, ¬ p.DefectAt j other := by
  rw [outcome_eq_error_iff_failsAt]
  simp only [failsAt_nil_iff_defectAt]

/-- A program whose nodes are all there and whose names are bound has code to its end. -/
theorem outcome_stackCode_eq_ok {p : Program} (hcomplete : p.Complete) (hscoped : p.Scoped) :
    (p.stackCode []).outcome = .ok () := by
  cases houtcome : (p.stackCode []).outcome with
  | ok => rfl
  | error reason =>
    obtain ⟨i, hdefect, -⟩ := outcome_stackCode_eq_error_iff.mp houtcome
    cases hdefect with
    | missingStatement hs => exact absurd rfl (hcomplete _ (List.mem_of_getElem? hs)).1
    | missingExpression hs he => exact absurd he (hcomplete _ (List.mem_of_getElem? hs)).2
    | unresolved hs he hx =>
      obtain ⟨j, hj, e, hbind⟩ := hscoped i _ _ hs he
      exact absurd hbind (hx j hj e)

/-- A program that has code starts with the code of its first statement. -/
theorem exists_of_outcome_cons_ok {s : Statement} {p : Program} {cells : List String}
    (h : (stackCode cells (s :: p)).outcome = .ok ()) :
    ∃ code, s.stackCode cells = .ok code ∧
      (stackCode cells (s :: p)).instructions =
        code ++ (p.stackCode (s.binds ++ cells)).instructions ∧
      (p.stackCode (s.binds ++ cells)).outcome = .ok () := by
  rw [stackCode] at h ⊢
  cases hs : s.stackCode cells with
  | error reason =>
    rw [hs] at h
    cases h
  | ok code =>
    rw [hs] at h
    exact ⟨code, rfl, rfl, h⟩

/-- The code of a program that has code to its end stays in front when statements are added, and
they find the cells that it leaves. -/
theorem stackCode_append {cells : List String} {p : Program} (q : Program)
    (h : (p.stackCode cells).outcome = .ok ()) :
    stackCode cells (p ++ q) =
      { q.stackCode (p.names.reverse ++ cells) with
        instructions := (p.stackCode cells).instructions ++
          (q.stackCode (p.names.reverse ++ cells)).instructions } := by
  induction p generalizing cells with
  | nil => rfl
  | cons s later ih =>
    obtain ⟨code, hs, hcode, hlater⟩ := exists_of_outcome_cons_ok h
    rw [hcode, List.cons_append, stackCode, hs, names_cons, List.reverse_append, s.reverse_binds,
      List.append_assoc, List.append_assoc, ih hlater]

/-- The code of programs one after the other, if the first has code to its end. -/
theorem instructions_append {cells : List String} {p : Program} (q : Program)
    (h : (p.stackCode cells).outcome = .ok ()) :
    (stackCode cells (p ++ q)).instructions =
      (p.stackCode cells).instructions ++
        (q.stackCode (p.names.reverse ++ cells)).instructions := by
  rw [stackCode_append q h]

end Program

end LetExit
