import LetExit.Proofs.Language
import LetExit.Proofs.Machine

/-!
# Generated code runs as the program means

The meaning of a program is given by environments: a `let` adds the value of its
expression under its name, in front of all earlier ones, and an `exit` reports the value
of its expression.  Nothing is ever taken out of an environment, so the stack of a
machine can hold the values of an environment in the same order.  That is the invariant
(`Machine.Holds`) which the code of an expression, of a statement and of a program keeps.

`assembly_realizes` goes from there to the bytes of an assembly file, and back to the
text that the program was read from.
-/

set_option autoImplicit false

namespace LetExit

/-- The values bound so far, latest first. -/
abbrev Environment := List (String × Int64)

/-- The value of an expression, which has none where a name is not bound. -/
def Expr.eval (env : Environment) : Expr → Option Int64
  | .literal value => some value
  | .name ident => env.lookup ident
  | .hole => none

/-- The environment after a statement, and the values that it reports. -/
def Statement.eval (env : Environment) : Statement → Option (Environment × List Int64)
  | .bind ident value => (value.eval env).map fun v => ((ident, v) :: env, [])
  | .exit status => (status.eval env).map fun v => (env, [v])
  | .hole => none

namespace Program

/-- The environment after a program, and the values that its statements report in order.  A report
does not end the program. -/
def eval (env : Environment) : Program → Option (Environment × List Int64)
  | [] => some (env, [])
  | s :: later =>
    match s.eval env with
    | some (next, exits) => (eval next later).map fun (last, more) => (last, exits ++ more)
    | none => none

/-- The status of a process that runs a program and ends with the first value it reports, of which
an operating system keeps the low eight bits. -/
def status? (env : Environment) : Program → Option Int
  | [] => none
  | .bind ident value :: later =>
    match value.eval env with
    | some v => status? ((ident, v) :: env) later
    | none => none
  | .exit status :: _ => (status.eval env).map fun v => v.toInt % 256
  | .hole :: _ => none

/-- The status of a process is the low byte of the first value that is reported. -/
theorem status?_eq_of_eval {p : Program} {env last : Environment} {exits : List Int64}
    (h : p.eval env = some (last, exits)) :
    p.status? env = exits.head?.map fun v => v.toInt % 256 := by
  induction p generalizing env last exits with
  | nil =>
    rw [eval, Option.some.injEq, Prod.mk.injEq] at h
    obtain ⟨-, rfl⟩ := h
    rfl
  | cons s later ih =>
    rw [eval] at h
    split at h
    · rename_i next now hs
      obtain ⟨⟨last', more⟩, hlater, heq⟩ := Option.map_eq_some_iff.mp h
      obtain ⟨rfl, rfl⟩ := Prod.mk.inj heq
      cases s with
      | bind ident value =>
        obtain ⟨v, hv, hnext⟩ := Option.map_eq_some_iff.mp hs
        obtain ⟨rfl, rfl⟩ := Prod.mk.inj hnext
        rw [status?, hv]
        exact ih hlater
      | exit status =>
        obtain ⟨v, hv, hnext⟩ := Option.map_eq_some_iff.mp hs
        obtain ⟨rfl, rfl⟩ := Prod.mk.inj hnext
        rw [status?, hv]
        rfl
      | hole => cases hs
    · cases h

end Program

/-- Looking a name up finds the value at the place of its topmost cell. -/
theorem exists_lookup_of_idxOf? {α : Type} {env : List (String × α)} {x : String} {i : Nat}
    (h : (env.map Prod.fst).idxOf? x = some i) :
    ∃ v, env.lookup x = some v ∧ (env.map Prod.snd)[i]? = some v := by
  induction env generalizing i with
  | nil => cases h
  | cons first below ih =>
    obtain ⟨y, w⟩ := first
    rw [List.map_cons, List.idxOf?_cons] at h
    by_cases hyx : y = x
    · subst hyx
      rw [if_pos (by simp), Option.some.injEq] at h
      subst h
      exact ⟨w, List.lookup_cons_self, rfl⟩
    · rw [if_neg (by simpa using hyx)] at h
      obtain ⟨j, hj, rfl⟩ := Option.map_eq_some_iff.mp h
      obtain ⟨v, hlookup, hcell⟩ := ih hj
      have hne : (x == y) = false := by simpa using Ne.symm hyx
      refine ⟨v, ?_, ?_⟩
      · rw [List.lookup_cons, hne]
        exact hlookup
      · rw [List.map_cons, List.getElem?_cons_succ]
        exact hcell

namespace Machine

/-- The cells of the stack are the values of the environment. -/
def Holds (m : Machine) (env : Environment) : Prop :=
  m.stack = env.map Prod.snd

/-- The code that ends a process takes the top of the stack for its status. -/
theorem run_exitCode (m : Machine) (v : Int64) (below : List Int64) (h : m.stack = v :: below) :
    m.run exitCode = some ⟨60, v, below, m.calls ++ [(60, v)]⟩ := by
  have hload (m : Machine) : m.step (.load exitCall) = some { m with rax := 60 } :=
    step_load m 60
  rw [exitCode, run_cons (step_pop_rdi h), run_cons (hload _)]
  rfl

end Machine

/-- The code of an expression pushes its value. -/
theorem Expr.run_stackCode {e : Expr} {env : Environment} {code : List Instruction}
    (h : e.stackCode (env.map Prod.fst) = .ok code) :
    ∃ v, e.eval env = some v ∧ ∀ m : Machine, m.Holds env →
      ∃ rax, m.run code = some { m with rax := rax, stack := v :: m.stack } := by
  cases e with
  | literal value =>
    rw [stackCode, Except.ok.injEq] at h
    subst h
    refine ⟨value, rfl, fun m _ => ⟨value, ?_⟩⟩
    rw [Machine.run_cons (Machine.step_load m value)]
    rfl
  | name ident =>
    rw [stackCode] at h
    split at h
    · rename_i i hi
      rw [Except.ok.injEq] at h
      subst h
      obtain ⟨v, hlookup, hcell⟩ := exists_lookup_of_idxOf? hi
      refine ⟨v, hlookup, fun m hm => ⟨m.rax, ?_⟩⟩
      have hread : m.stack[i]? = some v := by rw [hm, hcell]
      exact Machine.run_cons (Machine.step_push_cell hread) []
    · cases h
  | hole => cases h

/-- The code of a statement keeps the cells in step with the environment, and makes a system call
for each value that the statement reports. -/
theorem Statement.run_stackCode {s : Statement} {env : Environment} {code : List Instruction}
    (h : s.stackCode (env.map Prod.fst) = .ok code) :
    ∃ next exits, s.eval env = some (next, exits) ∧
      next.map Prod.fst = s.binds ++ env.map Prod.fst ∧
      ∀ m : Machine, m.Holds env → ∃ after, m.run code = some after ∧ after.Holds next ∧
        after.calls = m.calls ++ exits.map fun v => (60, v) := by
  cases s with
  | bind ident value =>
    obtain ⟨v, heval, hrun⟩ := Expr.run_stackCode h
    refine ⟨(ident, v) :: env, [], by rw [eval, heval]; rfl, rfl, fun m hm => ?_⟩
    obtain ⟨rax, hafter⟩ := hrun m hm
    refine ⟨_, hafter, ?_, (List.append_nil _).symm⟩
    show v :: m.stack = v :: env.map Prod.snd
    rw [hm]
  | exit status =>
    rw [stackCode] at h
    cases hstatus : status.stackCode (env.map Prod.fst) with
    | error reason =>
      rw [hstatus] at h
      cases h
    | ok first =>
      rw [hstatus, Except.map, Except.ok.injEq] at h
      subst h
      obtain ⟨v, heval, hrun⟩ := Expr.run_stackCode hstatus
      refine ⟨env, [v], by rw [eval, heval]; rfl, rfl, fun m hm => ?_⟩
      obtain ⟨rax, hafter⟩ := hrun m hm
      -- the cell pushed for the status is popped again, so the cells are those from before
      refine ⟨⟨60, v, m.stack, m.calls ++ [(60, v)]⟩, ?_, hm, rfl⟩
      rw [Machine.run_append, hafter, Option.bind_some]
      exact Machine.run_exitCode _ v m.stack rfl
  | hole => cases h

/-- The code of a program does on a machine what the program means in an environment. -/
theorem Program.run_stackCode {p : Program} {env : Environment}
    (h : (p.stackCode (env.map Prod.fst)).outcome = .ok ()) :
    ∃ last exits, p.eval env = some (last, exits) ∧
      last.map Prod.fst = p.names.reverse ++ env.map Prod.fst ∧
      ∀ m : Machine, m.Holds env → ∃ after,
        m.run (p.stackCode (env.map Prod.fst)).instructions = some after ∧ after.Holds last ∧
        after.calls = m.calls ++ exits.map fun v => (60, v) := by
  induction p generalizing env with
  | nil => exact ⟨env, [], rfl, rfl, fun m hm => ⟨m, rfl, hm, (List.append_nil _).symm⟩⟩
  | cons s later ih =>
    -- the code of the rest is generated for the cells that the first statement leaves, and these
    -- are the names of the environment it leaves
    rw [stackCode] at h ⊢
    cases hs : s.stackCode (env.map Prod.fst) with
    | error reason =>
      rw [hs] at h
      cases h
    | ok code =>
      rw [hs] at h
      obtain ⟨next, now, heval, hnames, hrun⟩ := Statement.run_stackCode hs
      rw [← hnames] at h
      obtain ⟨last, exits, hlater, hlast, hrunLater⟩ := ih h
      refine ⟨last, now ++ exits, ?_, ?_, fun m hm => ?_⟩
      · rw [eval, heval]
        simp only [hlater, Option.map_some]
      · rw [hlast, hnames, names_cons, List.reverse_append, s.reverse_binds, List.append_assoc]
      · obtain ⟨middle, hmiddle, hholds, hcalls⟩ := hrun m hm
        obtain ⟨after, hafter, hend, hmore⟩ := hrunLater middle hholds
        refine ⟨after, ?_, hend, ?_⟩
        · simp only [← hnames]
          rw [Machine.run_append, hmiddle, Option.bind_some, hafter]
        · rw [hmore, hcalls, List.append_assoc, List.map_append]

/-- The machine knows the instructions of an expression. -/
theorem Expr.known_stackCode {e : Expr} {cells : List String} {code : List Instruction}
    (h : e.stackCode cells = .ok code) : ∀ i ∈ code, Assembly.Known i := by
  cases e with
  | literal value =>
    rw [stackCode, Except.ok.injEq] at h
    subst h
    simp [Assembly.Known.load, Assembly.Known.pushRax]
  | name ident =>
    rw [stackCode] at h
    split at h
    · rw [Except.ok.injEq] at h
      subst h
      simp [Assembly.Known.pushCell]
    · cases h
  | hole => cases h

/-- The machine knows the instructions of a statement. -/
theorem Statement.known_stackCode {s : Statement} {cells : List String} {code : List Instruction}
    (h : s.stackCode cells = .ok code) : ∀ i ∈ code, Assembly.Known i := by
  cases s with
  | bind ident value => exact Expr.known_stackCode h
  | exit status =>
    rw [stackCode] at h
    cases hstatus : status.stackCode cells with
    | error reason =>
      rw [hstatus] at h
      cases h
    | ok first =>
      rw [hstatus, Except.map, Except.ok.injEq] at h
      subst h
      intro i hi
      rw [List.mem_append] at hi
      cases hi with
      | inl hi => exact Expr.known_stackCode hstatus i hi
      | inr hi =>
        simp only [exitCode, List.mem_cons, List.not_mem_nil, or_false] at hi
        obtain rfl | rfl | rfl := hi
        · exact .popRdi
        · exact .load _
        · exact .systemCall
  | hole => cases h

/-- The machine knows all instructions of a program. -/
theorem Program.known_stackCode (p : Program) (cells : List String) :
    ∀ i ∈ (p.stackCode cells).instructions, Assembly.Known i := by
  induction p generalizing cells with
  | nil => simp [stackCode]
  | cons s later ih =>
    rw [stackCode]
    cases hs : s.stackCode cells with
    | error reason => simp
    | ok code =>
      intro i hi
      rw [List.mem_append] at hi
      cases hi with
      | inl hi => exact Statement.known_stackCode hs i hi
      | inr hi => exact ih _ i hi

/-- A file does what a program means.  It can be read as instructions, the program has a meaning,
and a machine with an empty stack runs the instructions to their end, whatever is in its registers.
It calls the system with number 60 once for each value that the program reports, the status of the
process is that of the first call, and the values of all `let`s are on the stack, the latest on
top. -/
def Assembly.Realizes (file : Bytes) (p : Program) : Prop :=
  ∃ code last exits, Assembly.read? file = some code ∧
    p.eval [] = some (last, exits) ∧ last.map Prod.fst = p.names.reverse ∧
    ∀ rax rdi, ∃ m, (Machine.start rax rdi).run code = some m ∧
      m.calls = (exits.map fun v => (60, v)) ∧
      (m.calls.head?.map fun call => call.2.toInt % 256) = p.status? [] ∧
      m.stack = last.map Prod.snd

/-- The file of a program that has code to its end does what the program means. -/
theorem Assembly.realizes_assemblyFile {p : Program} (h : (p.stackCode []).outcome = .ok ()) :
    Assembly.Realizes (assemblyFile (p.stackCode []).instructions) p := by
  have hread := Assembly.read?_assemblyFile (Program.known_stackCode p [])
  have hstart : (p.stackCode (([] : Environment).map Prod.fst)).outcome = .ok () := h
  obtain ⟨last, exits, heval, hnames, hrun⟩ := Program.run_stackCode hstart
  rw [List.map_nil, List.append_nil] at hnames
  refine ⟨_, last, exits, hread, heval, hnames, fun rax rdi => ?_⟩
  obtain ⟨m, hm, hholds, hcalls⟩ := hrun (.start rax rdi) rfl
  rw [Machine.start, List.nil_append] at hcalls
  refine ⟨m, hm, hcalls, ?_, hholds⟩
  rw [hcalls, List.head?_map, Option.map_map, Program.status?_eq_of_eval heval]
  rfl

/-- Every program without missing nodes in which each name is bound before it is used is written
out as a file that does what the program means.  Every text that can be read at all gives such a
program, so compiling it succeeds and leaves such a file. -/
theorem assembly_realizes :
    (∀ p : Program, p.Complete → p.Scoped → ∃ sink,
      p.generate (.fresh none) = (.ok (), sink) ∧ Assembly.Realizes sink.written p) ∧
    (∀ (input : Input) (p : Program), Program.parse input = .ok p → ∃ sink,
      compile input (.fresh none) = (.ok (), sink) ∧ Assembly.Realizes sink.written p) := by
  have hprogram (p : Program) (hcomplete : p.Complete) (hscoped : p.Scoped) : ∃ sink,
      p.generate (.fresh none) = (.ok (), sink) ∧ Assembly.Realizes sink.written p := by
    have hok := Program.outcome_stackCode_eq_ok hcomplete hscoped
    obtain ⟨sink, hgenerate, hwritten⟩ := Program.generate_fresh hok
    refine ⟨sink, hgenerate, ?_⟩
    rw [hwritten]
    exact Assembly.realizes_assemblyFile hok
  refine ⟨hprogram, fun input p hparse => ?_⟩
  rw [compile, hparse]
  exact hprogram p (Program.complete_of_parse hparse) (Program.scoped_of_parse hparse)

/-- Two cells have the name `x`, a value is reported before the last `let`, and the second report
reads the cell below the top one. -/
theorem assembly_realizes_shadowed :
    (∃ sink, Program.generate
        [.bind "x" (.literal 300), .bind "x" (.literal (-1)), .exit (.name "x"),
          .bind "y" (.literal 2), .exit (.name "x")] (.fresh none) = (.ok (), sink) ∧
      Assembly.Realizes sink.written
        [.bind "x" (.literal 300), .bind "x" (.literal (-1)), .exit (.name "x"),
          .bind "y" (.literal 2), .exit (.name "x")]) ∧
    (∃ sink, compile (.memory (Utf8.ofString "let x=7;let y=x;exit(x);let z=y;exit(z);"))
        (.fresh none) = (.ok (), sink) ∧
      Assembly.Realizes sink.written
        [.bind "x" (.literal 7), .bind "y" (.name "x"), .exit (.name "x"),
          .bind "z" (.name "y"), .exit (.name "z")]) := by
  refine ⟨assembly_realizes.1 _ ?_ ?_, assembly_realizes.2 _ _ ?_⟩
  · simp [Program.Complete, Statement.expr?]
  · simp [Program.scoped_iff_scopedAfter, Program.ScopedAfter, Statement.expr?, Statement.binds]
  · with_unfolding_all rfl

end LetExit
