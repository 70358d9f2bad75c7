import LetExit.Build
import LetExit.Proofs.Consistency
import LetExit.Proofs.Deliveries
import LetExit.Proofs.TokenList
import Mathlib.Logic.Function.Basic

/-!
# The stages of a build

A build opens its source, reads it, writes the assembly file and calls two tools, and each
stage waits for the one before.  Here it runs on a desk: files are a map from paths to
contents, a file that is opened arrives in any pieces, and a tool may do anything but touch
a file.

What counts of a desk is its shelf, the files and the calls of tools.  `Leaves` says what a
step answers and how it leaves the shelf, whatever has been printed before; steps compose
by `Leaves.bind`.  Logging leaves the shelf as it is, so a build does the same to it with
and without the listing of tokens.

What a tool does may depend on the shelf that it finds, so a call tells when it is made.
`Toolchain.Calls` has the assembler find the assembly file as it is written, and the linker
find the call of the assembler too.
-/

set_option autoImplicit false

namespace LetExit

/-- A call of a tool, with its result. -/
structure ToolCall where
  tool : String
  args : List String
  result : ToolRun

/-- What becomes of a build at a call. -/
def ToolCall.outcome (call : ToolCall) : Except ToolError Unit :=
  match call.result.failure with
  | none => .ok ()
  | some cause => .error ⟨call.tool, call.args, call.result.output, cause⟩

/-- The files under their paths, and the calls of tools that have been made. -/
structure Shelf where
  files : String → Option Bytes
  calls : List ToolCall

namespace Shelf

/-- Writes a file, in place of the one that is there. -/
def write (s : Shelf) (path : String) (content : Bytes) : Shelf :=
  { s with files := Function.update s.files path (some content) }

/-- Adds calls that have been made. -/
def record (s : Shelf) (calls : List ToolCall) : Shelf :=
  { s with calls := s.calls ++ calls }

/-- Calls are recorded one after the other. -/
theorem record_record (s : Shelf) (first later : List ToolCall) :
    (s.record first).record later = s.record (first ++ later) := by
  simp only [record, List.append_assoc]

/-- Recording no calls changes nothing. -/
theorem record_nil (s : Shelf) : s.record [] = s := by
  simp only [record, List.append_nil]

/-- The source is there and is a program. -/
def Accepts (s : Shelf) (o : Options) : Prop :=
  ∃ content program, s.files o.source = some content ∧
    Program.parse (.memory content) = .ok program

end Shelf

/-- A shelf and all that has been printed. -/
structure Desk extends Shelf where
  stdout : String
  stderr : String

/-- What a build cannot choose: the pieces in which the content of a file arrives, of which not too
many in a row are empty, and what tools do when they are called.  A tool sees the files and the
calls before, but not what has been printed. -/
structure Surroundings where
  pieces : Desk → Bytes → List Bytes
  flatten_pieces : ∀ desk content, (pieces desk content).flatten = content
  steady_pieces : ∀ desk content, Delivery.Steady ((pieces desk content).map .bytes)
  answer : Shelf → String → List String → ToolRun

namespace Surroundings

/-- Opens a source. -/
def openSource (env : Surroundings) (path : String) (desk : Desk) : Except FileFault Input :=
  match desk.files path with
  | some content => .ok (.ofDeliveries ((env.pieces desk content).map .bytes))
  | none => .error ⟨.opening, path, .noEntry⟩

/-- The call of a tool. -/
def call (env : Surroundings) (s : Shelf) (tool : String) (args : List String) : ToolCall :=
  ⟨tool, args, env.answer s tool args⟩

/-- The desk as a host. -/
def host (env : Surroundings) : Host (StateM Desk) where
  openSource path := return env.openSource path (← get)
  makeDirectories _ := return .ok ()
  writeFile path content := modifyGet fun desk =>
    (.ok (), { desk with toShelf := desk.write path content })
  findTool _ := return none
  runTool tool args := modifyGet fun desk =>
    ((env.call desk.toShelf tool args).result,
      { desk with toShelf := desk.record [env.call desk.toShelf tool args] })
  print text := modify fun desk => { desk with stdout := desk.stdout ++ text }
  report text := modify fun desk => { desk with stderr := desk.stderr ++ text }

/-- Runs a build on a desk. -/
def build (env : Surroundings) (tools : Toolchain) (o : Options) (desk : Desk) :
    Except BuildFault Unit × Desk :=
  (Build.run env.host tools o).run desk

end Surroundings

/-- What a step answers and how it leaves the shelf, whatever has been printed before. -/
def Leaves {ε α : Type} (before : Shelf) (step : ExceptT ε (StateM Desk) α) (answer : Except ε α)
    (after : Shelf) : Prop :=
  ∀ desk : Desk, desk.toShelf = before →
    (step.run desk).1 = answer ∧ (step.run desk).2.toShelf = after

section Rules

variable {ε α β : Type} {s mid after : Shelf} {step : ExceptT ε (StateM Desk) α}

/-- An answer alone leaves the shelf as it is. -/
theorem leaves_pure (a : α) : Leaves s (pure a : ExceptT ε (StateM Desk) α) (.ok a) s :=
  fun _ h => ⟨rfl, h⟩

/-- A fault leaves the shelf as it is. -/
theorem leaves_throw (e : ε) : Leaves s (throw e : ExceptT ε (StateM Desk) α) (.error e) s :=
  fun _ h => ⟨rfl, h⟩

/-- An action of the host answers and leaves the shelf as it does alone. -/
theorem leaves_lift {action : StateM Desk α} {a : α}
    (h : ∀ desk : Desk, desk.toShelf = s →
      (action.run desk).1 = a ∧ (action.run desk).2.toShelf = after) :
    Leaves s (liftM action : ExceptT ε (StateM Desk) α) (.ok a) after := by
  intro desk hdesk
  obtain ⟨hanswer, hafter⟩ := h desk hdesk
  exact ⟨congrArg Except.ok hanswer, hafter⟩

/-- Steps run one after the other until one of them fails. -/
theorem Desk.run_bind (step : ExceptT ε (StateM Desk) α) (f : α → ExceptT ε (StateM Desk) β)
    (desk : Desk) :
    (step >>= f).run desk =
      match step.run desk with
      | (.ok a, next) => (f a).run next
      | (.error e, next) => (.error e, next) := by
  show (ExceptT.bindCont f (step.run desk).1).run (step.run desk).2 = _
  rcases step.run desk with ⟨_ | _, next⟩ <;> rfl

/-- A step that succeeds leaves the shelf to the step after it. -/
theorem Leaves.bind {f : α → ExceptT ε (StateM Desk) β} {a : α} {answer : Except ε β}
    (h : Leaves s step (.ok a) mid) (hf : Leaves mid (f a) answer after) :
    Leaves s (step >>= f) answer after := by
  intro desk hdesk
  obtain ⟨hanswer, hmid⟩ := h desk hdesk
  rw [Desk.run_bind]
  rcases hstep : step.run desk with ⟨first, next⟩
  rw [hstep] at hanswer hmid
  subst hanswer
  exact hf next hmid

/-- No step comes after one that fails. -/
theorem Leaves.bind_error {f : α → ExceptT ε (StateM Desk) β} {e : ε}
    (h : Leaves s step (.error e) after) : Leaves s (step >>= f) (.error e) after := by
  intro desk hdesk
  obtain ⟨hanswer, hafter⟩ := h desk hdesk
  rw [Desk.run_bind]
  rcases hstep : step.run desk with ⟨first, next⟩
  rw [hstep] at hanswer hafter
  subst hanswer
  exact ⟨rfl, hafter⟩

end Rules

/-- A source that is a program can be cut into tokens to its end. -/
theorem Program.exists_tokenize_of_parse {input : Input} {program : Program}
    (h : parse input = .ok program) : ∃ ts, (Lexer.ofInput input).tokenize.1 = .ok ts := by
  obtain ⟨ts, fault, hgives, htokens⟩ := TokenStream.exists_gives_lexer (.ofInput input)
  have hend : fault = .endOfInput := by
    rw [parse_eq_behind hgives] at h
    exact Decidable.byContradiction fun hne => Fault.behind_ne_ok hne _ program h
  rw [if_pos hend] at htokens
  exact ⟨ts, htokens⟩

section Steps

variable {ε α β : Type} (env : Surroundings) {s after : Shelf} {o : Options}

/-- Handing on an answer does nothing to the shelf. -/
theorem leaves_check (fault : ε → BuildFault) (answer : Except ε α) :
    Leaves s (Build.check fault answer) (answer.mapError fault) s := by
  cases answer with
  | ok a => exact leaves_pure a
  | error e => exact leaves_throw (fault e)

/-- Printing leaves the shelf as it is. -/
theorem leaves_print (text : String) :
    Leaves s (liftM (env.host.print text) : ExceptT ε (StateM Desk) Unit) (.ok ()) s :=
  leaves_lift fun _ h => ⟨rfl, h⟩

/-- Logging leaves the shelf as it is. -/
theorem leaves_log (verbose : Bool) (entry : Log.Entry) :
    Leaves s (liftM (env.host.log verbose entry) : ExceptT ε (StateM Desk) Unit) (.ok ()) s := by
  unfold Host.log
  split
  · exact leaves_lift fun _ h => ⟨rfl, h⟩
  · exact leaves_lift fun _ h => ⟨rfl, h⟩

/-- Logging tokens leaves the shelf as it is. -/
theorem leaves_forM_log (verbose : Bool) (ts : List Token) :
    Leaves s (ts.forM fun t => (liftM (env.host.log verbose (Build.tokenEntry t)) :
      ExceptT BuildFault (StateM Desk) Unit)) (.ok ()) s := by
  induction ts with
  | nil => exact leaves_pure ()
  | cons t ts ih => exact (leaves_log env verbose (Build.tokenEntry t)).bind ih

/-- Reporting progress leaves the shelf as it is. -/
theorem leaves_progress (message : String) (fields : List (String × Bytes)) :
    Leaves s (Build.progress env.host o message fields) (.ok ()) s :=
  leaves_log env o.verbose _

/-- A step that is only taken if wanted, and leaves the shelf as it is. -/
theorem leaves_ite_bind {wanted : Bool} {step : ExceptT ε (StateM Desk) Unit}
    {f : Unit → ExceptT ε (StateM Desk) β} {answer : Except ε β}
    (hstep : wanted = true → Leaves s step (.ok ()) s) (hf : Leaves s (f ()) answer after) :
    Leaves s (if wanted = true then step >>= f else f ()) answer after := by
  split
  · rename_i hwanted
    exact (hstep hwanted).bind hf
  · exact hf

/-- Without the source, opening it fails and leaves the shelf as it is. -/
theorem leaves_openSource_of_none (h : s.files o.source = none) :
    Leaves s (Build.openSource env.host o)
      (.error (.file ⟨.opening, o.source, .noEntry⟩)) s := by
  have hopen : Leaves s (liftM (env.host.openSource o.source) :
      ExceptT BuildFault (StateM Desk) _) (.ok (.error ⟨.opening, o.source, .noEntry⟩)) s := by
    apply leaves_lift
    rintro desk rfl
    have : env.openSource o.source desk = .error ⟨.opening, o.source, .noEntry⟩ := by
      rw [Surroundings.openSource, h]
    exact ⟨this, rfl⟩
  exact hopen.bind (leaves_check BuildFault.file _)

/-- What is done with an opened file must not depend on the pieces that it arrives in. -/
theorem leaves_openSource_bind {content : Bytes} (h : s.files o.source = some content)
    {f : Input → ExceptT BuildFault (StateM Desk) β} {answer : Except BuildFault β}
    (hf : ∀ chunks : List Bytes, Delivery.Steady (chunks.map .bytes) → chunks.flatten = content →
      Leaves s (f (.ofDeliveries (chunks.map .bytes))) answer after) :
    Leaves s (Build.openSource env.host o >>= f) answer after := by
  rintro desk rfl
  have hopen : (Build.openSource env.host o).run desk =
      (.ok (.ofDeliveries ((env.pieces desk content).map .bytes)), desk) := by
    have hfile : env.openSource o.source desk =
        .ok (.ofDeliveries ((env.pieces desk content).map .bytes)) := by
      rw [Surroundings.openSource, h]
    show ((Build.check BuildFault.file (env.openSource o.source desk) :
      ExceptT BuildFault (StateM Desk) Input).run desk) = _
    rw [hfile]
    rfl
  rw [Desk.run_bind, hopen]
  exact hf _ (env.steady_pieces desk content) (env.flatten_pieces desk content) desk rfl

/-- The tokens of a source, if they are listed. -/
theorem leaves_listTokens {content : Bytes} (h : s.files o.source = some content) :
    Leaves s (Build.listTokens env.host o)
      (((Lexer.ofInput (.memory content)).tokenize.1.mapError .tokens).map fun _ => ()) s := by
  apply leaves_openSource_bind env h
  rintro chunks hsteady rfl
  rw [(Lexer.respects_tokenize _ _ (Lexer.alike_ofDeliveries_bytes hsteady)).1]
  cases (Lexer.ofInput (.memory chunks.flatten)).tokenize.1 with
  | ok ts =>
    exact (leaves_check BuildFault.tokens (.ok ts)).bind (leaves_forM_log env o.verbose ts)
  | error fault => exact (leaves_check BuildFault.tokens (.error fault)).bind_error

/-- The program of a source. -/
theorem leaves_readProgram {content : Bytes} (h : s.files o.source = some content) :
    Leaves s (Build.readProgram env.host o)
      ((Program.parse (.memory content)).mapError fun fault => .compile (.parse fault)) s := by
  apply leaves_openSource_bind env h
  rintro chunks hsteady rfl
  rw [Program.parse_eq_of_alike (Lexer.alike_ofDeliveries_bytes hsteady)]
  exact leaves_check _ _

/-- Writing the assembly file changes that file alone. -/
theorem leaves_writeAssembly (text : Bytes) :
    Leaves s (Build.writeAssembly env.host o text) (.ok ()) (s.write o.assembly text) := by
  have hmake : Leaves s (liftM (env.host.makeDirectories (Path.directory o.assembly)) :
      ExceptT BuildFault (StateM Desk) _) (.ok (.ok ())) s :=
    leaves_lift fun _ h => ⟨rfl, h⟩
  have hwrite : Leaves s (liftM (env.host.writeFile o.assembly text) :
      ExceptT BuildFault (StateM Desk) _) (.ok (.ok ())) (s.write o.assembly text) := by
    apply leaves_lift
    rintro desk rfl
    exact ⟨rfl, rfl⟩
  exact hmake.bind ((leaves_check BuildFault.file _).bind
    (hwrite.bind (leaves_check BuildFault.file _)))

/-- A tool is called once, and the build goes on if it succeeds. -/
theorem leaves_runTool (verbose : Bool) (tool : String) (args : List String) :
    Leaves s (Toolchain.run env.host verbose tool args) (env.call s tool args).outcome
      (s.record [env.call s tool args]) := by
  have hcall : Leaves s (liftM (env.host.runTool tool args) : ExceptT ToolError (StateM Desk) _)
      (.ok (env.call s tool args).result) (s.record [env.call s tool args]) := by
    apply leaves_lift
    rintro desk rfl
    exact ⟨rfl, rfl⟩
  refine (leaves_log env verbose _).bind (hcall.bind ?_)
  rw [ToolCall.outcome]
  cases (env.call s tool args).result.failure with
  | none => exact leaves_pure ()
  | some cause => exact (leaves_log env verbose _).bind (leaves_throw _)

end Steps

namespace Toolchain

/-- The call of the assembler that finds a shelf. -/
def assembling (tools : Toolchain) (env : Surroundings) (o : Options) (s : Shelf) : ToolCall :=
  env.call s tools.assembler ["-felf64", o.assembly, "-o", o.object]

/-- The call of the linker that finds a shelf. -/
def linking (tools : Toolchain) (env : Surroundings) (o : Options) (s : Shelf) : ToolCall :=
  env.call s tools.linker ["-o", o.executable, o.object]

/-- The calls that a build makes from a shelf on, and what they come to.  The assembler finds that
shelf, and the linker finds it with the call of the assembler recorded.  The linker is called
exactly if the assembler has succeeded. -/
inductive Calls (tools : Toolchain) (env : Surroundings) (o : Options) (s : Shelf) :
    List ToolCall → Except ToolError Unit → Prop
  | skipped : o.skipLink = true → Calls tools env o s [] (.ok ())
  | stopped {e : ToolError} : o.skipLink = false →
      (tools.assembling env o s).outcome = .error e →
      Calls tools env o s [tools.assembling env o s] (.error e)
  | linked : o.skipLink = false → (tools.assembling env o s).outcome = .ok () →
      Calls tools env o s
        [tools.assembling env o s, tools.linking env o (s.record [tools.assembling env o s])]
        (tools.linking env o (s.record [tools.assembling env o s])).outcome

end Toolchain

section Runs

variable (env : Surroundings) (tools : Toolchain) {s : Shelf} {o : Options}

/-- The tools are called in turn, each with the shelf that the call before leaves. -/
theorem exists_leaves_build (s : Shelf) (h : o.skipLink = false) :
    ∃ made answer, tools.Calls env o s made answer ∧ ∀ verbose,
      Leaves s (tools.build env.host verbose o.assembly o.object o.executable) answer
        (s.record made) := by
  have hassemble (verbose : Bool) :
      Leaves s (tools.assemble env.host verbose o.assembly o.object)
        (tools.assembling env o s).outcome (s.record [tools.assembling env o s]) :=
    leaves_runTool env verbose tools.assembler _
  cases houtcome : (tools.assembling env o s).outcome with
  | error e =>
    rw [houtcome] at hassemble
    exact ⟨_, _, .stopped h houtcome, fun verbose => (hassemble verbose).bind_error⟩
  | ok done =>
    rw [houtcome] at hassemble
    have hlink (verbose : Bool) :
        Leaves (s.record [tools.assembling env o s])
          (tools.link env.host verbose o.object o.executable)
          (tools.linking env o (s.record [tools.assembling env o s])).outcome
          ((s.record [tools.assembling env o s]).record
            [tools.linking env o (s.record [tools.assembling env o s])]) :=
      leaves_runTool env verbose tools.linker _
    rw [Shelf.record_record] at hlink
    exact ⟨_, _, .linked h houtcome, fun verbose => (hassemble verbose).bind (hlink verbose)⟩

/-- What a build does to a shelf on which the assembly file is written. -/
theorem exists_leaves_finish (s : Shelf) (o : Options) :
    ∃ made answer, tools.Calls env o s made answer ∧ ∀ verbose,
      Leaves s (Build.finish env.host tools { o with verbose := verbose })
        (answer.mapError .tool) (s.record made) := by
  by_cases hskip : o.skipLink = true
  · refine ⟨[], .ok (), .skipped hskip, fun verbose => ?_⟩
    rw [Build.finish, if_pos hskip, Shelf.record_nil]
    exact leaves_pure ()
  · obtain ⟨made, answer, hcalls, hbuild⟩ :=
      exists_leaves_build env tools s (Bool.eq_false_iff.mpr hskip)
    refine ⟨made, answer, hcalls, fun verbose => ?_⟩
    have htools : Leaves s (Build.assembleAndLink env.host tools { o with verbose := verbose })
        (answer.mapError .tool) (s.record made) :=
      (leaves_lift (hbuild verbose)).bind (leaves_check BuildFault.tool answer)
    rw [Build.finish, if_neg hskip]
    apply (leaves_progress env _ _).bind
    cases answer with
    | ok done => exact htools.bind (leaves_progress env _ _)
    | error e => exact htools.bind_error

/-- Once the source is read, the assembly file holds what compiling the source writes, and the
tools are called. -/
theorem exists_leaves_produce (s : Shelf) (o : Options) {input : Input} {program : Program}
    (h : Program.parse input = .ok program) :
    ∃ sink made answer, compile input (.fresh none) = (.ok (), sink) ∧
      tools.Calls env o (s.write o.assembly sink.written) made answer ∧ ∀ verbose,
        Leaves s (Build.produce env.host tools { o with verbose := verbose } program)
          (answer.mapError .tool) ((s.write o.assembly sink.written).record made) := by
  obtain ⟨sink, hgenerate, -⟩ := Program.generate_fresh (Program.outcome_stackCode_of_parse h)
  obtain ⟨made, answer, hcalls, hfinish⟩ :=
    exists_leaves_finish env tools (s.write o.assembly sink.written) o
  refine ⟨sink, made, answer, ?_, hcalls, fun verbose => ?_⟩
  · rw [compile, h]
    exact hgenerate
  · have htext : Leaves s (Build.assemblyText program) (.ok sink.written) s := by
      rw [Build.assemblyText, hgenerate]
      exact leaves_check BuildFault.compile _
    apply leaves_ite_bind fun _ => leaves_print env program.dump
    exact (leaves_progress env _ _).bind (htext.bind ((leaves_writeAssembly env _).bind
      ((leaves_progress env _ _).bind (hfinish verbose))))

/-- A source that is a program is built, whether its tokens are listed or not. -/
theorem exists_leaves_run_of_parse {content : Bytes} {program : Program}
    (hfile : s.files o.source = some content) (h : Program.parse (.memory content) = .ok program) :
    ∃ sink made answer, compile (.memory content) (.fresh none) = (.ok (), sink) ∧
      tools.Calls env o (s.write o.assembly sink.written) made answer ∧ ∀ verbose,
        Leaves s (Build.run env.host tools { o with verbose := verbose })
          (answer.mapError .tool) ((s.write o.assembly sink.written).record made) := by
  obtain ⟨sink, made, answer, hcompile, hcalls, hproduce⟩ := exists_leaves_produce env tools s o h
  refine ⟨sink, made, answer, hcompile, hcalls, fun verbose => ?_⟩
  obtain ⟨ts, htokens⟩ := Program.exists_tokenize_of_parse h
  apply leaves_ite_bind
  · intro _
    have hlist := leaves_listTokens env (o := { o with verbose := verbose }) hfile
    rwa [htokens] at hlist
  · have hread := leaves_readProgram env (o := { o with verbose := verbose }) hfile
    rw [h] at hread
    exact (leaves_progress env _ _).bind (hread.bind (hproduce verbose))

/-- A source that cannot be read stops the build, at the latest when it is read. -/
theorem exists_leaves_run_of_error {listed : Except BuildFault Unit} {fault : BuildFault}
    (hlist : Leaves s (Build.listTokens env.host o) listed s)
    (hread : Leaves s (Build.readProgram env.host o) (.error fault) s) :
    ∃ found, Leaves s (Build.run env.host tools o) (.error found) s ∧
      (o.verbose = false → found = fault) := by
  have hrest : Leaves s (do
      Build.progress env.host o "compiler: start parsing" []
      let program ← Build.readProgram env.host o
      Build.produce env.host tools o program) (.error fault) s :=
    (leaves_progress env _ _).bind hread.bind_error
  rw [Build.run]
  cases hverbose : o.verbose with
  | false => exact ⟨fault, hrest, fun _ => rfl⟩
  | true =>
    cases listed with
    | ok done => exact ⟨fault, hlist.bind hrest, fun _ => rfl⟩
    | error found => exact ⟨found, hlist.bind_error, nofun⟩

/-- Without the source, a build fails and leaves the shelf as it is. -/
theorem exists_leaves_run_of_none (h : s.files o.source = none) :
    ∃ found, Leaves s (Build.run env.host tools o) (.error found) s := by
  have hopen := leaves_openSource_of_none env h
  obtain ⟨found, hrun, -⟩ := exists_leaves_run_of_error env tools hopen.bind_error hopen.bind_error
  exact ⟨found, hrun⟩

/-- A source that is no program makes a build fail and leave the shelf as it is. -/
theorem exists_leaves_run_of_parse_error {content : Bytes} {fault : Fault}
    (hfile : s.files o.source = some content)
    (h : Program.parse (.memory content) = .error fault) :
    ∃ found, Leaves s (Build.run env.host tools o) (.error found) s ∧
      (o.verbose = false → found = .compile (.parse fault)) := by
  have hread := leaves_readProgram env hfile
  rw [h] at hread
  exact exists_leaves_run_of_error env tools (leaves_listTokens env hfile) hread

/-- A source that is missing or no program leaves the shelf as it is. -/
theorem exists_leaves_run_of_not_accepts (h : ¬s.Accepts o) :
    ∃ found, Leaves s (Build.run env.host tools o) (.error found) s := by
  cases hfile : s.files o.source with
  | none => exact exists_leaves_run_of_none env tools hfile
  | some content =>
    cases hparse : Program.parse (.memory content) with
    | ok program => exact absurd ⟨content, program, hfile, hparse⟩ h
    | error fault =>
      obtain ⟨found, hrun, -⟩ := exists_leaves_run_of_parse_error env tools hfile hparse
      exact ⟨found, hrun⟩

end Runs

/-- A call lets a build go on exactly if the tool did not fail. -/
theorem ToolCall.outcome_eq_ok_iff {call : ToolCall} :
    call.outcome = .ok () ↔ call.result.failure = none := by
  rw [outcome]
  cases call.result.failure <;> simp

/-- A call that fails reports the tool, its arguments, its output and the cause. -/
theorem ToolCall.outcome_of_failure {call : ToolCall} {cause : ToolFailure}
    (h : call.result.failure = some cause) :
    call.outcome = .error ⟨call.tool, call.args, call.result.output, cause⟩ := by
  rw [outcome, h]

namespace Toolchain

variable {tools : Toolchain} {env : Surroundings} {o : Options} {s : Shelf} {made : List ToolCall}
  {answer : Except ToolError Unit}

/-- The calls come to success exactly if each of them succeeded. -/
theorem Calls.eq_ok_iff (h : tools.Calls env o s made answer) :
    answer = .ok () ↔ ∀ call ∈ made, call.result.failure = none := by
  simp only [← ToolCall.outcome_eq_ok_iff]
  cases h with
  | skipped hskip => simp
  | stopped hskip houtcome => simp [houtcome]
  | linked hskip houtcome => simp [houtcome]

/-- A call that failed is what the calls come to. -/
theorem Calls.eq_error (h : tools.Calls env o s made answer) {call : ToolCall} (hcall : call ∈ made)
    {cause : ToolFailure} (hcause : call.result.failure = some cause) :
    answer = .error ⟨call.tool, call.args, call.result.output, cause⟩ := by
  rw [← ToolCall.outcome_of_failure hcause]
  cases h with
  | skipped hskip => cases hcall
  | stopped hskip houtcome =>
    obtain rfl := List.mem_singleton.mp hcall
    exact houtcome.symm
  | linked hskip houtcome =>
    rcases List.mem_cons.mp hcall with rfl | hcall
    · rw [ToolCall.outcome_eq_ok_iff, hcause] at houtcome
      cases houtcome
    · obtain rfl := List.mem_singleton.mp hcall
      rfl

end Toolchain

/-- The fault of a tool stays a fault as the fault of a build. -/
theorem mapError_tool_eq_ok_iff {answer : Except ToolError Unit} :
    answer.mapError BuildFault.tool = .ok () ↔ answer = .ok () := by
  cases answer with
  | ok done => exact ⟨fun _ => rfl, fun _ => rfl⟩
  | error e =>
    constructor
    · intro h
      cases h
    · intro h
      cases h

/-- Whether the tokens are listed shows neither in the shelf nor in whether the build succeeds, and
neither does what has been printed before. -/
theorem Surroundings.build_verbose (env : Surroundings) (tools : Toolchain) {o : Options}
    {desk other : Desk} (h : other.toShelf = desk.toShelf) (verbose : Bool) :
    (env.build tools { o with verbose := verbose } other).2.toShelf =
        (env.build tools o desk).2.toShelf ∧
      ((env.build tools { o with verbose := verbose } other).1 = .ok () ↔
        (env.build tools o desk).1 = .ok ()) := by
  by_cases haccepts : desk.Accepts o
  · obtain ⟨content, program, hfile, hparse⟩ := haccepts
    obtain ⟨sink, made, answer, -, -, hrun⟩ := exists_leaves_run_of_parse env tools hfile hparse
    obtain ⟨hanswer, hafter⟩ := hrun o.verbose desk rfl
    obtain ⟨hanswer', hafter'⟩ := hrun verbose other h
    exact ⟨hafter'.trans hafter.symm, Eq.congr (hanswer'.trans hanswer.symm) rfl⟩
  · -- the faults may differ, since listing the tokens can be the first to fail
    obtain ⟨found, hrun⟩ := exists_leaves_run_of_not_accepts env tools haccepts
    obtain ⟨found', hrun'⟩ := exists_leaves_run_of_not_accepts env tools
      (o := { o with verbose := verbose }) haccepts
    obtain ⟨hanswer, hafter⟩ := hrun desk rfl
    obtain ⟨hanswer', hafter'⟩ := hrun' other h
    refine ⟨hafter'.trans hafter.symm, ?_⟩
    rw [build, build, hanswer, hanswer']
    simp

/-- The stages of a build gate each other and agree with compiling.  A source that is missing or no
program fails and changes neither files nor calls.  Otherwise the assembly file comes to hold what
compiling the source writes, no other file changes, and the tools are called in turn, the assembler
when the assembly file is written and the linker when the assembler has succeeded; the build
succeeds exactly if each call did, and a call that failed is reported with its tool, arguments and
output.  Listing the tokens changes none of this, and without it a source that is no program is
refused in the words of the compiler. -/
theorem stages_gate_each_other (env : Surroundings) (tools : Toolchain) (o : Options)
    (desk : Desk) :
    (¬desk.Accepts o → (∃ fault, (env.build tools o desk).1 = .error fault) ∧
      (env.build tools o desk).2.toShelf = desk.toShelf) ∧
    (∀ content program, desk.files o.source = some content →
      Program.parse (.memory content) = .ok program →
      ∃ sink made answer, compile (.memory content) (.fresh none) = (.ok (), sink) ∧
        (env.build tools o desk).2.files =
          Function.update desk.files o.assembly (some sink.written) ∧
        (env.build tools o desk).2.calls = desk.calls ++ made ∧
        tools.Calls env o (desk.write o.assembly sink.written) made answer ∧
        (env.build tools o desk).1 = answer.mapError .tool ∧
        ((env.build tools o desk).1 = .ok () ↔ ∀ call ∈ made, call.result.failure = none) ∧
        ∀ call ∈ made, ∀ cause, call.result.failure = some cause →
          (env.build tools o desk).1 =
            .error (.tool ⟨call.tool, call.args, call.result.output, cause⟩)) ∧
    (∀ verbose (other : Desk), other.toShelf = desk.toShelf →
      (env.build tools { o with verbose := verbose } other).2.toShelf =
        (env.build tools o desk).2.toShelf ∧
      ((env.build tools { o with verbose := verbose } other).1 = .ok () ↔
        (env.build tools o desk).1 = .ok ())) ∧
    (o.verbose = false → ∀ content fault sink, desk.files o.source = some content →
      Program.parse (.memory content) = .error fault →
      ∃ refusal found, compile (.memory content) sink = (.error refusal, sink) ∧
        (env.build tools o desk).1 = .error found ∧
        found.message = Utf8.ofString refusal.message) := by
  refine ⟨fun h => ?_, fun content program hfile hparse => ?_, fun verbose other hother => ?_,
    fun hverbose content fault sink hfile hparse => ?_⟩
  · obtain ⟨found, hrun⟩ := exists_leaves_run_of_not_accepts env tools h
    obtain ⟨hanswer, hafter⟩ := hrun desk rfl
    exact ⟨⟨found, hanswer⟩, hafter⟩
  · obtain ⟨sink, made, answer, hcompile, hcalls, hrun⟩ :=
      exists_leaves_run_of_parse env tools hfile hparse
    obtain ⟨hanswer, hafter⟩ := hrun o.verbose desk rfl
    refine ⟨sink, made, answer, hcompile, congrArg Shelf.files hafter, congrArg Shelf.calls hafter,
      hcalls, hanswer, ?_, fun call hcall cause hcause => ?_⟩
    · rw [← hcalls.eq_ok_iff, ← mapError_tool_eq_ok_iff, ← hanswer]
      rfl
    · rw [hcalls.eq_error hcall hcause] at hanswer
      exact hanswer
  · exact env.build_verbose tools hother verbose
  · obtain ⟨found, hrun, hfound⟩ := exists_leaves_run_of_parse_error env tools hfile hparse
    obtain ⟨hanswer, -⟩ := hrun desk rfl
    refine ⟨.parse fault, found, ?_, hanswer, ?_⟩
    · rw [compile, hparse]
    · rw [hfound hverbose]
      rfl

end LetExit
