import LetExit.Build.Options
import LetExit.Build.Toolchain
import LetExit.Compile
import LetExit.Program.Dump

/-!
# Building executables

A build reads a source file, writes its assembly, and has it assembled and linked.
Each stage starts only after the one before has succeeded: a source that is refused
changes no file, and no tool runs unless the assembly file has been written.
-/

set_option autoImplicit false

namespace LetExit

/-- Why a build stopped. -/
inductive BuildFault where
  /-- A file or directory could not be used. -/
  | file (fault : FileFault)
  /-- The listing of the tokens met a fault. -/
  | tokens (fault : Fault)
  /-- The source was refused. -/
  | compile (fault : CompileFault)
  /-- An external tool failed. -/
  | tool (e : ToolError)
deriving DecidableEq, Repr

/-- The message of a build fault. -/
def BuildFault.message : BuildFault → Bytes
  | .file fault => Utf8.ofString fault.message
  | .tokens fault => Utf8.ofString fault.message
  | .compile fault => Utf8.ofString fault.message
  | .tool e => e.message

namespace Build

variable {m : Type → Type} [Monad m]

/-- Hands on an answer of the host or of the compiler, with its fault as a fault of the build. -/
def check {α ε : Type} (fault : ε → BuildFault) : Except ε α → ExceptT BuildFault m α
  | .ok a => pure a
  | .error e => throw (fault e)

/-- Opens the source file. -/
def openSource (host : Host m) (o : Options) : ExceptT BuildFault m Input := do
  check .file (← host.openSource o.source)

/-- The log message that shows a token. -/
def tokenEntry (t : Token) : Log.Entry :=
  ⟨.debug, Utf8.ofString ("compiler: token " ++ t.text ++ " at " ++ t.position.text), []⟩

/-- Logs all tokens of the source, provided that all of it can be cut into tokens. -/
def listTokens (host : Host m) (o : Options) : ExceptT BuildFault m Unit := do
  let input ← openSource host o
  let tokens ← check .tokens (Lexer.ofInput input).tokenize.1
  tokens.forM fun t => host.log o.verbose (tokenEntry t)

/-- Logs the progress of a build. -/
def progress (host : Host m) (o : Options) (message : String) (fields : List (String × Bytes)) :
    ExceptT BuildFault m Unit :=
  host.log o.verbose
    ⟨.info, Utf8.ofString message, ("path", Utf8.ofString o.source) :: fields⟩

/-- The assembly of a program. -/
def assemblyText (program : Program) : ExceptT BuildFault m Bytes :=
  let (outcome, sink) := program.generate (.fresh none)
  check .compile (outcome.map fun () => sink.written)

/-- Reads the source file and answers its program. -/
def readProgram (host : Host m) (o : Options) : ExceptT BuildFault m Program := do
  let input ← openSource host o
  check (fun fault => .compile (.parse fault)) (Program.parse input)

/-- Writes the assembly file, in a directory that is made where it is missing. -/
def writeAssembly (host : Host m) (o : Options) (text : Bytes) : ExceptT BuildFault m Unit := do
  check .file (← host.makeDirectories (Path.directory o.assembly))
  check .file (← host.writeFile o.assembly text)

/-- Runs the external tools. -/
def assembleAndLink (host : Host m) (tools : Toolchain) (o : Options) :
    ExceptT BuildFault m Unit := do
  check .tool (← (tools.build host o.verbose o.assembly o.object o.executable).run)

/-- Makes the executable from the assembly file, unless that is not wanted. -/
def finish (host : Host m) (tools : Toolchain) (o : Options) : ExceptT BuildFault m Unit := do
  unless o.skipLink do
    progress host o "compiler: start assembling and linking" []
    assembleAndLink host tools o
    progress host o "compiler: saved executable" [("output", Utf8.ofString o.executable)]

/-- Makes the files of a program. -/
def produce (host : Host m) (tools : Toolchain) (o : Options) (program : Program) :
    ExceptT BuildFault m Unit := do
  if o.dumpTree then host.print program.dump
  progress host o "compiler: start generating codes" []
  let text ← assemblyText program
  writeAssembly host o text
  progress host o "compiler: saved nasm file" [("output", Utf8.ofString o.assembly)]
  finish host tools o

/-- Runs a build.  The tools are given the paths as they stand in the options. -/
def run (host : Host m) (tools : Toolchain) (o : Options) : ExceptT BuildFault m Unit := do
  if o.verbose then listTokens host o
  progress host o "compiler: start parsing" []
  let program ← readProgram host o
  produce host tools o program

/-- Runs a command line and answers the exit code of the process. -/
def execute (host : Host m) (arguments : List String) : m UInt32 := do
  match Invocation.ofArguments arguments with
  | .help =>
    host.report Options.usage
    return 0
  | .refused fault =>
    host.report (fault.message ++ "\n" ++ Options.usage)
    return 2
  | .build o =>
    match ← (run host .standard o.fillObject).run with
    | .ok () => return 0
    | .error fault =>
      host.log o.verbose ⟨.error, fault.message, []⟩
      return 1

end Build

end LetExit
