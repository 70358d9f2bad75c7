import LetExit.Build.FileTree
import LetExit.Build.Log
import LetExit.Source
import LetExit.Text.Decimal

/-!
# Hosts

A host is what a build runs on: files, external tools and the two output channels.
A build is written against any host, so the same build runs on a real machine and on
a workspace that lives in memory.
-/

set_option autoImplicit false

namespace LetExit

/-- Why a tool was not found or did not succeed. -/
inductive ToolFailure where
  | exitStatus (code : Int)
  | signal (number : Int)
  /-- No tool of this name is on the search path. -/
  | notOnPath (tool : String)
  /-- The tool at this path cannot be used. -/
  | unusable (tool : String) (reason : String)
  /-- The tool at this path could not be started. -/
  | notStarted (tool : String) (cause : FileCause)
  /-- The name of the tool is empty. -/
  | noCommand
  | other (reason : String)
deriving DecidableEq, Repr

/-- The name of a signal. -/
def signalName (number : Int) : String :=
  match number with
  | 1 => "hangup"
  | 2 => "interrupt"
  | 3 => "quit"
  | 4 => "illegal instruction"
  | 5 => "trace/breakpoint trap"
  | 6 => "aborted"
  | 7 => "bus error"
  | 8 => "floating point exception"
  | 9 => "killed"
  | 10 => "user defined signal 1"
  | 11 => "segmentation fault"
  | 12 => "user defined signal 2"
  | 13 => "broken pipe"
  | 14 => "alarm clock"
  | 15 => "terminated"
  | n => "signal " ++ Decimal.text n

/-- The message of a tool failure. -/
def ToolFailure.message : ToolFailure → String
  | .exitStatus code => "exit status " ++ Decimal.text code
  | .signal number => "signal: " ++ signalName number
  | .notOnPath tool =>
    "exec: " ++ String.ofList (Quoted.bytes isPrintable (Utf8.ofString tool))
      ++ ": executable file not found in $PATH"
  | .unusable tool reason =>
    "exec: " ++ String.ofList (Quoted.bytes isPrintable (Utf8.ofString tool)) ++ ": " ++ reason
  | .notStarted tool cause => "fork/exec " ++ tool ++ ": " ++ cause.message
  | .noCommand => "exec: no command"
  | .other reason => reason

/-- The result of running a tool: what it printed, and how it failed if it did. -/
structure ToolRun where
  output : Bytes
  failure : Option ToolFailure
deriving DecidableEq, Repr

/-- The text of a directory that is read as if it were a file: the first read fails. -/
def Input.ofDirectory (path : String) : Input :=
  .ofDeliveries [.interruption (.failed (FileFault.mk .reading path .isDirectory).message)]

/-- The actions of a host, each in a monad of its own. -/
structure Host (m : Type → Type) where
  /-- Opens a source file for reading. -/
  openSource : String → m (Except FileFault Input)
  /-- Makes a directory and all those on the way to it. -/
  makeDirectories : String → m (Except FileFault Unit)
  /-- Writes a file. -/
  writeFile : String → Bytes → m (Except FileFault Unit)
  /-- Looks for a tool and tells why it cannot be used. -/
  findTool : String → m (Option ToolFailure)
  /-- Runs a tool with arguments and waits for its end. -/
  runTool : String → List String → m ToolRun
  /-- Prints on the standard output. -/
  print : String → m Unit
  /-- Prints on the standard error output. -/
  report : String → m Unit

/-- Logs an entry, except that debug entries are left out unless wanted. -/
def Host.log {m : Type → Type} [Monad m] (host : Host m) (verbose : Bool) (entry : Log.Entry) :
    m Unit :=
  if entry.level = .debug && !verbose then pure () else host.report entry.line

end LetExit
