import LetExit.Build

/-!
# The command line program

The host is the machine that the program runs on.  External programs are not started
from here, so every tool counts as absent and a build ends with the assembly file.
-/

set_option autoImplicit false

namespace LetExit

/-- The cause that an error of the operating system reports. -/
def FileCause.ofError : IO.Error → FileCause
  | .noFileOrDirectory .. => .noEntry
  | .inappropriateType _ code details =>
    if code = 20 then .notDirectory else if code = 21 then .isDirectory else .other details
  | .permissionDenied .. => .notPermitted
  | .invalidArgument _ code details => if code = 36 then .nameTooLong else .other details
  | e => .other (toString e)

/-- The result of an action on a path, with an error as a file fault. -/
def guarded {α : Type} (action : FileAction) (path : String) (act : IO α) :
    IO (Except FileFault α) := do
  try
    return .ok (← act)
  catch e =>
    return .error ⟨action, path, .ofError e⟩

/-- Reads a source file.  A directory can be opened, and fails when it is read. -/
def openFile (path : String) : IO (Except FileFault Input) := do
  let content : IO ByteArray := do (← IO.FS.Handle.mk path .read).readBinToEnd
  match ← guarded .opening path content with
  | .ok content => return .ok (.ofDeliveries [.bytes content.toList])
  | .error ⟨_, _, .isDirectory⟩ => return .ok (.ofDirectory path)
  | .error fault => return .error fault

/-- Makes a directory unless it is there.  That a name exists below it shows that what is there is
a directory. -/
def makeDirectory (path : String) : IO Unit := do
  try
    IO.FS.createDir path
  catch
    | .alreadyExists .. =>
      try
        IO.FS.createDir (path ++ "/.")
      catch
        | .alreadyExists .. => return
        | e => throw e
    | e => throw e

/-- Makes the directories that are missing along the components of a path. -/
def makeComponents (made : List String) : List String → IO (Except FileFault Unit)
  | [] => return .ok ()
  | name :: later => do
    let path := Path.join (made ++ [name])
    if path = "" then makeComponents [name] later
    else
      match ← guarded .makingDirectory path (makeDirectory path) with
      | .ok () => makeComponents (made ++ [name]) later
      | .error fault => return .error fault

/-- The machine as a host. -/
def machine : Host IO where
  openSource path := openFile path
  makeDirectories path := makeComponents [] (Path.components path)
  writeFile path content := guarded .opening path (IO.FS.writeBinFile path ⟨content.toArray⟩)
  findTool tool := return some (.notOnPath tool)
  runTool tool _ := return ⟨[], some (.notOnPath tool)⟩
  print text := IO.print text
  report text := IO.eprint text

end LetExit

/-- Runs the command line program. -/
def main (arguments : List String) : IO UInt32 :=
  LetExit.Build.execute LetExit.machine arguments
