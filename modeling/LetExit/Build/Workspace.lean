import LetExit.Build.Host

/-!
# Workspaces

A workspace is a host that lives in memory: a file tree with a current directory, and
tools that answer by a script.  It keeps the calls of tools and all that was printed.
-/

set_option autoImplicit false

namespace LetExit

/-- What a tool does when it is run: it prints on both channels and then ends, by a signal unless
its number is 0, and otherwise with an exit code. -/
structure ToolScript where
  stdout : Bytes
  stderr : Bytes
  exitCode : Int
  signal : Int
deriving DecidableEq, Repr

/-- The result of a scripted tool.  Of an exit code only the lowest eight bits are reported. -/
def ToolScript.run (script : ToolScript) : ToolRun :=
  let status := script.exitCode % 256
  ⟨script.stdout ++ script.stderr,
    if script.signal ≠ 0 then some (.signal script.signal)
    else if status ≠ 0 then some (.exitStatus status)
    else none⟩

/-- A host in memory.  Tools are found by name on the search path, or by location in the file
tree. -/
structure Workspace where
  tree : FileTree
  searchPath : Std.ExtTreeMap String ToolScript
  localTools : Std.ExtTreeMap Location ToolScript
  calls : List (List String)
  stdout : String
  stderr : String

namespace Workspace

/-- The directory that a workspace works in. -/
def home : Location :=
  ["tmp", "work"]

/-- The files outside a workspace: the usual directories of a machine, and the null device. -/
def surroundings : FileTree :=
  let directories := ["bin", "dev", "etc", "home", "lib", "media", "mnt", "opt", "proc", "root",
    "run", "sbin", "srv", "sys", "tmp", "usr", "var"]
  let tree := directories.foldl (fun tree name => tree.put [name] .directory) FileTree.empty
  (tree.put ["dev", "null"] (.file [])).put home .directory

/-- A workspace without files and tools. -/
def empty : Workspace :=
  ⟨surroundings, ∅, ∅, [], "", ""⟩

/-- The path below the directory of a workspace that a path stands for. -/
def below (path : String) : String :=
  Path.clean false (Path.components path)

/-- Adds a directory, with those on the way to it. -/
def addDirectory (w : Workspace) (path : String) : Except FileFault Workspace :=
  match w.tree.makeDirectories home (below path) with
  | (.ok (), tree) => .ok { w with tree := tree }
  | (.error fault, _) => .error fault

/-- Adds a file, with the directories on the way to it. -/
def addFile (w : Workspace) (path : String) (content : Bytes) : Except FileFault Workspace := do
  let w ← w.addDirectory (Path.directory (below path))
  match w.tree.writeFile home (below path) content with
  | .ok tree => return { w with tree := tree }
  | .error cause => throw ⟨.opening, path, cause⟩

/-- Adds a tool: on the search path, or in the file tree if its name is a path. -/
def addTool (w : Workspace) (name : String) (script : ToolScript) : Except FileFault Workspace := do
  if name.toList.contains '/' then
    let w ← w.addFile name []
    match w.tree.locate home (below name) with
    | .ok location => return { w with localTools := w.localTools.insert location script }
    | .error cause => throw ⟨.opening, name, cause⟩
  else return { w with searchPath := w.searchPath.insert name script }

/-- Opens a source.  A directory can be opened, and fails when it is read. -/
def openSource (w : Workspace) (path : String) : Except FileFault Input :=
  match w.tree.locate home path with
  | .error cause => .error ⟨.opening, path, cause⟩
  | .ok location =>
    match w.tree.node? location with
    | some (.file content) => .ok (.ofDeliveries [.bytes content])
    | some .directory => .ok (.ofDirectory path)
    | none => .error ⟨.opening, path, .noEntry⟩

/-- The script of a tool that is named by a path, or why there is none. -/
def localTool (w : Workspace) (path : String) : Except FileCause ToolScript :=
  match w.tree.locate home path with
  | .error cause => .error cause
  | .ok location =>
    match w.localTools[location]?, w.tree.node? location with
    | some script, _ => .ok script
    | none, some .directory => .error .isDirectory
    | none, _ => .error .notPermitted

/-- Why a tool cannot be found, if so. -/
def findTool (w : Workspace) (tool : String) : Option ToolFailure :=
  if tool.toList.contains '/' then
    match w.localTool tool with
    | .ok _ => none
    | .error .isDirectory => some (.unusable tool FileCause.isDirectory.message)
    | .error .notPermitted => some (.unusable tool FileCause.notPermitted.message)
    | .error cause => some (.unusable tool ("stat " ++ tool ++ ": " ++ cause.message))
  else if w.searchPath.contains tool then none
  else some (.notOnPath tool)

/-- The script that runs under the name of a tool, or why none does.  A name that is its own last
component is looked up first, and any other is taken as a path at once. -/
def startTool (w : Workspace) (tool : String) (args : List String) :
    Except ToolFailure ToolScript :=
  if tool = "" then .error .noCommand
  else
    match if Path.base tool = tool then w.findTool tool else none with
    | some failure => .error failure
    | none =>
      if !args.all FileTree.isPassable then .error (.notStarted tool .invalid)
      else
        match w.searchPath[tool]?, w.localTool tool with
        | some script, _ => .ok script
        | none, .ok script => .ok script
        | none, .error .isDirectory => .error (.notStarted tool .notPermitted)
        | none, .error cause => .error (.notStarted tool cause)

/-- Runs a tool.  A tool that does not start makes no call and prints nothing. -/
def runTool (w : Workspace) (tool : String) (args : List String) : ToolRun × Workspace :=
  match w.startTool tool args with
  | .ok script => (script.run, { w with calls := w.calls ++ [tool :: args] })
  | .error failure => (⟨[], some failure⟩, w)

/-- Makes a directory and all those on the way to it. -/
def makeDirectories (w : Workspace) (path : String) : Except FileFault Unit × Workspace :=
  let (outcome, tree) := w.tree.makeDirectories home path
  (outcome, { w with tree := tree })

/-- Writes a file. -/
def writeFile (w : Workspace) (path : String) (content : Bytes) :
    Except FileFault Unit × Workspace :=
  match w.tree.writeFile home path content with
  | .ok tree => (.ok (), { w with tree := tree })
  | .error cause => (.error ⟨.opening, path, cause⟩, w)

/-- The workspace as a host. -/
def host : Host (StateM Workspace) where
  openSource path := return (← get).openSource path
  makeDirectories path := modifyGet (·.makeDirectories path)
  writeFile path content := modifyGet (·.writeFile path content)
  findTool tool := return (← get).findTool tool
  runTool tool args := modifyGet (·.runTool tool args)
  print text := modify fun w => { w with stdout := w.stdout ++ text }
  report text := modify fun w => { w with stderr := w.stderr ++ text }

end Workspace

end LetExit
