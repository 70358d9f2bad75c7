import LetExit.Build.Path
import LetExit.Text.Utf8
import Std.Data.ExtTreeMap

/-!
# File trees

A tree of files and directories, and the operations that a build asks of it: finding
what a path names, writing a file, and making directories.  An operation that cannot
be done gives its cause, which `FileFault` turns into a message.
-/

set_option autoImplicit false

namespace LetExit

/-- Why a path cannot be used. -/
inductive FileCause where
  | noEntry
  | notDirectory
  | isDirectory
  | notPermitted
  | nameTooLong
  | invalid
  | other (reason : String)
deriving DecidableEq, Repr

/-- The message of a cause. -/
def FileCause.message : FileCause → String
  | .noEntry => "no such file or directory"
  | .notDirectory => "not a directory"
  | .isDirectory => "is a directory"
  | .notPermitted => "permission denied"
  | .nameTooLong => "file name too long"
  | .invalid => "invalid argument"
  | .other reason => reason

/-- What was tried with a path. -/
inductive FileAction where
  | opening
  | reading
  | makingDirectory
deriving DecidableEq, Repr

/-- The word for an action in messages. -/
def FileAction.word : FileAction → String
  | .opening => "open"
  | .reading => "read"
  | .makingDirectory => "mkdir"

/-- A failed action on a path. -/
structure FileFault where
  action : FileAction
  path : String
  cause : FileCause
deriving DecidableEq, Repr

/-- The message of a file fault. -/
def FileFault.message (fault : FileFault) : String :=
  fault.action.word ++ " " ++ fault.path ++ ": " ++ fault.cause.message

/-- The names on the way from the root to a file or directory. -/
abbrev Location := List String

/-- A file with its content, or a directory. -/
inductive Node where
  | file (content : Bytes)
  | directory
deriving DecidableEq, Repr

/-- The files and directories below the root. -/
structure FileTree where
  nodes : Std.ExtTreeMap Location Node

namespace FileTree

/-- The tree that holds only its root. -/
def empty : FileTree :=
  ⟨∅⟩

/-- What stands at a location. -/
def node? (tree : FileTree) (location : Location) : Option Node :=
  if location = [] then some .directory else tree.nodes[location]?

/-- Puts a file or directory at a location. -/
def put (tree : FileTree) (location : Location) (node : Node) : FileTree :=
  ⟨tree.nodes.insert location node⟩

/-- The most bytes that a name can have. -/
def nameLimit : Nat :=
  255

/-- The most bytes that a path can have. -/
def pathLimit : Nat :=
  4095

/-- Takes one step from a location, which has to be a directory that holds the name. -/
def enter (tree : FileTree) (here : Location) (name : String) : Except FileCause Location :=
  match tree.node? here with
  | some .directory =>
    if name = "" || name = "." then .ok here
    else if name = ".." then .ok here.dropLast
    else if nameLimit < name.utf8ByteSize then .error .nameTooLong
    else if (tree.node? (here ++ [name])).isSome then .ok (here ++ [name])
    else .error .noEntry
  | some (.file _) => .error .notDirectory
  | none => .error .noEntry

/-- Follows names from a location on. -/
def walk (tree : FileTree) (start : Location) (names : List String) : Except FileCause Location :=
  names.foldlM tree.enter start

/-- Where a path starts: at the root or in the current directory. -/
def origin (current : Location) (path : String) : Location :=
  if Path.isRooted path then [] else current

/-- Whether the operating system takes a text, which is so unless it holds a zero byte. -/
def isPassable (text : String) : Bool :=
  !text.toList.contains '\x00'

/-- Whether a path can name something: it is passable, not empty and not too long. -/
def checkPath (path : String) : Except FileCause Unit :=
  if !isPassable path then .error .invalid
  else if path = "" then .error .noEntry
  else if pathLimit < path.utf8ByteSize then .error .nameTooLong
  else .ok ()

/-- The location that a path names. -/
def locate (tree : FileTree) (current : Location) (path : String) : Except FileCause Location := do
  checkPath path
  tree.walk (origin current path) (Path.components path)

/-- Writes a file, in place of the one that is there.  The directory that it lies in has to
exist. -/
def writeFile (tree : FileTree) (current : Location) (path : String) (content : Bytes) :
    Except FileCause FileTree := do
  checkPath path
  let parent ← tree.walk (origin current path) (Path.components path).dropLast
  let name := (Path.components path).getLast?.getD ""
  match tree.enter parent name with
  | .ok location =>
    if tree.node? location = some .directory then throw .isDirectory
    else return tree.put location (.file content)
  | .error .noEntry => return tree.put (parent ++ [name]) (.file content)
  | .error cause => throw cause

/-- Makes the directories that are missing along names from a location on.  A fault shows the path
up to the name it is about, and the directories made before it stay. -/
def makeAlong (tree : FileTree) (here : Location) (made : List String) :
    List String → Except FileFault Unit × FileTree
  | [] => (.ok (), tree)
  | name :: later =>
    let path := Path.join (made ++ [name])
    if pathLimit < path.utf8ByteSize then (.error ⟨.makingDirectory, path, .nameTooLong⟩, tree)
    else
      match tree.enter here name with
      | .ok next =>
        if tree.node? next = some .directory then makeAlong tree next (made ++ [name]) later
        else (.error ⟨.makingDirectory, path, .notDirectory⟩, tree)
      | .error .noEntry =>
        makeAlong (tree.put (here ++ [name]) .directory) (here ++ [name]) (made ++ [name]) later
      | .error cause => (.error ⟨.makingDirectory, path, cause⟩, tree)

/-- Makes a directory and all those on the way to it. -/
def makeDirectories (tree : FileTree) (current : Location) (path : String) :
    Except FileFault Unit × FileTree :=
  tree.makeAlong (origin current path) [] (Path.components path)

/-- The files below a directory that an earlier tree does not have with the same content, and the
directories that it does not have, whose paths end with a slash; sorted by path. -/
def changesSince (after before : FileTree) (current : Location) : List (String × Option Bytes) :=
  let changed := after.nodes.toList.filterMap fun (location, node) =>
    if location.take current.length = current && before.node? location ≠ some node then
      let path := Path.join (location.drop current.length)
      match node with
      | .file content => some (path, some content)
      | .directory => some (path ++ "/", none)
    else none
  changed.mergeSort fun a b => a.1 ≤ b.1

end FileTree

end LetExit
