/-!
# File paths

Paths are texts whose components are separated by slashes.  Everything here is about
the text alone and asks no file system.
-/

set_option autoImplicit false

namespace LetExit

namespace Path

/-- Puts a character in front of the components that follow it. -/
def consComponent (c : Char) (parts : List (List Char)) : List (List Char) :=
  if c = '/' then [] :: parts
  else match parts with
    | [] => [[c]]
    | first :: later => (c :: first) :: later

/-- The texts between the slashes of a path, also the empty ones.  There is at least one. -/
def components (path : String) : List String :=
  (path.toList.foldr consComponent [[]]).map String.ofList

/-- The path with the given components. -/
def join (parts : List String) : String :=
  "/".intercalate parts

/-- Whether a path starts at the root. -/
def isRooted (path : String) : Bool :=
  path.toList.head? = some '/'

/-- Adds a component to a cleaned path, whose components are kept last one first: nothing for an
empty one and `.`, and `..` takes back the component before it.  Above the root is the root. -/
def cleanStep (rooted : Bool) (done : List String) (part : String) : List String :=
  if part = "" || part = "." then done
  else if part = ".." then
    match done with
    | [] => if rooted then [] else [".."]
    | last :: before => if last = ".." then ".." :: done else before
  else part :: done

/-- The shortest path through the given components. -/
def clean (rooted : Bool) (parts : List String) : String :=
  let text := join (parts.foldl (cleanStep rooted) []).reverse
  if rooted then "/" ++ text else if text = "" then "." else text

/-- The directory that a path lies in, cleaned. -/
def directory (path : String) : String :=
  clean (isRooted path) (components path).dropLast

/-- The last component of a path, trailing slashes aside.  The root is its own last component, and
the empty path counts as the current directory. -/
def base (path : String) : String :=
  match (components path).reverse.dropWhile (· = "") with
  | last :: _ => last
  | [] => if path = "" then "." else "/"

/-- A name without its extension, which starts at the last dot. -/
def stem (name : String) : String :=
  if name.toList.contains '.' then
    String.ofList (name.toList.reverse.dropWhile (· ≠ '.')).tail.reverse
  else name

/-- The path with another extension on its last component. -/
def withExtension (path extension : String) : String :=
  let parts := components path
  join (parts.dropLast ++ [stem (parts.getLast?.getD "")]) ++ extension

end Path

end LetExit
