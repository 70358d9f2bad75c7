import LetExit.Build.Path
import LetExit.Text.Printable
import LetExit.Text.Quoted

/-!
# Command line options

Options start with one dash or two.  A switch is true unless a value follows an equals
sign; any other option takes its value after an equals sign or from the next argument.
Options end at the first argument that is none, and behind `--`.  Of a repeated option
the last value counts.
-/

set_option autoImplicit false

namespace LetExit

/-- What a build is asked to do. -/
structure Options where
  source : String
  assembly : String
  object : String
  executable : String
  skipLink : Bool
  dumpTree : Bool
  verbose : Bool
deriving DecidableEq, Repr

/-- Why a command line was refused. -/
inductive OptionFault where
  | malformed (argument : String)
  | unknown (name : String)
  | missingValue (name : String)
  | notBoolean (value name : String)
deriving DecidableEq, Repr

/-- The message of an option fault. -/
def OptionFault.message : OptionFault → String
  | .malformed argument => "bad flag syntax: " ++ argument
  | .unknown name => "flag provided but not defined: -" ++ name
  | .missingValue name => "flag needs an argument: -" ++ name
  | .notBoolean value name =>
    "invalid boolean value " ++ String.ofList (Quoted.bytes isPrintable (Utf8.ofString value))
      ++ " for -" ++ name ++ ": parse error"

/-- What a command line asks for. -/
inductive Invocation where
  | build (options : Options)
  | help
  | refused (fault : OptionFault)
deriving DecidableEq, Repr

namespace Options

/-- The options of an empty command line. -/
def standard : Options :=
  ⟨"./main.hy", "./target/out.asm", "", "./out", false, false, false⟩

/-- Fills in the path of the object file, which follows the assembly file unless it is given. -/
def fillObject (o : Options) : Options :=
  if o.object = "" then { o with object := Path.withExtension o.assembly ".o" } else o

/-- The explanation of all options. -/
def usage : String :=
  "Usage of compiler:\n"
    ++ "  -bin string\n"
    ++ "    \tthe path of linked executable (default \"./out\")\n"
    ++ "  -dump_ast\n"
    ++ "    \twhether print the parsed ast\n"
    ++ "  -o string\n"
    ++ "    \tthe path of generated nasm file (default \"./target/out.asm\")\n"
    ++ "  -obj string\n"
    ++ "    \tthe path of object file, defaults to the nasm path with .o extension\n"
    ++ "  -path string\n"
    ++ "    \tthe path of hydrogen source file needs to be compiled (default \"./main.hy\")\n"
    ++ "  -skip_link\n"
    ++ "    \twhether stop after generating nasm file\n"
    ++ "  -v\twhether print debug logs, including all tokens\n"

/-- Sets the switch of the given name. -/
def setSwitch? (o : Options) (name : String) (value : Bool) : Option Options :=
  match name with
  | "skip_link" => some { o with skipLink := value }
  | "dump_ast" => some { o with dumpTree := value }
  | "v" => some { o with verbose := value }
  | _ => none

/-- Sets the option of the given name that takes a text. -/
def setText? (o : Options) (name value : String) : Option Options :=
  match name with
  | "path" => some { o with source := value }
  | "o" => some { o with assembly := value }
  | "obj" => some { o with object := value }
  | "bin" => some { o with executable := value }
  | _ => none

/-- The truth value that a text names. -/
def boolean? (value : String) : Option Bool :=
  if ["1", "t", "T", "TRUE", "true", "True"].contains value then some true
  else if ["0", "f", "F", "FALSE", "false", "False"].contains value then some false
  else none

/-- How an argument reads: as the end of the options, as an option with the value behind its
equals sign, or as neither. -/
inductive Argument where
  | stop
  | option (name : String) (value : Option String)
  | malformed
deriving DecidableEq, Repr

/-- Reads what follows the dashes of an option.  The first character of a name is not an equals
sign. -/
def Argument.ofBody : List Char → Argument
  | [] => .malformed
  | first :: rest =>
    if first = '-' || first = '=' then .malformed
    else
      let name := String.ofList (first :: rest.takeWhile (· ≠ '='))
      match rest.dropWhile (· ≠ '=') with
      | [] => .option name none
      | _ :: value => .option name (some (String.ofList value))

/-- Reads an argument. -/
def Argument.ofString (argument : String) : Argument :=
  match argument.toList with
  | ['-', '-'] => .stop
  | '-' :: '-' :: body => .ofBody body
  | '-' :: first :: rest => .ofBody (first :: rest)
  | _ => .stop

/-- Reads a command line on top of the options read so far. -/
def read (o : Options) : List String → Invocation
  | [] => .build o
  | argument :: later =>
    match Argument.ofString argument with
    | .stop => .build o
    | .malformed => .refused (.malformed argument)
    | .option name value =>
      match o.setSwitch? name true with
      | some switched =>
        match value with
        | none => read switched later
        | some text =>
          match boolean? text with
          | some b => read ((o.setSwitch? name b).getD o) later
          | none => .refused (.notBoolean text name)
      | none =>
        if (o.setText? name "").isSome then
          match value, later with
          | some text, later => read ((o.setText? name text).getD o) later
          | none, text :: later => read ((o.setText? name text).getD o) later
          | none, [] => .refused (.missingValue name)
        else if name = "h" || name = "help" then .help
        else .refused (.unknown name)

end Options

/-- Reads a command line. -/
def Invocation.ofArguments (arguments : List String) : Invocation :=
  Options.standard.read arguments

end LetExit
