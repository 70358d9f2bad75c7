import LetExit.Build.Host

/-!
# Assembling and linking

Turning an assembly file into an executable is left to two external tools, an
assembler and a linker.
-/

set_option autoImplicit false

namespace LetExit

/-- A tool run that failed. -/
structure ToolError where
  tool : String
  args : List String
  output : Bytes
  cause : ToolFailure
deriving DecidableEq, Repr

/-- The message of a tool error, with what the tool printed as it is. -/
def ToolError.message (e : ToolError) : Bytes :=
  Utf8.ofString ("Assembler: " ++ e.tool ++ " " ++ " ".intercalate e.args ++ " failed: "
    ++ e.cause.message ++ ", output:\n") ++ e.output

/-- A tool that cannot be found. -/
structure MissingTool where
  tool : String
  cause : ToolFailure
deriving DecidableEq, Repr

/-- The message of a missing tool. -/
def MissingTool.message (missing : MissingTool) : String :=
  "Assembler: cannot find " ++ missing.tool ++ ": " ++ missing.cause.message

/-- The names of the assembler and the linker. -/
structure Toolchain where
  assembler : String
  linker : String
deriving DecidableEq, Repr

namespace Toolchain

variable {m : Type → Type} [Monad m]

/-- The usual tools. -/
def standard : Toolchain :=
  ⟨"nasm", "ld"⟩

/-- Checks that both tools can be found, the assembler first. -/
def lookUp (host : Host m) (tools : Toolchain) : ExceptT MissingTool m Unit := do
  match ← host.findTool tools.assembler with
  | some cause => throw ⟨tools.assembler, cause⟩
  | none =>
    match ← host.findTool tools.linker with
    | some cause => throw ⟨tools.linker, cause⟩
    | none => return

/-- The log fields of a tool run. -/
def fields (tool : String) (args : List String) : List (String × Bytes) :=
  [("tool", Utf8.ofString tool), ("args", Utf8.ofString (" ".intercalate args))]

/-- Runs a tool, which has to succeed. -/
def run (host : Host m) (verbose : Bool) (tool : String) (args : List String) :
    ExceptT ToolError m Unit := do
  host.log verbose ⟨.debug, Utf8.ofString "assembler: run external tool", fields tool args⟩
  let result ← host.runTool tool args
  match result.failure with
  | none => return
  | some cause =>
    host.log verbose ⟨.debug, Utf8.ofString "assembler: external tool failed",
      ("error", Utf8.ofString cause.message) :: fields tool args⟩
    throw ⟨tool, args, result.output, cause⟩

/-- Assembles a file into an object file. -/
def assemble (host : Host m) (verbose : Bool) (tools : Toolchain) (assembly object : String) :
    ExceptT ToolError m Unit :=
  run host verbose tools.assembler ["-felf64", assembly, "-o", object]

/-- Links an object file into an executable. -/
def link (host : Host m) (verbose : Bool) (tools : Toolchain) (object executable : String) :
    ExceptT ToolError m Unit :=
  run host verbose tools.linker ["-o", executable, object]

/-- Assembles and then links, unless assembling fails. -/
def build (host : Host m) (verbose : Bool) (tools : Toolchain)
    (assembly object executable : String) : ExceptT ToolError m Unit := do
  assemble host verbose tools assembly object
  link host verbose tools object executable

end Toolchain

end LetExit
