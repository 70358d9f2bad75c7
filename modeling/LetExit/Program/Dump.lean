import LetExit.Program
import LetExit.Text.Decimal
import LetExit.Text.Printable
import LetExit.Text.Quoted

/-!
# Dumping programs

The dump shows the tree of a program, one field to a line, indented by two spaces for
each level.
-/

set_option autoImplicit false

namespace LetExit

/-- The lines of a node: an opening line, the indented lines inside, and a closing line. -/
def dumpNode (title : String) (inside : List String) : List String :=
  (title ++ "\x7b") :: inside.map ("  " ++ ·) ++ ["\x7d,"]

/-- Puts the name of a field in front of its first line. -/
def dumpField (name : String) : List String → List String
  | [] => []
  | first :: later => (name ++ ": " ++ first) :: later

/-- The lines of an expression. -/
def Expr.dumpLines : Expr → List String
  | .literal value =>
    dumpNode "&internal.I64ExprAst" (dumpField "Value" [Decimal.text value.toInt ++ ","])
  | .name ident =>
    dumpNode "&internal.IdentExprAst"
      (dumpField "Name" [String.ofList (Quoted.bytes isPrintable (Utf8.ofString ident)) ++ ","])
  | .hole => ["nil,"]

/-- The lines of a statement. -/
def Statement.dumpLines : Statement → List String
  | .bind ident value =>
    dumpNode "&internal.LetStatementAst"
      (dumpField "Ident" [String.ofList (Quoted.bytes isPrintable (Utf8.ofString ident)) ++ ","]
        ++ dumpField "Expr" value.dumpLines)
  | .exit status => dumpNode "&internal.ExitStatementAst" (dumpField "Expr" status.dumpLines)
  | .hole => ["nil,"]

/-- The text that shows the tree of a program. -/
def Program.dump (program : Program) : String :=
  let statements :=
    if program.isEmpty then ["nil,"]
    else dumpNode "[]internal.StatementAst" (program.flatMap Statement.dumpLines)
  let lines := "&internal.ProgramAst\x7b" :: (dumpField "Statements" statements).map ("  " ++ ·)
    ++ ["\x7d"]
  "\n".intercalate lines ++ "\n"

end LetExit
