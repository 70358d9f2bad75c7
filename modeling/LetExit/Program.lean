/-!
# Programs

A program is a list of statements.  `let` binds a name to the value of an
expression, and `exit` ends the process with one; an expression is a number or a name.

A tree that was not read from a text may have holes where a node is missing.
-/

set_option autoImplicit false

namespace LetExit

/-- An expression. -/
inductive Expr where
  | literal (value : Int64)
  | name (ident : String)
  | hole
deriving DecidableEq, Repr

/-- A statement. -/
inductive Statement where
  | bind (ident : String) (value : Expr)
  | exit (status : Expr)
  | hole
deriving DecidableEq, Repr

/-- A program. -/
abbrev Program := List Statement

end LetExit
