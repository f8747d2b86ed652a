import Scriptlet.Parser.Error
import Scriptlet.Parser.Grammar
import Scriptlet.Program.Printer

/-!
# Reading source text

The tree of a whole source text, or the reason why it has none. Nothing but layout may follow what
is read.
-/

namespace Scriptlet

open Scriptlet.Text

/-- Reads a whole text. The unread rest of a success is passed to `leftOver`. -/
def Parser.readAll {α : Type} (p : Parser α) (leftOver : List Char → ParseError)
    (source : List Char) : Except ParseError α :=
  match p source with
  | .ok a [] => .ok a
  | .ok _ rest => .error (leftOver rest)
  | .miss rest => .error (.ofFault source .unexpected rest)
  | .fail fault rest => .error (.ofFault source fault rest)

/-- The program that a source text holds. -/
def Program.parse (source : List Char) : Except ParseError Program :=
  Parser.program.readAll (fun rest => .notADefinition (Position.ofRest source rest)) source

/-- The expression that a source text holds. -/
def Expr.parse (source : List Char) : Except ParseError Expr :=
  Parser.readAll (do let e ← Parser.expression; Parser.layout; return e)
    (ParseError.unexpectedAt source) source

/-- The program that a string holds. -/
def Program.ofString (source : String) : Except ParseError Program :=
  Program.parse source.toList

/-- The expression that a string holds. -/
def Expr.ofString (source : String) : Except ParseError Expr :=
  Expr.parse source.toList

end Scriptlet
