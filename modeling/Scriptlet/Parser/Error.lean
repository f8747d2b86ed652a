import Scriptlet.Parser.Basic
import Scriptlet.Text.Blank
import Scriptlet.Text.Position

/-!
# Errors in source text

What can be wrong with a source text, where, and the message that says so. The places are those of
the text that was left unread when the parser gave up.
-/

namespace Scriptlet

open Scriptlet.Text

/-- What stands at the place of an error. -/
inductive Found where
  | endOfInput
  /-- The start of the word that stands there. -/
  | word (letters : List Char)
  deriving DecidableEq, Repr, Inhabited

namespace Found

/-- How many characters of a word are quoted. -/
def quoted : Nat := 16

/-- What a text starts with that does not start with a blank character. -/
def ofText (s : List Char) : Found :=
  match firstWord s with
  | [] => endOfInput
  | letters => word (letters.take quoted)

/-- How a message names what was found. -/
def text : Found → String
  | endOfInput => "end of input"
  | word letters => "`" ++ String.ofList letters ++ "`"

end Found

/-- Why a source text is refused. -/
inductive ParseError where
  /-- The text does not go on as the construct needs. -/
  | unexpected (position : Position) (found : Found)
  /-- Something else than a definition stands at the top level. -/
  | notADefinition (position : Position)
  /-- An integer literal is out of the range of values. -/
  | integerOutOfRange (position : Position) (literal : List Char)
  deriving DecidableEq, Repr, Inhabited

namespace ParseError

/-- Where the text is wrong. -/
def position : ParseError → Position
  | unexpected p _ => p
  | notADefinition p => p
  | integerOutOfRange p _ => p

/-- What a user is told. -/
def message : ParseError → String
  | unexpected p found => "syntax error at " ++ p.text ++ ": unexpected " ++ found.text
  | notADefinition p => "expected `define` or `global` at " ++ p.text
  | integerOutOfRange p literal =>
    "integer literal `" ++ String.ofList literal ++ "` at " ++ p.text ++ " does not fit in 64 bits"

/-- The longest integer literal at the start of a text. -/
def integerAt (s : List Char) : List Char :=
  match s with
  | [] => []
  | c :: rest => if c = '-' then c :: rest.takeWhile Char.isDigit else s.takeWhile Char.isDigit

/-- The error at the next word of what was left unread. -/
def unexpectedAt (source rest : List Char) : ParseError :=
  let rest := trimStart rest
  .unexpected (Position.ofRest source rest) (Found.ofText rest)

/-- The error that a fault is. -/
def ofFault (source : List Char) (fault : Parser.Fault) (rest : List Char) : ParseError :=
  match fault with
  | .outOfRange => .integerOutOfRange (Position.ofRest source rest) (integerAt rest)
  | .unexpected | .stuck => unexpectedAt source rest

end ParseError

end Scriptlet
