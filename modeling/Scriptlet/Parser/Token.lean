import Scriptlet.Parser.Basic
import Scriptlet.Program
import Scriptlet.Text.Layout
import Scriptlet.Text.Name

/-!
# Tokens

The smallest pieces of source text. Each of them may have layout before it and none inside it.

Where a keyword misses because its letters go on, as in `iffy`, it misses after its own letters and
not before them.
-/

namespace Scriptlet

namespace Parser

open Scriptlet.Text

/-! ### Single characters and texts -/

/-- Reads the longest layout. -/
def layout : Parser Unit := fun s => .ok () (skip s)

/-- Reads a given text. -/
def literal (letters : List Char) : Parser Unit := fun s =>
  match letters.isPrefixOf? s with
  | some rest => .ok () rest
  | none => .miss s

/-- Succeeds, reading nothing, unless the text goes on with a certain character. -/
def unlessNext (stops : Char → Bool) : Parser Unit := fun s =>
  if s.head?.any stops then .miss s else .ok () s

/-! ### Tokens -/

/-- Reads a given text after layout. -/
def token (text : String) : Parser Unit := do
  layout
  literal text.toList

/-- Reads a keyword, which no character of a name may follow. -/
def keyword (k : Keyword) : Parser Unit := do
  layout
  literal k.letters
  unlessNext isNameChar

/-- Reads the sign of an assignment, which a second equals sign may not follow. -/
def assignSign : Parser Unit := do
  token "="
  unlessNext (· == '=')

/-- Reads the longest word that has the form of a name. It misses on a keyword. -/
def word : Parser String := fun s =>
  match s with
  | [] => .miss s
  | c :: rest =>
    if isNameStart c then
      let letters := c :: rest.takeWhile isNameChar
      if isKeyword letters then .miss s
      else .ok (String.ofList letters) (rest.dropWhile isNameChar)
    else .miss s

/-- Reads a name. -/
def identifier : Parser String := do
  layout
  word

/-- The text after a minus sign, if it starts with one. -/
def afterMinus? (s : List Char) : Option (List Char) :=
  ['-'].isPrefixOf? s

/-- The integer that decimal digits stand for. -/
def digitsValue (negative : Bool) (digits : List Char) : Int :=
  let n : Int := Nat.ofDigitChars 10 digits 0
  if negative then -n else n

/-- Reads the longest run of digits, with a minus sign directly before it or without. It fails on an
integer that is out of range. -/
def numeral : Parser Value := fun s =>
  let body := (afterMinus? s).getD s
  let digits := body.takeWhile Char.isDigit
  if digits.isEmpty then .miss body
  else match Value.ofInt? (digitsValue (afterMinus? s).isSome digits) with
    | some v => .ok v (body.dropWhile Char.isDigit)
    | none => .fail .outOfRange s

/-- Reads an integer literal. -/
def integer : Parser Value := do
  layout
  numeral

/-- Reads the first of the given operators whose symbol stands here. -/
def operatorAmong : List Operator → Parser Operator
  | [] => missing
  | op :: ops => (do token op.symbol; return op) <|> operatorAmong ops

end Parser

end Scriptlet
