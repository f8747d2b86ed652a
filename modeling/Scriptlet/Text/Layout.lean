/-!
# Layout

Between two tokens a program may hold any amount of layout: spaces, tabs, carriage returns,
newlines and comments. A comment is `//` and the rest of its line. A line ends at a newline, at a
carriage return before a newline, or with the text; where a carriage return without a newline comes
first, the two slashes open no comment.

`skip` reads the longest layout at the start of a text.
-/

namespace Scriptlet.Text

/-- The characters that are layout by themselves. -/
def isSpace (c : Char) : Bool :=
  c == ' ' || c == '\t' || c == '\r' || c == '\n'

/-- Whether the first carriage return or newline of a text, if it has any, ends a line: a carriage
return does so only before a newline. -/
def lineEnds : List Char → Bool
  | [] => true
  | c :: s => if c = '\n' then true else if c = '\r' then s.head? == some '\n' else lineEnds s

/-- Whether a comment starts here. -/
def opensComment : List Char → Bool
  | c :: d :: s => c == '/' && d == '/' && lineEnds s
  | _ => false

/-- What follows the longest layout, where `inComment` says that the text starts inside a comment.
The first carriage return or newline of a comment ends it and is layout itself. -/
def skipFrom (inComment : Bool) : List Char → List Char
  | [] => []
  | c :: s =>
    if inComment then skipFrom (!(c == '\n' || c == '\r')) s
    else if isSpace c then skipFrom false s
    else if opensComment (c :: s) then skipFrom true s
    else c :: s

/-- What follows the longest layout at the start of a text. -/
def skip (s : List Char) : List Char :=
  skipFrom false s

/-- A character that is layout by itself is skipped. -/
theorem skip_cons_of_isSpace {c : Char} (h : isSpace c) (s : List Char) :
    skip (c :: s) = skip s := by
  simp [skip, skipFrom, h]

/-- A text that starts with no layout is left as it is. -/
theorem skip_cons_of_not {c : Char} {s : List Char} (h : isSpace c = false)
    (hc : opensComment (c :: s) = false) : skip (c :: s) = c :: s := by
  simp [skip, skipFrom, h, hc]

/-- What follows layout is an end part of the text. -/
theorem skipFrom_suffix (inComment : Bool) (s : List Char) : skipFrom inComment s <:+ s := by
  induction s generalizing inComment with
  | nil => exact List.suffix_refl _
  | cons c s ih =>
    unfold skipFrom
    split
    · exact (ih _).trans (List.suffix_cons c s)
    · split
      · exact (ih _).trans (List.suffix_cons c s)
      · split
        · exact (ih _).trans (List.suffix_cons c s)
        · exact List.suffix_refl _

/-- What follows layout is an end part of the text. -/
theorem skip_suffix (s : List Char) : skip s <:+ s :=
  skipFrom_suffix false s

end Scriptlet.Text
