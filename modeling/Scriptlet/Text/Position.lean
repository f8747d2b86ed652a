/-!
# Positions in a text

Lines and columns are counted from one. A line ends with a newline, and a column counts
characters.

`after_append` says that positions compose; `after_line` and `after_append_newline` are the two
steps that determine them.
-/

namespace Scriptlet.Text

/-- A place in a text. -/
structure Position where
  line : Nat
  column : Nat
  deriving DecidableEq, Repr, Inhabited

namespace Position

/-- The start of a text. -/
def start : Position := ⟨1, 1⟩

/-- The place after one more character. -/
def advance (p : Position) (c : Char) : Position :=
  if c = '\n' then ⟨p.line + 1, 1⟩ else ⟨p.line, p.column + 1⟩

/-- The place after a text. -/
def after (consumed : List Char) : Position :=
  consumed.foldl advance start

/-- The place after two texts is reached by going through the second one from the end of the
first. -/
theorem after_append (u v : List Char) : after (u ++ v) = v.foldl advance (after u) :=
  List.foldl_append

/-- A newline starts the next line. -/
theorem after_append_newline (u : List Char) : after (u ++ ['\n']) = ⟨(after u).line + 1, 1⟩ := by
  rw [after_append]
  rfl

/-- Any other character takes up one column. -/
theorem after_append_of_ne {c : Char} (h : c ≠ '\n') (u : List Char) :
    after (u ++ [c]) = ⟨(after u).line, (after u).column + 1⟩ := by
  rw [after_append]
  exact if_neg h

/-- The place in `source` at which its end part `rest` begins. -/
def ofRest (source rest : List Char) : Position :=
  after (source.take (source.length - rest.length))

/-- A text that splits in two has its second part at the place after the first. -/
theorem ofRest_append (u r : List Char) : ofRest (u ++ r) r = after u := by
  simp [ofRest]

/-- The place as text, such as `2:5`. -/
def text (p : Position) : String :=
  toString p.line ++ ":" ++ toString p.column

end Position

end Scriptlet.Text
