/-!
# Names and keywords

A name is a letter or an underscore, then letters, digits and underscores, all of them ASCII. Six
such words are keywords, which name nothing.
-/

namespace Scriptlet.Text

/-- The characters that a name starts with. -/
def isNameStart (c : Char) : Bool :=
  c.isAlpha || c == '_'

/-- The characters that a name goes on with. -/
def isNameChar (c : Char) : Bool :=
  c.isAlphanum || c == '_'

/-- A start of a name can also go on in one. -/
theorem isNameChar_of_isNameStart {c : Char} (h : isNameStart c) : isNameChar c := by
  simp only [isNameStart, isNameChar, Char.isAlphanum, Bool.or_eq_true] at h ⊢
  exact h.imp_left .inl

/-- A word with a meaning of its own. -/
inductive Keyword where
  /-- Starts the definition of a function. -/
  | function
  /-- Starts the definition of a global variable. -/
  | global
  /-- Starts a conditional. -/
  | conditional
  /-- Starts the second branch of a conditional. -/
  | otherwise
  /-- Starts a loop. -/
  | loop
  /-- Starts a print. -/
  | print
  deriving DecidableEq, Repr, Inhabited

namespace Keyword

/-- The spelling of a keyword. -/
def letters : Keyword → List Char
  | function => "define".toList
  | global => "global".toList
  | conditional => "if".toList
  | otherwise => "else".toList
  | loop => "while".toList
  | print => "println".toList

/-- Every keyword. -/
def all : List Keyword :=
  [function, global, conditional, otherwise, loop, print]

/-- `all` leaves no keyword out. -/
theorem mem_all (k : Keyword) : k ∈ all := by
  cases k <;> decide

end Keyword

/-- Whether a word is the spelling of a keyword. -/
def isKeyword (word : List Char) : Bool :=
  Keyword.all.any fun k => k.letters == word

/-- A word is reserved exactly if some keyword is spelt so. -/
theorem isKeyword_iff {word : List Char} : isKeyword word ↔ ∃ k : Keyword, k.letters = word := by
  simp [isKeyword, Keyword.mem_all]

/-- Whether a word can be written as a name: it has the form of one and is no keyword. -/
def isName : List Char → Bool
  | [] => false
  | c :: s => isNameStart c && s.all isNameChar && !isKeyword (c :: s)

end Scriptlet.Text
