import Scriptlet.Parser.Source
import Scriptlet.Proofs.Parser.Lookalike

/-!
# Line breaks

Lines may end with a newline or with a carriage return and a newline. Which of the two a text uses makes
no difference, neither to what is read nor to what is said of an error. To the parsers the two texts look
alike (`rebroken_lookalike`), so that they stop at corresponding places. There line and column are the
same (`Position.after_crlf`), since the column is counted anew after the newline, and so are words and
literals, which hold no line break.

* `parse_crlf`: the whole answer is the same.
-/

namespace Scriptlet

open Scriptlet.Text

namespace Text

/-- A text with a carriage return before every newline. -/
def crlf (s : List Char) : List Char :=
  s.flatMap fun c => if c = '\n' then ['\r', '\n'] else [c]

/-- Where there is nothing, there is no line break. -/
@[simp] theorem crlf_nil : crlf [] = [] := rfl

/-- A newline gets a carriage return before it. -/
@[simp] theorem crlf_newline (s : List Char) : crlf ('\n' :: s) = '\r' :: '\n' :: crlf s := rfl

/-- Other characters stay. -/
theorem crlf_cons_of_ne {c : Char} (hc : c ≠ '\n') (s : List Char) : crlf (c :: s) = c :: crlf s := by
  rw [crlf, List.flatMap_cons, if_neg hc]
  rfl

/-- The line breaks of two texts are replaced in each. -/
theorem crlf_append (s t : List Char) : crlf (s ++ t) = crlf s ++ crlf t :=
  List.flatMap_append

/-- No text becomes empty, and an empty one stays so. -/
theorem crlf_eq_nil_iff {s : List Char} : crlf s = [] ↔ s = [] := by
  cases s with
  | nil => simp
  | cons c s => by_cases hc : c = '\n' <;> simp [hc, crlf_cons_of_ne]

/-! ### Layout -/

/-- A comment without a carriage return in its line ends with it. -/
theorem lineEnds_of_not_mem {s : List Char} (h : '\r' ∉ s) : lineEnds s := by
  induction s with
  | nil => rfl
  | cons c s ih =>
    rw [List.mem_cons, not_or] at h
    rw [lineEnds, if_neg (Ne.symm h.1)]
    split
    · rfl
    · exact ih h.2

/-- A comment whose lines have other breaks ends like before. -/
theorem lineEnds_crlf {s : List Char} (h : '\r' ∉ s) : lineEnds (crlf s) := by
  induction s with
  | nil => rfl
  | cons c s ih =>
    rw [List.mem_cons, not_or] at h
    by_cases hc : c = '\n'
    · subst hc
      rfl
    · rw [crlf_cons_of_ne hc, lineEnds, if_neg hc, if_neg (Ne.symm h.1)]
      exact ih h.2

/-- A comment starts in both texts or in neither. -/
theorem opensComment_crlf {c : Char} {s : List Char} (h : '\r' ∉ s) :
    opensComment (c :: crlf s) = opensComment (c :: s) := by
  cases s with
  | nil => rfl
  | cons d s =>
    by_cases hd : d = '\n'
    · subst hd
      simp [opensComment]
    · have hs : '\r' ∉ s := fun hmem => h (List.mem_cons_of_mem d hmem)
      simp [crlf_cons_of_ne hd, opensComment, lineEnds_of_not_mem hs, lineEnds_crlf hs]

/-- What is skipped, in a comment or outside of one, is the same apart from its line breaks. -/
theorem skipFrom_crlf {s : List Char} (h : '\r' ∉ s) (inComment : Bool) :
    skipFrom inComment (crlf s) = crlf (skipFrom inComment s) := by
  induction s generalizing inComment with
  | nil => rfl
  | cons c s ih =>
    rw [List.mem_cons, not_or] at h
    obtain ⟨hr, hs⟩ := h
    by_cases hc : c = '\n'
    · subst hc
      -- the carriage return ends a comment, and the newline is layout after it
      cases inComment <;> simp [skipFrom, isSpace, ih hs]
    · rw [crlf_cons_of_ne hc, skipFrom, skipFrom, opensComment_crlf hs, ih hs, ih hs, ih hs]
      split
      · rfl
      · split
        · rfl
        · split
          · rfl
          · exact (crlf_cons_of_ne hc s).symm

/-- What is skipped before a token is the same apart from its line breaks. -/
theorem skip_crlf {s : List Char} (h : '\r' ∉ s) : skip (crlf s) = crlf (skip s) :=
  skipFrom_crlf h false

/-! ### Places and words -/

/-- A carriage return before a newline takes up no place. -/
theorem Position.after_crlf (u : List Char) : Position.after (crlf u) = Position.after u := by
  have go : ∀ p : Position, (crlf u).foldl Position.advance p = u.foldl Position.advance p := by
    induction u with
    | nil => exact fun _ => rfl
    | cons c u ih =>
      intro p
      by_cases hc : c = '\n'
      · subst hc
        exact ih _
      · rw [crlf_cons_of_ne hc]
        exact ih _
  exact go Position.start

/-- A place has the same line and column. -/
theorem Position.ofRest_crlf {source rest : List Char} (h : rest <:+ source) :
    Position.ofRest (crlf source) (crlf rest) = Position.ofRest source rest := by
  obtain ⟨u, rfl⟩ := h
  rw [crlf_append, Position.ofRest_append, Position.ofRest_append, Position.after_crlf]

/-- A run of characters without line breaks is the same in both texts. -/
theorem takeWhile_crlf {p : Char → Bool} (hr : p '\r' = false) (hn : p '\n' = false)
    (s : List Char) : (crlf s).takeWhile p = s.takeWhile p := by
  induction s with
  | nil => rfl
  | cons c s ih =>
    by_cases hc : c = '\n'
    · subst hc
      simp [hr, hn]
    · rw [crlf_cons_of_ne hc, List.takeWhile_cons, List.takeWhile_cons, ih]

/-- Blank characters are looked past alike. -/
theorem trimStart_crlf (s : List Char) : trimStart (crlf s) = crlf (trimStart s) := by
  induction s with
  | nil => rfl
  | cons c s ih =>
    by_cases hc : c = '\n'
    · subst hc
      exact ih
    · unfold trimStart at ih ⊢
      rw [crlf_cons_of_ne hc, List.dropWhile_cons, List.dropWhile_cons]
      split
      · exact ih
      · exact (crlf_cons_of_ne hc s).symm

end Text

/-- The same word is found. -/
theorem Found.ofText_crlf (s : List Char) : Found.ofText (crlf s) = Found.ofText s := by
  have hword : firstWord (crlf s) = firstWord s := takeWhile_crlf rfl rfl s
  rw [ofText, ofText, hword]

/-- The same literal of an integer is found. -/
theorem ParseError.integerAt_crlf (s : List Char) : integerAt (crlf s) = integerAt s := by
  have hdigits := takeWhile_crlf (p := Char.isDigit) rfl rfl
  cases s with
  | nil => rfl
  | cons c s =>
    by_cases hc : c = '\n'
    · subst hc
      rfl
    · have hall := hdigits (c :: s)
      rw [crlf_cons_of_ne hc] at hall ⊢
      rw [integerAt, integerAt, hdigits, hall]

/-- The same error at corresponding places. -/
theorem ParseError.ofFault_crlf {source rest : List Char} (fault : Parser.Fault)
    (h : rest <:+ source) :
    ofFault (crlf source) fault (crlf rest) = ofFault source fault rest := by
  have hunexpected : unexpectedAt (crlf source) (crlf rest) = unexpectedAt source rest := by
    have htrim : trimStart rest <:+ source := (List.dropWhile_suffix _).trans h
    rw [unexpectedAt, unexpectedAt, trimStart_crlf, Position.ofRest_crlf htrim, Found.ofText_crlf]
  cases fault with
  | unexpected => exact hunexpected
  | stuck => exact hunexpected
  | outOfRange => rw [ofFault, ofFault, Position.ofRest_crlf h, integerAt_crlf]

namespace Parser

/-- A text without carriage returns, and the same text with one before every newline. -/
def Rebroken (s t : List Char) : Prop :=
  '\r' ∉ s ∧ t = crlf s

/-- With other line breaks, a text looks alike to tokens. -/
theorem rebroken_lookalike : Lookalike Rebroken where
  sees := by
    rintro s _ ⟨h, rfl⟩
    cases s with
    | nil => exact .nothing
    | cons c s =>
      by_cases hc : c = '\n'
      · subst hc
        exact .space rfl rfl
      · rw [crlf_cons_of_ne hc]
        by_cases hspace : isSpace c
        · exact .space hspace hspace
        · have hs : '\r' ∉ s := fun hmem => h (List.mem_cons_of_mem c hmem)
          exact .letter (by simpa using hspace) ⟨hs, rfl⟩
  skip := by
    rintro s _ ⟨h, rfl⟩
    exact ⟨fun hmem => h ((skip_suffix s).subset hmem), skip_crlf h⟩

variable {α : Type}

/-- The whole answer is the same if it is for what a success leaves over. -/
theorem readAll_crlf {p : Parser α} {leftOver leftOver' : List Char → ParseError} {s : List Char}
    (hp : ReadsAlike Rebroken p) (ht : Trims p)
    (hleft : ∀ r, r <:+ s → leftOver' (crlf r) = leftOver r) (h : '\r' ∉ s) :
    p.readAll leftOver' (crlf s) = p.readAll leftOver s := by
  have halike := hp s (crlf s) ⟨h, rfl⟩
  have hrest := ht s
  unfold readAll
  generalize p s = reply at halike hrest
  generalize p (crlf s) = reply' at halike
  cases halike with
  | @ok a r _ hr =>
    obtain ⟨-, rfl⟩ := hr
    cases r with
    | nil => rfl
    | cons c r =>
      have hne : crlf (c :: r) ≠ [] := fun hnil => nomatch crlf_eq_nil_iff.mp hnil
      obtain ⟨d, t, hcons⟩ := List.exists_cons_of_ne_nil hne
      have herror := hleft (c :: r) hrest
      rw [hcons] at herror ⊢
      exact congrArg Except.error herror
  | miss hr =>
    obtain ⟨-, rfl⟩ := hr
    exact congrArg Except.error (ParseError.ofFault_crlf .unexpected hrest)
  | fail fault hr =>
    obtain ⟨-, rfl⟩ := hr
    exact congrArg Except.error (ParseError.ofFault_crlf fault hrest)

/-- Line breaks do not matter: with a carriage return before every newline, a text is read as the same
program or expression, or refused with the same error at the same line and column. -/
theorem parse_crlf {s : List Char} (h : '\r' ∉ s) :
    Program.parse (crlf s) = Program.parse s ∧ Expr.parse (crlf s) = Expr.parse s := by
  constructor
  · exact readAll_crlf rebroken_lookalike.readsAlike_program program_trims
      (fun r hr => congrArg ParseError.notADefinition (Position.ofRest_crlf hr)) h
  · exact readAll_crlf rebroken_lookalike.compositional.expressionAndLayout expressionAndLayout_trims
      (fun r hr => ParseError.ofFault_crlf .unexpected hr) h

/-- Behind two line breaks and a comment, an operator without an operand is not expected. -/
theorem parse_crlf_of_missing_operand :
    let s := "define main() \x7b\n  x = 1 // caf\u00e9 \x7b\n\n  y >=\n  \x7d\n// end".toList
    let e : ParseError := .unexpected ⟨4, 5⟩ (.word ['>', '='])
    '\r' ∉ s ∧ Program.parse s = .error e ∧ Program.parse (crlf s) = .error e := by
  intro s e
  have h : '\r' ∉ s := by decide
  have hplain : Program.parse s = .error e := by decide +kernel
  exact ⟨h, hplain, (parse_crlf h).1.trans hplain⟩

end Parser

end Scriptlet
