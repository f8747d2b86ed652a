import Scriptlet.Proofs.Completion.Constructs
import Scriptlet.Proofs.Errors.WordStart

/-!
# The end of the input

That the input ends where something is missing is reported where only blank characters were left unread.
If nothing was left, the text can be completed: something after it makes it a program or an expression.
What is blank need not be layout, however. A stray blank character, such as a no-break space, is looked
past by the error but never read by a parser, so that nothing after it helps.

* `not_completed`: a text is not completed after a stray blank character before which a parser halts.
* `completable_iff_of_endOfInput`: a text whose end is reported can be completed exactly if the scan of it
  meets no stray blank character.
-/

namespace Scriptlet

open Scriptlet.Text

/-- The scan of a text comes to a blank character that is no layout. -/
def HasStrayBlank (s : List Char) : Prop :=
  ∃ c r, Scanned s (c :: r) ∧ isBlank c ∧ isSpace c = false

namespace Parser

variable {α : Type} {p : Parser α} {s r : List Char} {c : Char}

/-! ### What is left at the end of the input -/

/-- Where the end of the input is found, only blank characters are left. -/
theorem trimStart_of_endOfInput (h : Found.ofText (trimStart s) = .endOfInput) : trimStart s = [] := by
  cases ht : trimStart s with
  | nil => rfl
  | cons c r =>
    have hc : ¬ isBlank c := not_of_mem_head?_dropWhile s c (by rw [← trimStart, ht]; rfl)
    rw [ht, Found.ofText, firstWord, List.takeWhile_cons_of_pos (by simpa using hc)] at h
    cases h

/-- A parser does not halt at a blank character inside a word, nor at layout. -/
theorem stray_of_halts (h : Halts s (c :: r)) (hc : isBlank c) :
    Clean s (c :: r) ∧ isSpace c = false := by
  cases h with
  | settled hclean hskip =>
    refine ⟨hclean, ?_⟩
    rw [Bool.eq_false_iff]
    intro hspace
    rw [skip_cons_of_isSpace hspace] at hskip
    have hlength := (skip_suffix r).length_le
    rw [hskip, List.length_cons] at hlength
    omega
  | behindIf helse =>
    obtain ⟨_, _, _, _, d, hd, hname⟩ := helse
    obtain rfl : c = d := Option.some.inj hd
    rw [isBlank_of_isNameChar hname] at hc
    cases hc

/-- After a stray blank character, whatever comes later, a text is not read to its end. -/
theorem not_completed (hp : Settles p) (hclean : Clean s (c :: r)) (hc : isBlank c)
    (hspace : isSpace c = false) (t : List Char) (a : α) : p (s ++ t) ≠ .ok a [] := by
  intro hok
  have hrest : Clean (c :: r ++ t) [] :=
    (hclean.append (List.cons_ne_nil c r) t).to_end (hp.ok hok)
  have := hrest.isSpace_of_isBlank (Scanned.refl _) hc
  rw [hspace] at this
  cases this

/-- A text of which only blank characters are left can be completed exactly if none of them is stray. -/
theorem completable_iff (hp : Settles p) (hopen : ∀ n, Open (n + 1) (· = []) p) (hr : Halts s r)
    (hblank : trimStart r = []) (hend : r = [] → Refuses p s []) :
    (∃ t a, p (s ++ t) = .ok a []) ↔ ¬ HasStrayBlank s := by
  cases r with
  | nil =>
    have hclean : Clean s [] := by
      cases hr with
      | settled hclean _ => exact hclean
      | behindIf helse =>
        obtain ⟨_, _, _, _, c, hc, -⟩ := helse
        cases hc
    refine iff_of_true ?_ ?_
    · obtain ⟨t, ht⟩ := hopen s.length s (Nat.lt_succ_self _) (hend rfl)
      obtain ⟨a, ha⟩ := ht [] rfl
      exact ⟨_, a, ha⟩
    · rintro ⟨c, r, hscanned, hc, hspace⟩
      have := hclean.isSpace_of_isBlank hscanned hc
      rw [hspace] at this
      cases this
  | cons c r =>
    have hc : isBlank c := by
      by_contra hc
      rw [trimStart, List.dropWhile_cons_of_neg hc] at hblank
      cases hblank
    obtain ⟨hclean, hspace⟩ := stray_of_halts hr hc
    refine iff_of_false ?_ ?_
    · rintro ⟨t, a, ha⟩
      exact not_completed hp hclean hc hspace t a ha
    · exact not_not_intro ⟨c, r, hclean.scanned, hc, hspace⟩

/-! ### Programs and expressions -/

section

variable {source : List Char} {position : Position}

/-- Where a program or an expression is refused because its text ends, some text after it completes it
exactly if the scan of it meets no stray blank character. -/
theorem completable_iff_of_endOfInput :
    (Program.parse source = .error (.unexpected position .endOfInput) →
      ((∃ t program, Program.parse (source ++ t) = .ok program) ↔ ¬ HasStrayBlank source)) ∧
    (Expr.parse source = .error (.unexpected position .endOfInput) →
      ((∃ t e, Expr.parse (source ++ t) = .ok e) ↔ ¬ HasStrayBlank source)) := by
  constructor
  · intro h
    obtain ⟨r, hr, herror⟩ := refused_of_program h
    have hblank := trimStart_of_endOfInput (ParseError.unexpected.inj herror).2
    simp only [Program.parse, readAll_eq_ok_iff]
    exact completable_iff program_settles program_open (program_settles.refuses hr) hblank
      fun hnil => hnil ▸ hr
  · intro h
    obtain ⟨r, hhalts, hrefuses, herror⟩ := refused_of_expr h
    have hblank := trimStart_of_endOfInput (ParseError.unexpected.inj herror).2
    simp only [Expr.parse, readAll_eq_ok_iff]
    exact completable_iff expressionAndLayout_settles (fun n => expressionAndLayout_open (n + 1))
      hhalts hblank fun hnil => hnil ▸ hrefuses hnil

end

/-- A list of arguments that is not closed can be completed, and so can the definition around it; before a
no-break space, an expression cannot. -/
theorem completable_iff_of_endOfInput_call :
    let call := "define main() \x7b f(a // the first".toList
    let stray := "a\u00a0".toList
    Program.parse call = .error (.unexpected ⟨1, 33⟩ .endOfInput) ∧
      ((∃ t program, Program.parse (call ++ t) = .ok program) ↔ ¬ HasStrayBlank call) ∧
    Expr.parse stray = .error (.unexpected ⟨1, 3⟩ .endOfInput) ∧
      ((∃ t e, Expr.parse (stray ++ t) = .ok e) ↔ ¬ HasStrayBlank stray) := by
  intro call stray
  have hcall : Program.parse call = .error (.unexpected ⟨1, 33⟩ .endOfInput) := by decide +kernel
  have hstray : Expr.parse stray = .error (.unexpected ⟨1, 3⟩ .endOfInput) := by decide +kernel
  exact ⟨hcall, completable_iff_of_endOfInput.1 hcall, hstray, completable_iff_of_endOfInput.2 hstray⟩

/-- So the end of the input may be reported for a program that no text completes. -/
theorem endOfInput_not_completable :
    ¬ ∀ (source : List Char) (position : Position),
      Program.parse source = .error (.unexpected position .endOfInput) →
      ∃ t program, Program.parse (source ++ t) = .ok program := by
  intro hall
  let source := "define main() \x7b\u00a0".toList
  have h : Program.parse source = .error (.unexpected ⟨1, 17⟩ .endOfInput) := by decide +kernel
  have hfail : program source = .fail .unexpected ['\u00a0'] := by decide +kernel
  obtain ⟨hclean, hspace⟩ := stray_of_halts (program_settles.fail hfail) (by decide)
  obtain ⟨t, ds, hok⟩ := hall source _ h
  exact not_completed program_settles hclean (by decide) hspace t ds (readAll_eq_ok_iff.mp hok)

end Parser

end Scriptlet
