import Mathlib.Data.List.Basic
import Scriptlet.Text.Layout

/-!
# Layout as a relation

`Layout s r` says that a run of spaces and comments leads from the text `s` to its end part `r`, in
the words of the language: nothing in it says how a run is found. `AfterLayout s r` says that this
run is the longest one. `afterLayout_iff` is the statement of this file: the longest run is the one
that `skip` reads.
-/

namespace Scriptlet

open Scriptlet.Text

/-- What holds of the characters of a list can be decided one after the other. -/
theorem forall_mem_of_all {p : Char → Prop} [DecidablePred p] {l : List Char}
    (h : l.all fun c => decide (p c)) : ∀ c ∈ l, p c :=
  fun c hc => of_decide_eq_true (List.all_eq_true.mp h c hc)

namespace Grammar

/-- The end of a line: that of the text, a newline, or a carriage return and a newline. -/
inductive LineEnd : List Char → Prop where
  | text : LineEnd []
  | newline (s : List Char) : LineEnd ('\n' :: s)
  | crlf (s : List Char) : LineEnd ('\r' :: '\n' :: s)

/-- A run of layout leads from a text to an end part of it. A comment goes on up to the first
carriage return or newline, where a line must end. -/
inductive Layout : List Char → List Char → Prop where
  | none (s : List Char) : Layout s s
  | space {c : Char} {s r : List Char} :
      c ∈ [' ', '\t', '\r', '\n'] → Layout s r → Layout (c :: s) r
  | comment {body s r : List Char} :
      (∀ c ∈ body, c ≠ '\r' ∧ c ≠ '\n') → LineEnd s → Layout s r →
        Layout ('/' :: '/' :: (body ++ s)) r

/-- The longest run of layout leads from a text to an end part of it. -/
def AfterLayout (s r : List Char) : Prop :=
  Layout s r ∧ ∀ t, Layout r t → t = r

/-! ### Spaces and comments -/

/-- The characters that are spaces. -/
theorem isSpace_iff {c : Char} : isSpace c ↔ c ∈ [' ', '\t', '\r', '\n'] := by
  simp [isSpace, or_assoc]

/-- A space is not read as the start of a comment, nor a slash as a space. -/
theorem skip_comment {s : List Char} (h : lineEnds s) :
    skip ('/' :: '/' :: s) = skipFrom true s := by
  simp [skip, skipFrom, isSpace, opensComment, h]

/-- A character that ends no line belongs to the comment. -/
theorem skipFrom_true_cons {c : Char} (hr : c ≠ '\r') (hn : c ≠ '\n') (s : List Char) :
    skipFrom true (c :: s) = skipFrom true s := by
  have h : (!(c == '\n' || c == '\r')) = true := by simp [hr, hn]
  rw [skipFrom, if_pos rfl, h]

/-- A comment is over where its line ends. -/
theorem skipFrom_true_of_lineEnd {s : List Char} (h : LineEnd s) : skipFrom true s = skip s := by
  cases h <;> simp [skip, skipFrom, isSpace]

/-- A line ends where the grammar says so. -/
theorem lineEnds_of_lineEnd {s : List Char} (h : LineEnd s) : lineEnds s := by
  cases h <;> simp [lineEnds]

/-- A comment goes on up to where its line ends. -/
theorem lineEnds_append {body s : List Char} (hb : ∀ c ∈ body, c ≠ '\r' ∧ c ≠ '\n')
    (h : LineEnd s) : lineEnds (body ++ s) := by
  induction body with
  | nil => exact lineEnds_of_lineEnd h
  | cons c body ih =>
    obtain ⟨hr, hn⟩ := hb c List.mem_cons_self
    rw [List.cons_append, lineEnds, if_neg hn, if_neg hr]
    exact ih fun d hd => hb d (List.mem_cons_of_mem c hd)

/-- From within a comment, what is skipped begins again where its line ends. -/
theorem skipFrom_true_append {body s : List Char} (hb : ∀ c ∈ body, c ≠ '\r' ∧ c ≠ '\n')
    (h : LineEnd s) : skipFrom true (body ++ s) = skip s := by
  induction body with
  | nil => exact skipFrom_true_of_lineEnd h
  | cons c body ih =>
    obtain ⟨hr, hn⟩ := hb c List.mem_cons_self
    rw [List.cons_append, skipFrom_true_cons hr hn]
    exact ih fun d hd => hb d (List.mem_cons_of_mem c hd)

/-- A text that goes on to the end of a line splits there. -/
theorem exists_lineEnd {s : List Char} (h : lineEnds s) :
    ∃ body t, s = body ++ t ∧ (∀ c ∈ body, c ≠ '\r' ∧ c ≠ '\n') ∧ LineEnd t := by
  induction s with
  | nil => exact ⟨[], [], rfl, nofun, .text⟩
  | cons c s ih =>
    by_cases hn : c = '\n'
    · subst hn
      exact ⟨[], _, rfl, nofun, .newline s⟩
    · by_cases hr : c = '\r'
      · subst hr
        cases s with
        | nil => simp [lineEnds] at h
        | cons d t =>
          have hd : d = '\n' := by simpa [lineEnds] using h
          subst hd
          exact ⟨[], _, rfl, nofun, .crlf t⟩
      · rw [lineEnds, if_neg hn, if_neg hr] at h
        obtain ⟨body, t, rfl, hb, ht⟩ := ih h
        refine ⟨c :: body, t, rfl, ?_, ht⟩
        intro d hd
        rcases List.mem_cons.mp hd with rfl | hd
        · exact ⟨hr, hn⟩
        · exact hb d hd

/-! ### The longest run -/

/-- A run of layout leads to an end part. -/
theorem suffix_of_layout {s r : List Char} (h : Layout s r) : r <:+ s := by
  induction h with
  | none s => exact List.suffix_refl s
  | space _ _ ih => exact ih.trans (List.suffix_cons _ _)
  | @comment body s r _ _ _ ih => exact ih.trans ⟨'/' :: '/' :: body, by simp⟩

/-- A run of layout does not change what follows the longest run. -/
theorem skip_eq_of_layout {s r : List Char} (h : Layout s r) : skip s = skip r := by
  induction h with
  | none s => rfl
  | space hc _ ih => rw [skip_cons_of_isSpace (isSpace_iff.mpr hc), ih]
  | comment hb he _ ih => rw [skip_comment (lineEnds_append hb he), skipFrom_true_append hb he, ih]

/-- `skip` follows a run of layout. -/
theorem layout_skip (s : List Char) : Layout s (skip s) := by
  match s with
  | [] => exact .none []
  | c :: s =>
    by_cases hc : isSpace c
    · rw [skip_cons_of_isSpace hc]
      exact .space (isSpace_iff.mp hc) (layout_skip s)
    · by_cases ho : opensComment (c :: s)
      · match s with
        | [] => simp [opensComment] at ho
        | d :: s =>
          obtain ⟨⟨rfl, rfl⟩, hs⟩ : (c = '/' ∧ d = '/') ∧ lineEnds s := by
            simpa [opensComment] using ho
          obtain ⟨body, t, rfl, hb, ht⟩ := exists_lineEnd hs
          rw [skip_comment hs, skipFrom_true_append hb ht]
          exact .comment hb ht (layout_skip t)
      · rw [skip_cons_of_not (by simpa using hc) (by simpa using ho)]
        exact .none _
  termination_by s.length

/-- Nothing is layout after the longest run. -/
@[simp] theorem skip_skip (s : List Char) : skip (skip s) = skip s :=
  (skip_eq_of_layout (layout_skip s)).symm

/-- The longest run of layout is the one that `skip` reads. -/
theorem afterLayout_iff {s r : List Char} : AfterLayout s r ↔ skip s = r := by
  constructor
  · rintro ⟨h, hmax⟩
    rw [skip_eq_of_layout h]
    exact hmax _ (layout_skip r)
  · rintro rfl
    refine ⟨layout_skip s, fun t ht => ?_⟩
    have hskip : skip t = skip s := by rw [← skip_eq_of_layout ht, skip_skip]
    have hsuffix : skip s <:+ t := hskip ▸ skip_suffix t
    have hback : t <:+ skip s := suffix_of_layout ht
    exact hback.eq_of_length (Nat.le_antisymm hback.length_le hsuffix.length_le)

end Grammar

end Scriptlet
