import Scriptlet.Parser.Source
import Scriptlet.Proofs.Errors.Unread
import Scriptlet.Proofs.Locality.StrayText
import Scriptlet.Proofs.Parser.Recursion

/-!
# Errors at the start of a word

An unexpected text is reported at a place where no word has begun, with one exception: where a word that
starts like `if` stands after a whole `else`, the error is inside this word, behind its first two
letters.

* `halts_of_unexpected`: what is reported is what is unread where the scan of the text halts.
* `splitsWord_of_unexpected_iff`: an unexpected text begins inside a word exactly in the exceptional case.
-/

namespace Scriptlet

open Scriptlet.Text
open Scriptlet.Grammar

/-! ### Where no word begins -/

/-- Blank characters that are not read belong to no word and open no comment. -/
theorem scanned_trimStart (s : List Char) : Scanned s (trimStart s) := by
  induction s with
  | nil => exact .refl []
  | cons c s ih =>
    unfold trimStart at ih ⊢
    rw [List.dropWhile_cons]
    split
    · next hc =>
      have hword : isNameStart c = false := by
        rw [Bool.eq_false_iff]
        intro hstart
        rw [isBlank_of_isNameChar (isNameChar_of_isNameStart hstart)] at hc
        cases hc
      have hopens : opensComment (c :: s) = false := by
        refine opensComment_of_ne ?_ s
        rintro rfl
        exact absurd hc (by decide)
      refine Scanned.step ?_
      rwa [scan_char hword hopens]
    · exact .refl _

/-- The letters of a word that starts like `if` are behind its first two letters. -/
theorem FollowsElseIf.splitsWord {s r : List Char} (h : FollowsElseIf s r) : SplitsWord s r := by
  obtain ⟨t, helse, hend, hif, hc⟩ := h
  have hscan : scan ('e' :: ("lse".toList ++ t)) = t :=
    scan_word (by decide) (forall_mem_of_all (by decide)) hend
  have hafter : Scanned ("else".toList ++ t) t := .step ⟨0, hscan⟩
  have hword : Scanned s ("if".toList ++ r) :=
    hif ▸ (helse.trans hafter).trans (Clean.of_skip t).scanned
  refine ⟨'i', ['f'], r.takeWhile isNameChar, r.dropWhile isNameChar, ?_, by decide, ?_, ?_,
    not_of_mem_head?_dropWhile r, List.takeWhile_append_dropWhile.symm⟩
  · simpa using hword
  · intro d hd
    rcases List.mem_append.mp hd with hf | hd
    · obtain rfl := List.mem_singleton.mp hf
      decide
    · exact List.mem_takeWhile_imp hd
  · obtain ⟨c, hc, hname⟩ := hc
    obtain ⟨v, rfl⟩ := List.head?_eq_some_iff.mp hc
    rw [List.takeWhile_cons_of_pos hname]
    exact List.cons_ne_nil _ _

namespace Parser

variable {α : Type} {source : List Char} {position : Position} {found : Found}

/-! ### Errors and what is unread -/

/-- An unexpected text is what was left after a success, or before what a parser gave up. -/
theorem refused_of_readAll {p : Parser α} (hp : NeverStuck p) {leftOver : List Char → ParseError}
    (h : readAll p leftOver source = .error (.unexpected position found)) :
    (∃ a r, p source = .ok a r ∧ r ≠ [] ∧ leftOver r = .unexpected position found) ∨
      ∃ r, Refuses p source r ∧ ParseError.unexpectedAt source r = .unexpected position found := by
  unfold readAll at h
  split at h
  · cases h
  · next a r hne hok => exact .inl ⟨a, r, hok, fun hnil => hne (hnil ▸ rfl), Except.error.inj h⟩
  · next r hmiss => exact .inr ⟨r, .inl hmiss, Except.error.inj h⟩
  · next fault r hfail =>
    cases fault with
    | unexpected => exact .inr ⟨r, .inr hfail, Except.error.inj h⟩
    | outOfRange => cases h
    | stuck => exact absurd hfail (hp source r)

/-- No definition is reported as unexpected, so that the parser has given up before it. -/
theorem refused_of_program (h : Program.parse source = .error (.unexpected position found)) :
    ∃ r, Refuses program source r ∧
      ParseError.unexpectedAt source r = .unexpected position found := by
  rcases refused_of_readAll (neverStuck_combining.program expression_neverStuck) h with
    ⟨_, _, _, _, hleft⟩ | hrefused
  · cases hleft
  · exact hrefused

/-- Where an expression is followed by something else, or there is none, the scan halts. At the end of the
text there is none. -/
theorem refused_of_expr (h : Expr.parse source = .error (.unexpected position found)) :
    ∃ r, Halts source r ∧ (r = [] → Refuses (do let e ← expression; layout; return e) source r) ∧
      ParseError.unexpectedAt source r = .unexpected position found := by
  have stuck := neverStuck_combining.expressionAndLayout expression_neverStuck
  rcases refused_of_readAll stuck h with ⟨e, r, hok, hne, herror⟩ | ⟨r, hr, herror⟩
  · refine ⟨r, .settled (expressionAndLayout_settles.ok hok) ?_, fun hnil => absurd hnil hne, herror⟩
    obtain ⟨_, t, -, hrest⟩ := bind_eq_ok_iff.mp hok
    obtain ⟨_, u, hlayout, hpure⟩ := bind_eq_ok_iff.mp hrest
    obtain ⟨-, rfl⟩ := pure_eq_ok_iff.mp hpure
    obtain rfl : skip t = u := (Reply.ok.inj hlayout).2
    exact skip_skip t
  · exact ⟨r, expressionAndLayout_settles.refuses hr, fun _ => hr, herror⟩

/-- What is reported as unexpected is what is unread where the scan halts. -/
theorem halts_of_unexpected
    (h : Program.parse source = .error (.unexpected position found) ∨
      Expr.parse source = .error (.unexpected position found)) :
    ∃ r, Halts source r ∧ ParseError.unexpectedAt source r = .unexpected position found := by
  rcases h with h | h
  · obtain ⟨r, hr, herror⟩ := refused_of_program h
    exact ⟨r, program_settles.refuses hr, herror⟩
  · obtain ⟨r, hhalts, -, herror⟩ := refused_of_expr h
    exact ⟨r, hhalts, herror⟩

/-- A position in a text splits it in one way. -/
theorem split_of_position {u v r s : List Char} (h : u ++ r = v ++ s)
    (hposition : Position.after u = Position.after v) : u = v ∧ r = s := by
  have huv : u = v := by
    have hu : u <+: v ++ s := ⟨r, h⟩
    rcases List.prefix_or_prefix_of_prefix hu (List.prefix_append v s) with hle | hle
    · exact Position.after_injective_of_prefix hle hposition
    · exact (Position.after_injective_of_prefix hle hposition.symm).symm
  subst huv
  exact ⟨rfl, List.append_cancel_left h⟩

/-! ### Errors and words -/

/-- An unexpected text is reported at a place of its own, with the word that begins there. This place is
inside a word of the source exactly where the word starts like `if` and comes after a whole `else`; then
it is behind the first two letters of the word. -/
theorem splitsWord_of_unexpected_iff
    (h : Program.parse source = .error (.unexpected position found) ∨
      Expr.parse source = .error (.unexpected position found)) :
    (∃ u r, source = u ++ r ∧ position = Position.after u) ∧
    ∀ u r, source = u ++ r → position = Position.after u →
      found = Found.ofText r ∧ (SplitsWord source r ↔ FollowsElseIf source r) := by
  obtain ⟨s, hhalts, herror⟩ := halts_of_unexpected h
  obtain ⟨hposition, hfound⟩ := ParseError.unexpected.inj herror
  have hclear : FollowsElseIf source (trimStart s) ∨ Scanned source (trimStart s) := by
    cases hhalts with
    | settled hclean _ => exact .inr (hclean.scanned.trans (scanned_trimStart s))
    | behindIf helse =>
      obtain ⟨_, _, _, _, c, hc, hname⟩ := id helse
      obtain ⟨v, rfl⟩ := List.head?_eq_some_iff.mp hc
      have htrim : trimStart (c :: v) = c :: v := by
        rw [trimStart, List.dropWhile_cons_of_neg (by simp [isBlank_of_isNameChar hname])]
      exact .inl (by rwa [htrim])
  obtain ⟨x, hx⟩ : trimStart s <:+ source := by
    rcases hclear with helse | hscanned
    · obtain ⟨c, a, b, t, hword, -, -, -, -, hr⟩ := helse.splitsWord
      refine List.IsSuffix.trans ?_ hword.suffix
      rw [hr, List.append_assoc]
      exact List.suffix_append _ _
    · exact hscanned.suffix
  rw [← hx, Position.ofRest_append] at hposition
  refine ⟨⟨x, trimStart s, hx.symm, hposition.symm⟩, fun u r hsplit hafter => ?_⟩
  obtain ⟨rfl, rfl⟩ := split_of_position (hx.trans hsplit) (hposition.trans hafter)
  refine ⟨hfound.symm, fun hsplits => ?_, FollowsElseIf.splitsWord⟩
  rcases hclear with helse | hscanned
  · exact helse
  · exact absurd hsplits (not_splitsWord hscanned)

/-- After `else`, the name `iffy` is refused at its last two letters. -/
theorem splitsWord_of_unexpected_iffy :
    let source := "define main() \x7b if 1 \x7b 2 \x7d else iffy \x7b 3 \x7d \x7d".toList
    let r := "fy \x7b 3 \x7d \x7d".toList
    Program.parse source = .error (.unexpected ⟨1, 35⟩ (.word "fy".toList)) ∧
      (SplitsWord source r ↔ FollowsElseIf source r) := by
  intro source r
  have h : Program.parse source = .error (.unexpected ⟨1, 35⟩ (.word "fy".toList)) := by
    decide +kernel
  let u := "define main() \x7b if 1 \x7b 2 \x7d else if".toList
  have hposition : (⟨1, 35⟩ : Position) = Position.after u := by decide +kernel
  exact ⟨h, ((splitsWord_of_unexpected_iff (.inl h)).2 u r rfl hposition).2⟩

/-- So an unexpected text may begin inside a word. -/
theorem unexpected_splits_word :
    ¬ ∀ (source : List Char) (position : Position) (found : Found) (u r : List Char),
      Program.parse source = .error (.unexpected position found) ∨
        Expr.parse source = .error (.unexpected position found) →
      source = u ++ r → position = Position.after u → ¬ SplitsWord source r := by
  intro hall
  let u := "define main() \x7b if 1 \x7b 2 \x7d else if".toList
  let r := "fy \x7b 3 \x7d \x7d".toList
  have h : Program.parse (u ++ r) = .error (.unexpected ⟨1, 35⟩ (.word "fy".toList)) := by
    decide +kernel
  have hposition : (⟨1, 35⟩ : Position) = Position.after u := by decide +kernel
  refine hall (u ++ r) _ _ u r (.inl h) rfl hposition ?_
  have hscanned : scan^[20] (u ++ r) = "iffy \x7b 3 \x7d \x7d".toList := by decide +kernel
  exact ⟨'i', ['f'], "fy".toList, " \x7b 3 \x7d \x7d".toList, ⟨20, hscanned⟩, by decide,
    forall_mem_of_all (by decide), by decide, by simp [EndsWord, isNameChar], rfl⟩

end Parser

end Scriptlet
