import Mathlib.Data.List.DropRight
import Scriptlet.Proofs.Grammar.Soundness
import Scriptlet.Proofs.Parser.Lookalike

/-!
# More layout where there is some

Where a text has layout between two tokens, it may have more. A place is between two tokens if what is
before it is a `Gap`: it ends with layout, and no comment that it opens goes on beyond it. What may
stand there in addition is `Padding`: spaces, tabs, line breaks, and comments that end with their line.

With and without padding in a gap, texts look alike to the parsers (`padded_lookalike`): up to the gap
they are the same, layout that goes on into the gap ends after it in both (`Gap.skip_append`), and no
token goes on into it.

* `parse_ignores_padding`: padding in a gap does not change what is read.
-/

namespace Scriptlet

open Scriptlet.Text

namespace Text

/-- What follows the last newline of a text. -/
def lastLine (s : List Char) : List Char :=
  s.rtakeWhile (· != '\n')

/-- A text that ends between two tokens: with a character of layout, and with no comment in its last
line. -/
structure Gap (u : List Char) : Prop where
  space : ∃ c ∈ u.getLast?, isSpace c
  outside : ¬ ['/', '/'] <:+: lastLine u

/-- Layout with nothing else around it: spaces and comments, each up to a newline. -/
inductive Padding : List Char → Prop where
  | nil : Padding []
  | space {c : Char} {w : List Char} : isSpace c → Padding w → Padding (c :: w)
  | comment {body w : List Char} :
      (∀ c ∈ body, c ≠ '\r' ∧ c ≠ '\n') → Padding w → Padding ('/' :: '/' :: (body ++ '\n' :: w))

open Scriptlet.Grammar

/-- Padding is a run of layout before any text. -/
theorem Padding.layout {w : List Char} (hw : Padding w) (v : List Char) : Layout (w ++ v) v := by
  induction hw with
  | nil => exact .none v
  | space hc _ ih => exact .space (isSpace_iff.mp hc) ih
  | @comment body w hbody _ ih =>
    have hrest : Layout ('\n' :: (w ++ v)) v := .space (by decide) ih
    have hcomment := Layout.comment hbody (.newline (w ++ v)) hrest
    simpa only [List.cons_append, List.append_assoc] using hcomment

/-! ### Last lines -/

/-- The last line of the end of a text is the end of its last line. -/
theorem lastLine_suffix (p r : List Char) : lastLine r <:+ lastLine (p ++ r) := by
  unfold lastLine List.rtakeWhile
  rw [List.reverse_suffix, List.reverse_append, List.takeWhile_append]
  split
  · next h =>
    rw [(List.takeWhile_prefix _).eq_of_length h]
    exact List.prefix_append _ _
  · exact List.prefix_refl _

/-- A text without a newline is its own last line. -/
theorem lastLine_eq_self {s : List Char} (h : '\n' ∉ s) : lastLine s = s := by
  apply List.rtakeWhile_eq_self_iff.mpr
  intro c hc
  have hne : c ≠ '\n' := fun heq => h (heq ▸ hc)
  simpa using hne

/-- The end of a line that a text itself holds is one before any other text. -/
theorem lineEnd_append {t : List Char} (h : LineEnd t) (ht : t ≠ []) (v : List Char) :
    LineEnd (t ++ v) := by
  cases h with
  | text => exact absurd rfl ht
  | newline s => exact .newline _
  | crlf s => exact .crlf _

/-- A line that ends within a text does so before any other text. -/
theorem lineEnds_append_of_mem {s : List Char} (h : '\n' ∈ s) (v : List Char) :
    lineEnds (s ++ v) = lineEnds s := by
  induction s with
  | nil => cases h
  | cons c s ih =>
    rw [List.cons_append, lineEnds, lineEnds]
    by_cases hn : c = '\n'
    · rw [if_pos hn, if_pos hn]
    · have hs : '\n' ∈ s := (List.mem_cons.mp h).resolve_left (Ne.symm hn)
      rw [if_neg hn, if_neg hn, ih hs]
      cases s with
      | nil => cases hs
      | cons d s => rfl

/-! ### Gaps -/

namespace Gap

variable {c : Char} {u p r : List Char}

/-- A gap has at least one character. -/
theorem ne_nil (h : Gap u) : u ≠ [] := by
  rintro rfl
  obtain ⟨c, hc, -⟩ := h.space
  cases hc

/-- What is left of a gap is one. -/
theorem of_append (h : Gap (p ++ r)) (hr : r ≠ []) : Gap r where
  space := by
    obtain ⟨c, hc, hspace⟩ := h.space
    rw [List.getLast?_append_of_ne_nil p hr] at hc
    exact ⟨c, hc, hspace⟩
  outside := fun hcomment => h.outside (hcomment.trans (lastLine_suffix p r).isInfix)

/-- A gap that does not start with layout goes on. -/
theorem tail_ne_nil (h : Gap (c :: u)) (hc : isSpace c = false) : u ≠ [] := by
  rintro rfl
  obtain ⟨d, hd, hspace⟩ := h.space
  obtain rfl : c = d := Option.some.inj hd
  rw [hc] at hspace
  cases hspace

/-- The line of a comment ends before the gap does. -/
theorem newline_mem (h : Gap ('/' :: '/' :: u)) : '\n' ∈ u := by
  by_contra hnone
  have hself : lastLine ('/' :: '/' :: u) = '/' :: '/' :: u :=
    lastLine_eq_self (by simpa using hnone)
  apply h.outside
  rw [hself]
  exact ⟨[], u, rfl⟩

/-- Two slashes at the start of a gap open a comment that ends within the gap, or none, whatever
follows the gap. -/
theorem skip_slashes (h : Gap ('/' :: '/' :: u)) :
    (∀ v, opensComment ('/' :: '/' :: (u ++ v)) = false) ∨
      ∃ body r, u = body ++ r ∧ ∀ v, skip ('/' :: '/' :: (u ++ v)) = skip (r ++ v) := by
  have hmem := h.newline_mem
  by_cases hline : lineEnds u
  · obtain ⟨body, r, rfl, hbody, hr⟩ := exists_lineEnd hline
    have hne : r ≠ [] := by
      rintro rfl
      rw [List.append_nil] at hmem
      exact (hbody _ hmem).2 rfl
    refine .inr ⟨body, r, rfl, fun v => ?_⟩
    have hend := lineEnd_append hr hne v
    rw [List.append_assoc, skip_comment (lineEnds_append hbody hend),
      skipFrom_true_append hbody hend]
  · refine .inl fun v => ?_
    simpa [opensComment, lineEnds_append_of_mem hmem] using hline

/-- A gap starts with layout that ends within the gap, or with none, whatever follows the gap. -/
theorem skip_step (h : Gap u) :
    (∀ v, skip (u ++ v) = u ++ v) ∨
      ∃ p r, u = p ++ r ∧ p ≠ [] ∧ ∀ v, skip (u ++ v) = skip (r ++ v) := by
  match u, h with
  | [], h => exact absurd rfl h.ne_nil
  | [c], h =>
    obtain ⟨d, hd, hspace⟩ := h.space
    obtain rfl : c = d := Option.some.inj hd
    exact .inr ⟨[c], [], rfl, by simp, fun v => skip_cons_of_isSpace hspace v⟩
  | c :: d :: u, h =>
    by_cases hc : isSpace c
    · exact .inr ⟨[c], d :: u, rfl, by simp, fun v => skip_cons_of_isSpace hc _⟩
    · have hc : isSpace c = false := by simpa using hc
      by_cases hslash : c = '/' ∧ d = '/'
      · obtain ⟨rfl, rfl⟩ := hslash
        rcases h.skip_slashes with ho | ⟨body, r, rfl, hskip⟩
        · exact .inl fun v => skip_cons_of_not hc (ho v)
        · exact .inr ⟨'/' :: '/' :: body, r, rfl, by simp, hskip⟩
      · have hno : (c == '/' && d == '/') = false := by
          rw [Bool.eq_false_iff, Ne, Bool.and_eq_true, beq_iff_eq, beq_iff_eq]
          exact hslash
        have hopens : ∀ v, opensComment (c :: d :: (u ++ v)) = false := fun v =>
          congrArg (· && lineEnds (u ++ v)) hno
        exact .inl fun v => skip_cons_of_not hc (hopens v)

/-- Layout at the start of a gap goes on into what follows the gap, whatever that is, or it ends
within the gap and leaves one. -/
theorem skip_append {u : List Char} (h : Gap u) :
    (∀ v, skip (u ++ v) = skip v) ∨ ∃ r, Gap r ∧ ∀ v, skip (u ++ v) = r ++ v := by
  -- not on the characters of the gap, for a comment is left out at one go
  rcases h.skip_step with hstop | ⟨p, r, rfl, hp, hskip⟩
  · exact .inr ⟨u, h, hstop⟩
  · by_cases hr : r = []
    · subst hr
      exact .inl hskip
    · have hlength : r.length < (p ++ r).length := by
        have := List.length_pos_iff.mpr hp
        rw [List.length_append]
        omega
      rcases skip_append (h.of_append hr) with hthrough | ⟨t, ht, hstop⟩
      · exact .inl fun v => (hskip v).trans (hthrough v)
      · exact .inr ⟨t, ht, fun v => (hskip v).trans (hstop v)⟩
  termination_by u.length

end Gap

end Text

namespace Parser

open Scriptlet.Grammar

/-! ### Padding in a gap -/

/-- A text and the same text with padding in a gap, or with the gap behind it. -/
inductive Padded (w : List Char) : List Char → List Char → Prop where
  | behind (s : List Char) : Padded w s s
  | ahead {u : List Char} (v : List Char) : Gap u → Padded w (u ++ v) (u ++ (w ++ v))

/-- Texts with and without padding look alike to tokens. -/
theorem padded_lookalike {w : List Char} (hw : Padding w) : Lookalike (Padded w) where
  sees := by
    intro s t h
    cases h with
    | behind s =>
      cases s with
      | nil => exact .nothing
      | cons c s =>
        by_cases hc : isSpace c
        · exact .space hc hc
        · exact .letter (by simpa using hc) (.behind s)
    | @ahead u v hu =>
      cases u with
      | nil => exact absurd rfl hu.ne_nil
      | cons c u =>
        by_cases hc : isSpace c
        · exact .space hc hc
        · have hc : isSpace c = false := by simpa using hc
          exact .letter hc (.ahead v (hu.of_append (p := [c]) (hu.tail_ne_nil hc)))
  skip := by
    intro s t h
    cases h with
    | behind s => exact .behind _
    | @ahead u v hu =>
      rcases hu.skip_append with hthrough | ⟨r, hr, hstop⟩
      · rw [hthrough, hthrough, skip_eq_of_layout (hw.layout v)]
        exact .behind _
      · rw [hstop, hstop]
        exact .ahead v hr

/-- Layout may be added where there is layout between tokens: with padding in a gap, a text is read as
a program or an expression exactly if it is without, and as the same one. -/
theorem parse_ignores_padding {u w : List Char} (hu : Gap u) (hw : Padding w) (v : List Char) :
    (∀ p, Program.parse (u ++ w ++ v) = .ok p ↔ Program.parse (u ++ v) = .ok p) ∧
    ∀ e, Expr.parse (u ++ w ++ v) = .ok e ↔ Expr.parse (u ++ v) = .ok e := by
  have hlook := padded_lookalike hw
  have hpadded : Padded w (u ++ v) (u ++ w ++ v) := by
    rw [List.append_assoc]
    exact .ahead v hu
  constructor
  · intro p
    rw [Program.parse, Program.parse, readAll_eq_ok_iff, readAll_eq_ok_iff]
    exact (hlook.ok_nil_iff hlook.readsAlike_program hpadded p).symm
  · intro e
    rw [Expr.parse, Expr.parse, readAll_eq_ok_iff, readAll_eq_ok_iff]
    have hreads : ReadsAlike (Padded w) (do let e ← expression; layout; return e) :=
      hlook.readsAlike_expression.bind fun e =>
        hlook.compositional.layout.bind fun _ => .pure e
    exact (hlook.ok_nil_iff hreads hpadded e).symm

/-- After a name and a comment, more comments keep a parenthesis from being that of a call. -/
theorem parse_ignores_padding_before_parenthesis :
    let u := "define main() \x7b f // no call\n\t".toList
    let w := "// nor here\n ".toList
    let v := "(1) \x7d".toList
    let p : Program := ⟨[.function ⟨"main", [], [.var "f", .int 1]⟩]⟩
    Gap u ∧ Padding w ∧ Program.parse (u ++ w ++ v) = .ok p ∧ Program.parse (u ++ v) = .ok p := by
  intro u w v p
  have hu : Gap u := ⟨⟨'\t', rfl, rfl⟩, by decide⟩
  have hbody : ∀ c ∈ " nor here".toList, c ≠ '\r' ∧ c ≠ '\n' := forall_mem_of_all (by decide)
  have hw : Padding w := .comment hbody (.space rfl .nil)
  have hplain : Program.parse (u ++ v) = .ok p := by decide +kernel
  exact ⟨hu, hw, ((parse_ignores_padding hu hw v).1 p).mpr hplain, hplain⟩

end Parser

end Scriptlet
