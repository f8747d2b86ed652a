import Scriptlet.Proofs.Errors.Located
import Scriptlet.Proofs.Locality.Expressions

/-!
# Stray text after definitions

A program is refused for something else than a definition only where definitions have been read and
nothing else is wrong with the text before. So the text up to the place of the error is a program of
its own: the definitions are read from it as they were read with the stray text in view, since they
are over in both (`definitions_local`), and the layout before the stray text is layout at the end
(`layout_of_stray`). A place determines the text before it (`Position.after_injective_of_prefix`).

* `program_before_stray_text`: the definitions read before the error are the program that the text
  before it holds, and no keyword of a definition stands at the error.
-/

namespace Scriptlet

open Scriptlet.Text
open Scriptlet.Grammar

namespace Text

/-- Characters lead to a later line, or further to the right on the same line. -/
theorem Position.foldl_advance (v : List Char) (p : Position) :
    p.line < (v.foldl Position.advance p).line ∨
      p.line = (v.foldl Position.advance p).line ∧
        (v.foldl Position.advance p).column = p.column + v.length := by
  induction v generalizing p with
  | nil => exact .inr ⟨rfl, rfl⟩
  | cons c v ih =>
    rw [List.foldl_cons, List.length_cons]
    have hstep : p.advance c = ⟨p.line + 1, 1⟩ ∨ p.advance c = ⟨p.line, p.column + 1⟩ := by
      unfold Position.advance
      split
      · exact .inl rfl
      · exact .inr rfl
    have := ih (p.advance c)
    rcases hstep with hstep | hstep <;> rw [hstep] at this ⊢ <;> simp only at this <;> omega

/-- Of two starts of one text, the longer one ends at another place. -/
theorem Position.after_injective_of_prefix {u v : List Char} (h : u <+: v)
    (hafter : Position.after u = Position.after v) : u = v := by
  obtain ⟨w, rfl⟩ := h
  rw [Position.after_append] at hafter
  have hnil : w.length = 0 := by
    have := Position.foldl_advance w (Position.after u)
    rw [← hafter] at this
    omega
  rw [List.length_eq_zero_iff.mp hnil, List.append_nil]

end Text

namespace Grammar

/-- Layout before a text that starts with no newline is layout by itself. -/
theorem layout_of_stray {z r : List Char} (hr : r.head? ≠ some '\n') (h : Layout (z ++ r) r) :
    Layout z [] := by
  generalize hs : z ++ r = s at h
  induction h generalizing z with
  | none s =>
    have hz : z = [] := List.append_left_eq_self.mp hs
    exact hz ▸ .none []
  | @space c s r hc hrest ih =>
    cases z with
    | nil =>
      -- layout does not lead from behind a place back to it
      have hlength := (suffix_of_layout hrest).length_le
      obtain rfl : r = c :: s := hs
      rw [List.length_cons] at hlength
      omega
    | cons d z =>
      obtain ⟨rfl, htail⟩ := List.cons.inj hs
      exact .space hc (ih hr htail)
  | @comment body s r hbody hend hrest ih =>
    obtain ⟨x, rfl⟩ := suffix_of_layout hrest
    have hsplit : z ++ r = '/' :: '/' :: (body ++ x) ++ r := by simpa using hs
    obtain rfl := List.append_cancel_right hsplit
    refine .comment hbody ?_ (ih hr rfl)
    cases x with
    | nil => exact .text
    | cons d x =>
      generalize hline : d :: x ++ r = line at hend
      cases hend with
      | text => cases hline
      | newline =>
        obtain ⟨rfl, -⟩ := List.cons.inj hline
        exact .newline x
      | crlf s =>
        obtain ⟨rfl, htail⟩ := List.cons.inj hline
        cases x with
        | nil =>
          obtain rfl : r = '\n' :: s := htail
          exact absurd rfl hr
        | cons e x =>
          obtain ⟨rfl, -⟩ := List.cons.inj htail
          exact .crlf x

end Grammar

namespace Parser

variable {α : Type}

/-- A repetition ends with a miss. -/
theorem miss_of_many {p : Parser α} (hp : Advances p) {s r : List Char} {as : List α}
    (h : many p s = .ok as r) : ∃ t, p r = .miss t := by
  induction as generalizing s with
  | nil =>
    rcases many_eq_ok_cases hp h with ⟨hmiss, -, rfl⟩ | ⟨_, _, _, -, -, hcons⟩
    · exact hmiss
    · cases hcons
  | cons a as ih =>
    rcases many_eq_ok_cases hp h with ⟨-, hnil, -⟩ | ⟨_, _, t, -, hrest, hcons⟩
    · cases hnil
    · cases hcons
      exact ih hrest

/-- Where the keyword of a definition stands, a definition does not miss. -/
theorem definition_ne_miss {k : Keyword} (hk : k = .function ∨ k = .global) {s r : List Char}
    (h : Word k s r) (t : List Char) : definition s ≠ .miss t := by
  have hok := keyword_eq_ok_iff.mpr h
  rcases hk with rfl | rfl
  · have hfunction : ∀ t, function s ≠ .miss t := bind_committed_ne_miss hok
    rw [definition, orElse_of_ne_miss hfunction]
    exact hfunction t
  · obtain ⟨u, hu⟩ := keyword_bind_miss (fun _ => _)
      fun v (hv : Word .function s v) => absurd (hv.keyword_eq h) (by decide)
    intro hmiss
    exact bind_committed_ne_miss hok t ((orElse_miss hu).symm.trans hmiss)

/-- Something else than a definition is reported only where definitions and layout end. -/
theorem definitions_of_notADefinition {source : List Char} {position : Position}
    (h : Program.parse source = .error (.notADefinition position)) :
    ∃ u t r ds, source = u ++ r ∧ position = Position.after u ∧
      many definition source = .ok ds t ∧ skip t = r ∧ r ≠ [] := by
  unfold Program.parse readAll at h
  split at h
  · cases h
  · next p r hne hok =>
    obtain ⟨u, rfl⟩ := program_trims.ok hok
    obtain ⟨ds, t, hds, hrest⟩ := bind_eq_ok_iff.mp hok
    obtain ⟨_, s, hlayout, hpure⟩ := bind_eq_ok_iff.mp hrest
    obtain ⟨-, rfl⟩ := pure_eq_ok_iff.mp hpure
    have hposition := ParseError.notADefinition.inj (Except.error.inj h)
    rw [Position.ofRest_append] at hposition
    exact ⟨u, t, s, ds, rfl, hposition.symm, hds, (Reply.ok.inj hlayout).2, fun hnil => hne (hnil ▸ rfl)⟩
  · cases h
  · next fault r _ => cases fault <;> cases h

/-- A text that is refused for something else than a definition splits at the place of the error. What
is before it holds a program, made of the definitions that were read from the whole text before the
error; and what is after it starts with neither of the keywords of definitions as a whole word. -/
theorem program_before_stray_text {source : List Char} {position : Position}
    (h : Program.parse source = .error (.notADefinition position)) :
    (∃ u r, source = u ++ r ∧ position = Position.after u) ∧
    ∀ u r, source = u ++ r → position = Position.after u →
      (∃ p t, Program.parse u = .ok p ∧ many definition source = .ok p.definitions t ∧ skip t = r) ∧
      ∀ word ∈ ["define", "global"], ∀ v, r = word.toList ++ v → ∃ c ∈ v.head?, isNameChar c := by
  obtain ⟨x, t, s, ds, hsource, hposition, hds, hskip, hne⟩ := definitions_of_notADefinition h
  refine ⟨⟨x, s, hsource, hposition⟩, fun u r hsplit hafter => ?_⟩
  obtain ⟨rfl, rfl⟩ : x = u ∧ s = r := by
    have hu : x = u := by
      have hstart : x <+: source := ⟨s, hsource.symm⟩
      have hstart' : u <+: source := ⟨r, hsplit.symm⟩
      rcases List.prefix_or_prefix_of_prefix hstart hstart' with hle | hle
      · exact Position.after_injective_of_prefix hle (hposition.symm.trans hafter)
      · exact (Position.after_injective_of_prefix hle (hafter.symm.trans hposition)).symm
    subst hu
    exact ⟨rfl, List.append_cancel_left (hsource.symm.trans hsplit)⟩
  subst hsource
  have hstop : AfterLayout t s := afterLayout_iff.mpr hskip
  constructor
  · -- the definitions are over before the stray text and before the end of the text
    obtain ⟨z, rfl⟩ := suffix_of_layout hstop.1
    have hnewline : s.head? ≠ some '\n' := by
      intro heq
      obtain ⟨v, rfl⟩ := List.head?_eq_some_iff.mp heq
      have := hstop.2 v (.space (by decide) (.none v))
      exact List.cons_ne_self '\n' v this.symm
    have hz : skip z = [] := skip_eq_of_layout (layout_of_stray hnewline hstop.1)
    have hcut : many definition (x ++ []) = .ok ds (z ++ []) :=
      (definitions_local apart_nil).keeps (Nat.lt_succ_self x.length)
        (by rwa [List.append_nil]) hds
    rw [List.append_nil, List.append_nil] at hcut
    have hlayout : layout z = .ok () [] := congrArg (Reply.ok ()) hz
    refine ⟨⟨ds⟩, z ++ s, readAll_eq_ok_iff.mpr ?_, hds, hskip⟩
    exact (bind_ok hcut).trans (bind_ok hlayout)
  · intro word hword v hv
    by_contra hnone
    push Not at hnone
    obtain ⟨m, hm⟩ := miss_of_many definition_advances hds
    have hkeyword : ∃ k : Keyword, (k = .function ∨ k = .global) ∧ k.letters = word.toList := by
      rcases List.mem_pair.mp hword with rfl | rfl
      · exact ⟨.function, .inl rfl, rfl⟩
      · exact ⟨.global, .inr rfl, rfl⟩
    obtain ⟨k, hk, hletters⟩ := hkeyword
    have hstands : Word k t v := by
      refine ⟨?_, fun c hc => by simpa using hnone c hc⟩
      rw [hletters, ← hv]
      exact hstop
    exact definition_ne_miss hk hstands m hm

/-- A conditional without a second branch is over before a word that only starts like `else`, and before
the end of the text. -/
theorem program_before_stray_text_after_conditional :
    let u := "define f(a) \x7b a (1) -2 \x7d global x = if f(0) < 1 \x7b y = x \x7d\n// else\n ".toList
    let r := "elsewhere == 3".toList
    let p : Program := ⟨[
      .function ⟨"f", ["a"], [.var "a", .binary .subtract (.int 1) (.int 2)]⟩,
      .global "x" (.ifThen (.binary .lessThan (.call "f" [.int 0]) (.int 1)) [.assign "y" (.var "x")])]⟩
    Program.parse (u ++ r) = .error (.notADefinition ⟨3, 2⟩) ∧ Program.parse u = .ok p ∧
      ∃ t, many definition (u ++ r) = .ok p.definitions t ∧ skip t = r := by
  intro u r p
  have h : Program.parse (u ++ r) = .error (.notADefinition ⟨3, 2⟩) := by decide +kernel
  have hposition : (⟨3, 2⟩ : Position) = Position.after u := by decide +kernel
  have hu : Program.parse u = .ok p := by decide +kernel
  obtain ⟨⟨q, t, hq, hds, ht⟩, -⟩ := (program_before_stray_text h).2 u r rfl hposition
  obtain rfl : q = p := Except.ok.inj (hq.symm.trans hu)
  exact ⟨h, hu, t, hds, ht⟩

end Parser

end Scriptlet
