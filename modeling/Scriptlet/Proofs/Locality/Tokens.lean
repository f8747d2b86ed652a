import Scriptlet.Proofs.Grammar.Follow
import Scriptlet.Proofs.Layout.Padding

/-!
# Reading before one text and before another

A parser that succeeds has looked at more than it has read: it has followed layout to its end, seen
that no word goes on, tried operators and a second branch and taken them back. Here are two texts `w`
and `w'`, and what a parser reads before `w` is compared with what it reads before `w'`. The second
text starts with a space, if with anything (`Apart`), so that no token of the first runs on into it.

* `skip_replace`: layout that ends before `w` ends at the same place before `w'`.
* `LocalBelow w w' n Q p`: on the last `n` characters before the text, whatever `p` reads before `w`
  it reads before `w'`, if what it leaves satisfies `Q`. There is a lemma for each combinator.
* `token_local`, `keyword_local`, …: tokens are read alike whatever they leave.
-/

namespace Scriptlet

open Scriptlet.Text
open Scriptlet.Grammar

/-! ### Layout before another text -/

namespace Text

variable {w : List Char}

/-- Layout does not lead from the end of a text to an earlier place. -/
theorem skipFrom_ne_cons_append (inComment : Bool) (c : Char) (u : List Char) :
    skipFrom inComment w ≠ c :: (u ++ w) := by
  intro h
  have hlength := (skipFrom_suffix inComment w).length_le
  rw [h, List.length_cons, List.length_append] at hlength
  omega

/-- The line of a comment that ends before a text ends with a newline before it. -/
theorem newline_mem_of_skipFrom {y u : List Char} {c : Char} (hline : lineEnds (y ++ w))
    (h : skipFrom true (y ++ w) = c :: (u ++ w)) : '\n' ∈ y := by
  induction y with
  | nil => exact absurd h (skipFrom_ne_cons_append true c u)
  | cons d y ih =>
    by_cases hn : d = '\n'
    · exact hn ▸ List.mem_cons_self
    apply List.mem_cons_of_mem
    by_cases hr : d = '\r'
    · -- the newline after the carriage return is not the first character of the other text
      subst hr
      cases y with
      | nil => exact absurd h (skipFrom_ne_cons_append false c u)
      | cons e y =>
        have he : e = '\n' := by simpa [lineEnds] using hline
        exact he ▸ List.mem_cons_self
    · rw [List.cons_append, lineEnds, if_neg hn, if_neg hr] at hline
      rw [List.cons_append, skipFrom_true_cons hr hn] at h
      exact ih hline h

/-- A comment that ends before a text is one before any other text as well. -/
theorem opensComment_replace {y u : List Char} {c d : Char} (w' : List Char)
    (ho : opensComment (d :: (y ++ w))) (h : skipFrom true (y ++ w) = c :: (u ++ w)) :
    opensComment (d :: (y ++ w')) := by
  cases y with
  | nil => exact absurd h (skipFrom_ne_cons_append true c u)
  | cons e y =>
    obtain ⟨⟨rfl, rfl⟩, hline⟩ : (d = '/' ∧ e = '/') ∧ lineEnds (y ++ w) := by
      simpa [opensComment] using ho
    rw [List.cons_append, skipFrom_true_cons (by decide) (by decide)] at h
    have hmem := newline_mem_of_skipFrom hline h
    rw [lineEnds_append_of_mem hmem] at hline
    simpa [opensComment, lineEnds_append_of_mem hmem] using hline

/-- Layout, or a comment and layout, that ends before a text ends at the same place before any other
text. -/
theorem skipFrom_replace {inComment : Bool} {y u w' : List Char} {c : Char}
    (hc : opensComment (c :: (u ++ w')) = false)
    (h : skipFrom inComment (y ++ w) = c :: (u ++ w)) :
    skipFrom inComment (y ++ w') = c :: (u ++ w') := by
  induction y generalizing inComment with
  | nil => exact absurd h (skipFrom_ne_cons_append inComment c u)
  | cons d y ih =>
    rw [List.cons_append, skipFrom] at h ⊢
    cases inComment with
    | true => exact ih h
    | false =>
      rw [if_neg Bool.false_ne_true] at h ⊢
      by_cases hd : isSpace d
      · rw [if_pos hd] at h ⊢
        exact ih h
      rw [if_neg hd] at h ⊢
      by_cases ho : opensComment (d :: (y ++ w))
      · rw [if_pos ho] at h
        rw [if_pos (opensComment_replace w' ho h)]
        exact ih h
      · rw [if_neg ho] at h
        obtain ⟨rfl, huy⟩ := List.cons.inj h
        obtain rfl := List.append_cancel_right huy
        rw [if_neg (by simp [hc])]

/-- Layout that ends before a text, at a character which starts no comment, ends at the same place
before any other text. -/
theorem skip_replace {y u w' : List Char} {c : Char} (hc : opensComment (c :: (u ++ w')) = false)
    (h : skip (y ++ w) = c :: (u ++ w)) : skip (y ++ w') = c :: (u ++ w') :=
  skipFrom_replace hc h

/-- A comment starts with a slash. -/
theorem opensComment_of_ne {c : Char} (hc : c ≠ '/') (s : List Char) :
    opensComment (c :: s) = false := by
  cases s with
  | nil => rfl
  | cons d s => simp [opensComment, hc]

end Text

namespace Grammar

variable {w : List Char}

/-- Layout before a token that starts with no slash leads to the token whatever text comes later. -/
theorem AfterLayout.replace {y z cs : List Char} {c : Char} (hc : c ≠ '/')
    (h : AfterLayout (y ++ w) (c :: cs ++ (z ++ w))) (w' : List Char) :
    AfterLayout (y ++ w') (c :: cs ++ (z ++ w')) := by
  rw [afterLayout_iff, List.cons_append, ← List.append_assoc] at h ⊢
  exact skip_replace (opensComment_of_ne hc _) h

/-- A text that starts with a space, if with anything. -/
def Apart (w : List Char) : Prop :=
  ∀ c ∈ w.head?, isSpace c

/-- The empty text is apart. -/
theorem apart_nil : Apart [] :=
  nofun

/-- A text that starts with a newline is apart. -/
theorem apart_newline (s : List Char) : Apart ('\n' :: s) := by
  intro c hc
  obtain rfl : '\n' = c := Option.some.inj hc
  rfl

/-- What holds of the next character before a text, and of spaces, holds of the next character before
a text that starts with a space. -/
theorem Apart.forall_head? {w' : List Char} (hw : Apart w') {p : Char → Prop}
    (hp : ∀ c, isSpace c → p c) {z : List Char} (h : ∀ c ∈ (z ++ w).head?, p c) :
    ∀ c ∈ (z ++ w').head?, p c := by
  cases z with
  | nil => exact fun c hc => hp c (hw c hc)
  | cons c z => exact h

/-- A certain character that is no space is not the next one, if it was not before. -/
theorem Apart.head?_ne {w' : List Char} (hw : Apart w') {c : Char} (hc : isSpace c = false)
    {z : List Char} (h : (z ++ w).head? ≠ some c) : (z ++ w').head? ≠ some c := by
  have hne : ∀ d ∈ (z ++ w).head?, d ≠ c := fun d hd heq => h (heq ▸ hd)
  intro heq
  refine hw.forall_head? (p := (· ≠ c)) (fun d hd heq => ?_) hne c heq rfl
  rw [heq, hc] at hd
  cases hd

/-- Spaces belong to no word. -/
theorem Apart.endsWord {w' : List Char} (hw : Apart w') {z : List Char} (h : EndsWord (z ++ w)) :
    EndsWord (z ++ w') := by
  have hspace : ∀ c ∈ [' ', '\t', '\r', '\n'], ¬ isNameChar c := forall_mem_of_all (by decide)
  exact hw.forall_head? (fun c hc => hspace c (isSpace_iff.mp hc)) h

/-- Spaces are no digits. -/
theorem Apart.endsDigits {w' : List Char} (hw : Apart w') {z : List Char}
    (h : EndsDigits (z ++ w)) : EndsDigits (z ++ w') := by
  have hspace : ∀ c ∈ [' ', '\t', '\r', '\n'], ¬ c.isDigit := forall_mem_of_all (by decide)
  exact hw.forall_head? (fun c hc => hspace c (isSpace_iff.mp hc)) h

end Grammar

namespace Parser

variable {α β : Type} {w w' : List Char} {n : Nat} {Q Q₁ : List Char → Prop} {p : Parser α}

/-! ### Parsers before another text -/

/-- On fewer than `n` characters before a text, a parser reads before `w'` what it reads before `w`,
wherever what it leaves satisfies a condition. -/
structure LocalBelow (w w' : List Char) (n : Nat) (Q : List Char → Prop) (p : Parser α) : Prop where
  trims : Trims p
  keeps : ∀ {y z : List Char} {a : α}, y.length < n → Q z → p (y ++ w) = .ok a (z ++ w) →
    p (y ++ w') = .ok a (z ++ w')

/-- No condition. -/
def Anywhere (_ : List Char) : Prop :=
  True

/-- A parser that leaves a text before another one was given a text before it. -/
theorem Trims.exists_append {s z : List Char} {a : α} (hp : Trims p) (h : p s = .ok a (z ++ w)) :
    ∃ y, s = y ++ w := by
  obtain ⟨x, rfl⟩ := hp.ok h
  exact ⟨x ++ z, (List.append_assoc x z w).symm⟩

namespace LocalBelow

/-- What is read alike on texts up to a length is so on the shorter ones. -/
theorem mono {m : Nat} (h : LocalBelow w w' n Q p) (hm : m ≤ n) : LocalBelow w w' m Q p :=
  ⟨h.trims, fun hy => h.keeps (Nat.lt_of_lt_of_le hy hm)⟩

/-- Nothing is read alike. -/
theorem pure (a : α) : LocalBelow w w' n Q (pure a : Parser α) where
  trims := Trims.pure a
  keeps _ _ h := by
    obtain ⟨rfl, heq⟩ := pure_eq_ok_iff.mp h
    rw [List.append_cancel_right heq, pure_apply]

/-- What is committed to is read alike if the parser reads so. -/
theorem committed (h : LocalBelow w w' n Q p) : LocalBelow w w' n Q (committed p) where
  trims := h.trims.committed
  keeps hy hz hok := committed_ok (h.keeps hy hz (committed_eq_ok_iff.mp hok))

/-- A sequence is read alike if its parts are; what follows the first part has been read in both
places, from which its condition is to be derived. -/
theorem bind_of {f : α → Parser β} (hp : LocalBelow w w' n Q₁ p)
    (hf : ∀ a, LocalBelow w w' n Q (f a))
    (hQ : ∀ {a b y z}, Q z → f a (y ++ w) = .ok b (z ++ w) → f a (y ++ w') = .ok b (z ++ w') →
      Q₁ y) : LocalBelow w w' n Q (p >>= f) where
  trims := hp.trims.bind fun a => (hf a).trims
  keeps {y z b} hy hz h := by
    obtain ⟨a, t, hpt, hft⟩ := bind_eq_ok_iff.mp h
    obtain ⟨x, rfl⟩ := (hf a).trims.exists_append hft
    have hle := hp.trims.length_le hpt
    rw [List.length_append, List.length_append] at hle
    have hft' := (hf a).keeps (by omega) hz hft
    exact (bind_ok (hp.keeps hy (hQ hz hft hft') hpt)).trans hft'

/-- A sequence is read alike if its parts are, and the first one whatever it leaves. -/
theorem bind {f : α → Parser β} (hp : LocalBelow w w' n Anywhere p)
    (hf : ∀ a, LocalBelow w w' n Q (f a)) : LocalBelow w w' n Q (p >>= f) :=
  hp.bind_of hf fun _ _ _ => trivial

/-- After a parser that advances, there are fewer characters before the text. -/
theorem bind_succ {f : α → Parser β} (hp : LocalBelow w w' (n + 1) Anywhere p) (ha : Advances p)
    (hf : ∀ a, LocalBelow w w' n Q (f a)) : LocalBelow w w' (n + 1) Q (p >>= f) where
  trims := hp.trims.bind fun a => (hf a).trims
  keeps {y z b} hy hz h := by
    obtain ⟨a, t, hpt, hft⟩ := bind_eq_ok_iff.mp h
    obtain ⟨x, rfl⟩ := (hf a).trims.exists_append hft
    have hlt := ha.shorter hpt
    rw [List.length_append, List.length_append] at hlt
    exact (bind_ok (hp.keeps hy trivial hpt)).trans ((hf a).keeps (by omega) hz hft)

/-- What is made of a value that has been read leaves the same text. -/
theorem bind_pure (h : LocalBelow w w' n Q p) (f : α → β) :
    LocalBelow w w' n Q (p >>= fun a => Pure.pure (f a)) :=
  h.bind_of (fun a => .pure (f a)) fun hz hok _ => by
    obtain ⟨-, heq⟩ := pure_eq_ok_iff.mp hok
    rwa [List.append_cancel_right heq]

/-- A change of the result leaves the same text. -/
theorem map (h : LocalBelow w w' n Q p) (f : α → β) : LocalBelow w w' n Q (f <$> p) :=
  h.bind_pure f

/-- A part that is left out before one text is left out before the other, if it misses there. -/
theorem optional (h : LocalBelow w w' n Q p) (hmiss : ∀ z, Q z → ∃ t, p (z ++ w') = .miss t) :
    LocalBelow w w' n Q (optional p) where
  trims := h.trims.optional
  keeps {y z o} hy hz hok := by
    rcases optional_eq_ok_iff.mp hok with ⟨a, ha, rfl⟩ | ⟨-, rfl, heq⟩
    · exact optional_ok (h.keeps hy hz ha)
    · obtain rfl := List.append_cancel_right heq
      obtain ⟨t, ht⟩ := hmiss y hz
      exact optional_miss ht

/-- A repetition is read alike if its rounds are. What follows a round is the next one, which is read
in both places, or the end of the repetition. -/
theorem many (hp : LocalBelow w w' n Q₁ p) (ha : Advances p)
    (hmiss : ∀ z, Q z → (∃ t, p (z ++ w) = .miss t) → ∃ t, p (z ++ w') = .miss t)
    (hlast : ∀ z, Q z → Q₁ z)
    (hnext : ∀ {a y z}, p (y ++ w) = .ok a (z ++ w) → p (y ++ w') = .ok a (z ++ w') → Q₁ y) :
    LocalBelow w w' n Q (many p) where
  trims := hp.trims.many
  keeps {y z as} hy hz h := by
    -- the induction also says that a round may end where the others start
    suffices key : Parser.many p (y ++ w') = .ok as (z ++ w') ∧ Q₁ y from key.1
    induction as generalizing y with
    | nil =>
      rcases many_eq_ok_cases ha h with ⟨hend, -, heq⟩ | ⟨_, _, _, -, -, hcons⟩
      · obtain rfl := List.append_cancel_right heq
        obtain ⟨t, ht⟩ := hmiss y hz hend
        exact ⟨many_miss ht, hlast y hz⟩
      · cases hcons
    | cons a as ih =>
      rcases many_eq_ok_cases ha h with ⟨-, hnil, -⟩ | ⟨_, _, t, hround, hrest, hcons⟩
      · cases hnil
      · cases hcons
        obtain ⟨x, rfl⟩ := hp.trims.many.exists_append hrest
        have hlt := ha.shorter hround
        rw [List.length_append, List.length_append] at hlt
        obtain ⟨hrest', hQ⟩ := ih (by omega) hrest
        have hround' := hp.keeps hy hQ hround
        exact ⟨many_ok ha hround' hrest', hnext hround hround'⟩

end LocalBelow

/-! ### Tokens before another text -/

/-- Given letters are read alike before any two texts. -/
theorem literal_local (letters : List Char) : LocalBelow w w' n Q (literal letters) where
  trims := by
    cases letters with
    | nil => exact fun s => List.suffix_refl s
    | cons c cs => exact (literal_advances (List.cons_ne_nil c cs)).trims
  keeps {y z _} _ _ h := by
    have heq := literal_eq_ok_iff.mp h
    rw [← List.append_assoc] at heq
    rw [List.append_cancel_right heq]
    exact literal_eq_ok_iff.mpr (List.append_assoc letters z w')

/-- A token that starts with no slash. -/
theorem token_local {text : String} {c : Char} {cs : List Char} (ht : text.toList = c :: cs)
    (hc : c ≠ '/') : LocalBelow w w' n Q (token text) where
  trims := (token_advances (by simp [ht])).trims
  keeps _ _ h := by
    refine token_eq_ok_iff.mpr ?_
    have hsymbol := token_eq_ok_iff.mp h
    unfold Grammar.Symbol at hsymbol ⊢
    rw [ht] at hsymbol ⊢
    exact hsymbol.replace hc w'

section apart

variable (hw : Apart w')

include hw

/-- A keyword is read alike before a text that stands apart, which does not go on with its letters. -/
theorem keyword_local (k : Keyword) : LocalBelow w w' n Q (keyword k) where
  trims := (keyword_advances k).trims
  keeps _ _ h := by
    obtain ⟨hletters, hend⟩ := keyword_eq_ok_iff.mp h
    refine keyword_eq_ok_iff.mpr ⟨?_, hw.endsWord hend⟩
    obtain ⟨c, cs, hk, hc, -⟩ := letters_eq_cons k
    rw [hk] at hletters ⊢
    exact hletters.replace (not_layout_of_isNameStart hc).2 w'

/-- The sign of an assignment is read alike before a text that stands apart, which starts with no
equals sign. -/
theorem assignSign_local : LocalBelow w w' n Q assignSign where
  trims := assignSign_advances.trims
  keeps _ _ h := by
    obtain ⟨hsign, hend⟩ := assignSign_eq_ok_iff.mp h
    have hsign : AfterLayout _ (['='] ++ _) := hsign
    exact assignSign_eq_ok_iff.mpr ⟨hsign.replace (by decide) w', hw.head?_ne (by decide) hend⟩

/-- A name is read alike before a text that stands apart. -/
theorem identifier_local : LocalBelow w w' n Q identifier where
  trims := identifier_advances.trims
  keeps _ _ h := by
    obtain ⟨hletters, hx, hend⟩ := identifier_eq_ok_iff.mp h
    refine identifier_eq_ok_iff.mpr ⟨?_, hx, hw.endsWord hend⟩
    obtain ⟨c, cs, hcs, hc, -⟩ := isName_iff.mp hx
    rw [hcs] at hletters ⊢
    exact hletters.replace (not_layout_of_isNameStart hc).2 w'

/-- An integer is read alike before a text that stands apart, which starts with no digit. -/
theorem integer_local : LocalBelow w w' n Q integer where
  trims := integer_advances.trims
  keeps _ _ h := by
    refine integer_eq_ok_iff.mpr ?_
    cases integer_eq_ok_iff.mp h with
    | plain ht hdigits hv =>
      obtain ⟨rfl, hne, hall, hend⟩ := hdigits
      obtain ⟨d, ds, rfl⟩ := List.exists_cons_of_ne_nil hne
      have hslash := (not_layout_of_isDigit (hall d List.mem_cons_self)).2
      exact .plain (ht.replace hslash w') ⟨rfl, hne, hall, hw.endsDigits hend⟩ hv
    | negative ht hdigits hv =>
      obtain ⟨rfl, hne, hall, hend⟩ := hdigits
      exact .negative (ht.replace (by decide) w') ⟨rfl, hne, hall, hw.endsDigits hend⟩ hv

end apart

end Parser

end Scriptlet
