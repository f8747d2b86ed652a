import Scriptlet.Proofs.Errors.Unread
import Scriptlet.Proofs.Locality.Plugging

/-!
# Texts that only have to go on

A parser that gives up at the end of its text may have been given too little: `Completable K p s` says
that some text after `s` lets `p` succeed, whatever text of the context `K` comes later. A parser is
`Open` if this is so wherever it gives up at the end, and `OpenFail` if it is so wherever it fails there.

A parser that comes before the one which gave up has to read the same before the text that is appended:
this is what `Scriptlet.Proofs.Locality` is about. The appended text starts with a newline, so that it
neither goes on with a word nor is part of a comment.

* `Open.bind`: a sequence is open if its parts are, and if the second one can be ended by some text
  (`Ended`) once the first one is complete.
* `Repeats.open_many`: a repetition is open if its rounds fail openly. That an earlier round is over before
  what is appended follows from the round after it.
-/

namespace Scriptlet

open Scriptlet.Text
open Scriptlet.Grammar

namespace Parser

variable {α β : Type}

/-! ### Texts that can be completed -/

/-- With some text after it, and then any text of a context, a text is read up to the latter. -/
def Completable (K : List Char → Prop) (p : Parser α) (s : List Char) : Prop :=
  ∃ t, ∀ w, K w → ∃ a, p (s ++ '\n' :: (t ++ w)) = .ok a w

/-- On fewer than `n` characters, a parser that gives up at the end can be completed. -/
def Open (n : Nat) (K : List Char → Prop) (p : Parser α) : Prop :=
  ∀ s, s.length < n → Refuses p s [] → Completable K p s

/-- On fewer than `n` characters, a parser that fails at the end can be completed. -/
def OpenFail (n : Nat) (K : List Char → Prop) (p : Parser α) : Prop :=
  ∀ s, s.length < n → p s = .fail .unexpected [] → Completable K p s

/-- Some text is read to its end by what follows a parser, whatever the parser has read, and this parser
may be followed by it. -/
def Ended (J K : List Char → Prop) (f : α → Parser β) : Prop :=
  ∃ t, ∀ w, K w → J (t ++ w) ∧ ∀ a, ∃ b, f a (t ++ w) = .ok b w

/-- What may follow an expression that is completed: it starts with a space and stops the expression. -/
structure Detached (w : List Char) : Prop where
  apart : Apart w
  stops : Stops w

/-- The end of a text may follow. -/
theorem detached_nil : Detached [] :=
  ⟨apart_nil, stops_of_layout rfl⟩

/-- A character that closes a construct or separates its parts, in a line of its own. -/
theorem detached_closer {c : Char} (hc : c ∈ closers) (w : List Char) : Detached ('\n' :: c :: w) := by
  obtain ⟨hspace, hslash⟩ := not_layout_of_closer hc
  have hafter := afterLayout_newline (afterLayout_cons hspace hslash w)
  exact ⟨apart_newline _, stops_of_closer (first_of_afterLayout hafter) hc⟩

/-- What is completed before a context is so before a narrower one. -/
theorem Completable.mono {p : Parser α} {s : List Char} {J K : List Char → Prop}
    (h : Completable J p s) (hKJ : ∀ {w}, K w → J w) : Completable K p s := by
  obtain ⟨t, ht⟩ := h
  exact ⟨t, fun w hw => ht w (hKJ hw)⟩

/-- What is completed for one parser is so for another, which succeeds where the first one does. -/
theorem Completable.of_ok {p : Parser α} {q : Parser β} {s : List Char} {K : List Char → Prop}
    (h : Completable K p s) (hpq : ∀ {u a r}, p u = .ok a r → ∃ b, q u = .ok b r) :
    Completable K q s := by
  obtain ⟨t, ht⟩ := h
  refine ⟨t, fun w hw => ?_⟩
  obtain ⟨a, ha⟩ := ht w hw
  exact hpq ha

/-- After a parser that reads the same before what is appended, what is left is completed. -/
theorem Completable.bind_of_ok {p : Parser α} {f : α → Parser β} {s r : List Char} {a : α}
    {K : List Char → Prop} (h : Completable K (f a) r)
    (hp : ∀ {w b z}, Apart w → f a (r ++ w) = .ok b z → p (s ++ w) = .ok a (r ++ w)) :
    Completable K (p >>= f) s := by
  obtain ⟨t, ht⟩ := h
  refine ⟨t, fun w hw => ?_⟩
  obtain ⟨b, hb⟩ := ht w hw
  exact ⟨b, (bind_ok (hp (apart_newline _) hb)).trans hb⟩

/-- After a parser that is completed, what follows is ended. -/
theorem Completable.bind {p : Parser α} {f : α → Parser β} {s : List Char} {J K : List Char → Prop}
    (h : Completable J p s) (hf : Ended J K f) : Completable K (p >>= f) s := by
  obtain ⟨t, ht⟩ := h
  obtain ⟨u, hu⟩ := hf
  refine ⟨t ++ u, fun w hw => ?_⟩
  obtain ⟨hJ, hread⟩ := hu w hw
  obtain ⟨a, ha⟩ := ht (u ++ w) hJ
  obtain ⟨b, hb⟩ := hread a
  rw [List.append_assoc]
  exact ⟨b, (bind_ok ha).trans hb⟩

/-! ### Sequences and choices -/

variable {n : Nat} {J K : List Char → Prop} {p : Parser α} {Q : List Char → List Char → Prop}

/-- A parser that is open before a context is so before a narrower one. -/
theorem Open.mono (h : Open n J p) (hKJ : ∀ {w}, K w → J w) : Open n K p :=
  fun s hs hr => (h s hs hr).mono hKJ

/-- A parser that fails openly before a context does so before a narrower one. -/
theorem OpenFail.mono (h : OpenFail n J p) (hKJ : ∀ {w}, K w → J w) : OpenFail n K p :=
  fun s hs hr => (h s hs hr).mono hKJ

/-- A parser that is open on texts up to a length is so on the shorter ones. -/
theorem Open.of_le {m : Nat} (h : Open n K p) (hm : m ≤ n) : Open m K p :=
  fun s hs => h s (Nat.lt_of_lt_of_le hs hm)

/-- A parser that fails openly on texts up to a length does so on the shorter ones. -/
theorem OpenFail.of_le {m : Nat} (h : OpenFail n K p) (hm : m ≤ n) : OpenFail m K p :=
  fun s hs => h s (Nat.lt_of_lt_of_le hs hm)

/-- What is open fails openly. -/
theorem Open.openFail (h : Open n K p) : OpenFail n K p :=
  fun s hs hr => h s hs (.inr hr)

/-- What reads nothing never gives up. -/
theorem Open.pure (a : α) : Open n K (pure a : Parser α) :=
  fun s _ hr => by rcases hr with hr | hr <;> cases hr

/-- What is committed to gives up where the parser does, which is open there. -/
theorem Open.committed (h : Open n K p) : Open n K (committed p) := by
  intro s hs hr
  have hrefuses : Refuses p s [] := by
    rcases hr with hmiss | hfail
    · exact absurd hmiss (committed_ne_miss p s [])
    · exact refuses_of_committed hfail
  exact (h s hs hrefuses).of_ok fun hok => ⟨_, committed_ok hok⟩

/-- What gives up after its first part was complete, or with it. -/
theorem refuses_bind {f : α → Parser β} {s r : List Char} (h : Refuses (p >>= f) s r) :
    Refuses p s r ∨ ∃ a t, p s = .ok a t ∧ Refuses (f a) t r := by
  rcases h with h | h
  · rcases bind_eq_miss_iff.mp h with h | ⟨a, t, ha, h⟩
    · exact .inl (.inl h)
    · exact .inr ⟨a, t, ha, .inl h⟩
  · rcases bind_eq_fail_iff.mp h with h | ⟨a, t, ha, h⟩
    · exact .inl (.inr h)
    · exact .inr ⟨a, t, ha, .inr h⟩

/-- A sequence is open if its parts are, the second one can be ended, and the first one is over before
whatever the second one reads. -/
theorem Open.bind {f : α → Parser β} (hp : Open n J p) (hf : ∀ a, Open n K (f a))
    (hend : Ended J K f) (before : ∀ {w}, Apart w → LocalBelow [] w n (Q w) p)
    (hover : ∀ {w r a b z}, Apart w → f a (r ++ w) = .ok b z → Q w r) : Open n K (p >>= f) := by
  intro s hs hr
  rcases refuses_bind hr with hr | ⟨a, t, ha, hr⟩
  · exact (hp s hs hr).bind hend
  · have hle := (before apart_nil).trims.length_le ha
    refine (hf a t (Nat.lt_of_le_of_lt hle hs) hr).bind_of_ok fun hw hb => ?_
    exact (before hw).keeps hs (hover hw hb) (by simpa using ha)

/-- A sequence is open if its parts are and the first one is over wherever it is read. -/
theorem Open.bind_anywhere {f : α → Parser β} (hp : Open n J p) (hf : ∀ a, Open n K (f a))
    (hend : Ended J K f) (before : ∀ {w}, Apart w → LocalBelow [] w n Anywhere p) :
    Open n K (p >>= f) :=
  hp.bind hf hend before fun _ _ => trivial

/-- What follows a parser without ever giving up leaves it open. -/
theorem Open.bind_total {f : α → Parser β} (hp : Open n J p) (hf : ∀ a s, ∃ b r, f a s = .ok b r)
    (hend : Ended J K f) : Open n K (p >>= f) := by
  intro s hs hr
  rcases refuses_bind hr with hr | ⟨a, t, -, hr⟩
  · exact (hp s hs hr).bind hend
  · obtain ⟨b, r, hb⟩ := hf a t
    rcases hr with hr | hr <;> rw [hb] at hr <;> cases hr

/-- What gives a result at once is ended by nothing. -/
theorem Ended.pure (f : α → β) : Ended K K fun a => (pure (f a) : Parser β) :=
  ⟨[], fun _ hw => ⟨hw, fun a => ⟨f a, rfl⟩⟩⟩

/-- A change of the result leaves a parser open. -/
theorem Open.bind_pure (hp : Open n K p) (f : α → β) :
    Open n K (p >>= fun a => Pure.pure (f a)) :=
  hp.bind_total (fun a s => ⟨f a, s, rfl⟩) (Ended.pure f)

/-- After a parser that never fails and advances, a failure is open on longer texts. -/
theorem OpenFail.bind_succ {f : α → Parser β} (hp : NeverFails p) (ha : Advances p)
    (hf : ∀ a, OpenFail n K (f a))
    (before : ∀ {w}, Apart w → LocalBelow [] w (n + 1) Anywhere p) : OpenFail (n + 1) K (p >>= f) := by
  intro s hs hr
  rcases bind_eq_fail_iff.mp hr with hr | ⟨a, t, h, hr⟩
  · exact absurd hr (hp _ _ _)
  · have hlt := ha.shorter h
    refine (hf a t (by omega) hr).bind_of_ok fun hw _ => ?_
    exact (before hw).keeps hs trivial (by simpa using h)

/-- What may be left out gives up where it fails, and only there. -/
theorem Open.optional (h : OpenFail n K p) : Open n K (optional p) := by
  intro s hs hr
  rcases hr with hmiss | hfail
  · exact absurd hmiss (optional_ne_miss p s [])
  · exact (h s hs (optional_eq_fail_iff.mp hfail)).of_ok fun hok => ⟨_, optional_ok hok⟩

/-! ### Tokens -/

/-- Layout at the end of a text goes on through a newline. -/
theorem skip_newline {s : List Char} (h : skip s = []) (v : List Char) :
    skip (s ++ '\n' :: v) = skip v :=
  skip_eq_of_layout (layout_newline (h ▸ layout_skip s) v)

/-- What misses at the end only after layout is open if it fails openly and some text completes it. -/
theorem OpenFail.open_of_start (h : OpenFail n K p) (hlayout : IgnoresLayout p)
    (hmiss : ∀ {s}, p s = .miss [] → skip s = [])
    (hstart : ∃ t, ∀ w, K w → ∃ a, p (t ++ w) = .ok a w) : Open n K p := by
  intro s hs hr
  rcases hr with hr | hr
  · obtain ⟨t, ht⟩ := hstart
    refine ⟨t, fun w hw => ?_⟩
    rw [← hlayout, skip_newline (hmiss hr), hlayout]
    exact ht w hw
  · exact h s hs hr

/-- A parser that never fails fails openly. -/
theorem OpenFail.of_neverFails (h : NeverFails p) : OpenFail n K p :=
  fun s _ hr => absurd hr (h s _ _)

/-- A token of one character is completed by it. -/
theorem token_open {text : String} {c : Char} (ht : text.toList = [c]) (hspace : isSpace c = false)
    (hslash : c ≠ '/') : Open n Anywhere (token text) :=
  (OpenFail.of_neverFails (token_neverFails text)).open_of_start (layout_bind_ignoresLayout _)
    token_eq_miss ⟨[c], fun w _ => ⟨(), token_cons ht hspace hslash w⟩⟩

/-- A missing name can be put there, if nothing goes on with it. -/
theorem identifier_open : Open n Apart identifier := by
  refine (OpenFail.of_neverFails identifier_neverFails).open_of_start (layout_bind_ignoresLayout _)
    identifier_eq_miss ⟨"f".toList, fun w hw => ⟨"f", identifier_eq_ok_iff.mpr ?_⟩⟩
  have hend : EndsWord w := hw.endsWord (z := []) (w := []) nofun
  exact name_text (by decide) (afterLayout_cons (by decide) (by decide) w) hend

/-- A missing equals sign can be put there, if no other one follows. -/
theorem assignSign_open : Open n Apart assignSign := by
  have hmiss : ∀ {s}, assignSign s = .miss [] → skip s = [] := by
    intro s h
    rcases bind_eq_miss_iff.mp h with h | ⟨_, t, -, h⟩
    · exact token_eq_miss h
    · obtain ⟨rfl, c, hc, -⟩ := unlessNext_eq_miss h
      cases hc
  refine (OpenFail.of_neverFails assignSign_neverFails).open_of_start
    ((layout_bind_ignoresLayout _).bind _) hmiss
    ⟨"=".toList, fun w hw => ⟨(), assignSign_eq_ok_iff.mpr ⟨?_, ?_⟩⟩⟩
  · exact afterLayout_cons (by decide) (by decide) w
  · exact hw.head?_ne (z := []) (w := []) (by decide) (by simp)

/-! ### Repetitions -/

/-- What is known of the rounds of a repetition that can be completed: they fail openly, they are read
alike before what is appended, an earlier one is over before a later one, and none is read from a text
of the context. -/
structure Repeats (n : Nat) (K : List Char → Prop) (Q : List Char → List Char → Prop)
    (q : Parser β) : Prop where
  advances : Advances q
  openFail : OpenFail n K q
  before : ∀ {w}, Apart w → LocalBelow [] w n (Q w) q
  overBefore : ∀ {w y b z}, Apart w → (∀ t, q y ≠ .miss t) → q (y ++ w) = .ok b z → Q w y
  ends : ∀ {w}, K w → ∃ t, q w = .miss t

namespace Repeats

variable {q : Parser β}

/-- A repetition that fails at the end can be completed, beginning with a round, and the first of its
rounds did not miss. -/
theorem exists_rounds (hq : Repeats n K Q q) {s : List Char} (hs : s.length < n)
    (h : many q s = .fail .unexpected []) :
    (∀ t, q s ≠ .miss t) ∧
      ∃ t, ∀ w, K w → ∃ b bs v, q (s ++ '\n' :: (t ++ w)) = .ok b v ∧ many q v = .ok bs w := by
  induction hlen : s.length using Nat.strong_induction_on generalizing s with
  | _ m ih =>
    cases hround : q s with
    | miss r =>
      rw [many_miss hround] at h
      cases h
    | fail fault r =>
      rw [many_fail hround] at h
      cases h
      obtain ⟨t, ht⟩ := hq.openFail s hs hround
      refine ⟨nofun, t, fun w hw => ?_⟩
      obtain ⟨b, hb⟩ := ht w hw
      obtain ⟨u, hu⟩ := hq.ends hw
      exact ⟨b, [], w, hb, many_miss hu⟩
    | ok a r =>
      have hlt := hq.advances.shorter hround
      have hrest : many q r = .fail .unexpected [] := by
        cases hr : many q r with
        | ok as v =>
          rw [many_ok hq.advances hround hr] at h
          cases h
        | miss v => exact absurd hr (manyWithin_ne_miss _ q r v)
        | fail fault v =>
          rw [many_ok_fail hq.advances hround hr] at h
          cases h
          rfl
      obtain ⟨hne, t, ht⟩ := ih r.length (by omega) (by omega) hrest rfl
      refine ⟨nofun, t, fun w hw => ?_⟩
      obtain ⟨b, bs, v, hb, hbs⟩ := ht w hw
      -- the round that was read is over before the added text, since the next one does not miss
      have hover := hq.overBefore (apart_newline (t ++ w)) hne hb
      have hok := (hq.before (apart_newline (t ++ w))).keeps hs hover (by simpa using hround)
      exact ⟨a, b :: bs, _, hok, many_ok hq.advances hb hbs⟩

/-- A repetition is open if its rounds are such. -/
theorem open_many (hq : Repeats n K Q q) : Open n K (many q) := by
  intro s hs hr
  rcases hr with hmiss | hfail
  · exact absurd hmiss (manyWithin_ne_miss _ q s [])
  · obtain ⟨-, t, ht⟩ := hq.exists_rounds hs hfail
    refine ⟨t, fun w hw => ?_⟩
    obtain ⟨b, bs, v, hb, hbs⟩ := ht w hw
    exact ⟨b :: bs, many_ok hq.advances hb hbs⟩

/-- A repetition after a first part, which is over before a round, is open if the part is. -/
theorem open_after {γ : Type} (hq : Repeats n K Q q) (hp : Open n K p)
    (before : ∀ {w}, Apart w → LocalBelow [] w n (Q w) p) (g : α → List β → γ) :
    Open n K (do let a ← p; let bs ← many q; return g a bs) := by
  intro s hs hr
  rcases refuses_bind hr with hr | ⟨a, r, ha, hr⟩
  · refine (hp s hs hr).bind ⟨[], fun w hw => ⟨hw, fun a => ?_⟩⟩
    obtain ⟨u, hu⟩ := hq.ends hw
    exact ⟨g a [], bind_ok (many_miss hu)⟩
  · have hle := (before apart_nil).trims.length_le ha
    have hfail : many q r = .fail .unexpected [] := by
      rcases refuses_bind hr with (hmiss | hfail) | ⟨bs, v, -, hpure⟩
      · exact absurd hmiss (manyWithin_ne_miss _ q r [])
      · exact hfail
      · rcases hpure with hpure | hpure <;> cases hpure
    obtain ⟨hne, t, ht⟩ := hq.exists_rounds (Nat.lt_of_le_of_lt hle hs) hfail
    refine ⟨t, fun w hw => ?_⟩
    obtain ⟨b, bs, v, hb, hbs⟩ := ht w hw
    have hover := hq.overBefore (apart_newline (t ++ w)) hne hb
    have hok := (before (apart_newline (t ++ w))).keeps hs hover (by simpa using ha)
    exact ⟨g a (b :: bs), (bind_ok hok).trans (bind_ok (many_ok hq.advances hb hbs))⟩

end Repeats

end Parser

end Scriptlet
