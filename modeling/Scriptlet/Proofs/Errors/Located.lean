import Scriptlet.Proofs.Layout.Padding

/-!
# Where a source text is wrong

An error in a source text is about an end part of the text: what was unread when the parser gave up,
for an unexpected word without the blank characters before it. What comes before that end part gives
the line and the column of the error, and what the error says is true of the end part
(`ParseError.Describes`).

That the unread text is an end part holds of every parser (`Trims`). An integer is said to be out of
range only where the literal of one stands (`FailsAtNumerals`), because no combinator changes the place
or the reason of such a failure.

* `Position.after_eq`: the line and the column after a text, counted.
* `errors_located`: every error in a source text is located.
-/

namespace Scriptlet

open Scriptlet.Text

namespace Text

/-! ### Lines, columns and words -/

/-- Lines are counted by newlines and columns by the characters after the last one, from one. -/
theorem Position.after_eq (u : List Char) :
    Position.after u = ⟨1 + u.count '\n', 1 + (lastLine u).length⟩ := by
  induction u using List.reverseRecOn with
  | nil => rfl
  | append_singleton u c ih =>
    by_cases hc : c = '\n'
    · subst hc
      have hline : lastLine (u ++ ['\n']) = [] := List.rtakeWhile_concat_neg _ _ _ (by decide)
      rw [Position.after_append_newline, ih, hline, List.count_append]
      rfl
    · have hline : lastLine (u ++ [c]) = lastLine u ++ [c] :=
        List.rtakeWhile_concat_pos _ _ _ (by simpa using hc)
      rw [Position.after_append_of_ne hc, ih, hline, List.count_append, List.length_append,
        List.count_singleton, if_neg (by simpa using hc)]
      rfl

/-- The longest start of a text that has a property. -/
structure LongestStart (P : List Char → Prop) (w s : List Char) : Prop where
  start : w <+: s
  holds : P w
  longest : ∀ t, t <+: s → P t → t <+: w

/-- The longest start without characters of another kind goes up to the first one. -/
theorem longestStart_takeWhile (p : Char → Bool) (s : List Char) :
    LongestStart (fun t => ∀ c ∈ t, p c) (s.takeWhile p) s where
  start := List.takeWhile_prefix p
  holds := fun _ hc => List.mem_takeWhile_imp hc
  longest := by
    rintro t ⟨r, rfl⟩ ht
    rw [List.takeWhile_append_of_pos ht]
    exact List.prefix_append t _

end Text

open Scriptlet.Grammar

/-! ### Integer literals -/

/-- A text of the form `-?[0-9]+`, and the integer that it stands for. -/
inductive IntegerText : List Char → Int → Prop where
  | plain {digits : List Char} :
      digits ≠ [] → (∀ d ∈ digits, d.isDigit) → IntegerText digits (natural digits)
  | negative {digits : List Char} :
      digits ≠ [] → (∀ d ∈ digits, d.isDigit) → IntegerText ('-' :: digits) (-natural digits)

namespace Parser

variable {α β : Type}

/-- Digits with a sign, or without one, are the text of the integer that they stand for. -/
theorem integerText_signed (negative : Bool) {t r digits : List Char} (h : Digits t r digits) :
    IntegerText (signed negative digits) (digitsValue negative digits) := by
  obtain ⟨-, hne, hdigits, -⟩ := h
  cases negative with
  | true => exact .negative hne hdigits
  | false => exact .plain hne hdigits

/-- An integer literal at the start of a text goes up to the last digit. -/
theorem longestStart_signed (negative : Bool) {t r digits : List Char} (h : Digits t r digits) :
    LongestStart (fun w => ∃ n, IntegerText w n) (signed negative digits) (signed negative t) where
  start := by
    obtain ⟨rfl, -⟩ := h
    cases negative with
    | true => exact List.cons_prefix_cons.mpr ⟨rfl, List.prefix_append digits r⟩
    | false => exact List.prefix_append digits r
  holds := ⟨_, integerText_signed negative h⟩
  longest := by
    have longest : ∀ w, w <+: t → (∀ d ∈ w, d.isDigit) → w <+: digits := by
      rw [(digits_iff.mp h).1]
      exact (longestStart_takeWhile Char.isDigit t).longest
    rintro w hw ⟨n, hn⟩
    -- a minus sign stands before both texts or before neither, since it is no digit
    cases negative with
    | true =>
      cases hn with
      | plain hne hall =>
        obtain ⟨d, ds, rfl⟩ := List.exists_cons_of_ne_nil hne
        have hd := hall d List.mem_cons_self
        rw [(List.cons_prefix_cons.mp hw).1] at hd
        exact absurd hd (by decide)
      | negative _ hall =>
        have htail := longest _ (List.cons_prefix_cons.mp hw).2 hall
        exact List.cons_prefix_cons.mpr ⟨rfl, htail⟩
    | false =>
      cases hn with
      | plain _ hall => exact longest w hw hall
      | negative _ _ =>
        obtain ⟨d, u, rfl, hd⟩ := h.cons
        rw [← (List.cons_prefix_cons.mp hw).1] at hd
        exact absurd hd (by decide)

/-- A literal of which a numeral says that it is out of range, is. -/
theorem integerAt_of_outOfRange {s rest : List Char} (h : numeral s = .fail .outOfRange rest) :
    rest = s ∧ LongestStart (fun w => ∃ n, IntegerText w n) (ParseError.integerAt s) s ∧
      ∃ n, IntegerText (ParseError.integerAt s) n ∧ ¬ Value.InRange n := by
  obtain ⟨negative, t, rfl, hm⟩ := exists_signed s
  by_cases hd : ∀ c ∈ t.head?, ¬ c.isDigit
  · rw [numeral_signed_miss hm hd] at h
    cases h
  · have hdigits := digits_of_head? hd
    have hat : ParseError.integerAt (signed negative t) = signed negative (t.takeWhile Char.isDigit) := by
      cases negative with
      | true => rfl
      | false =>
        obtain ⟨d, u, rfl, -⟩ := hdigits.cons
        exact if_neg fun heq => hm rfl (congrArg some heq)
    rw [numeral_signed hdigits] at h
    split at h
    · cases h
    · next hnone =>
      cases h
      rw [hat]
      refine ⟨rfl, longestStart_signed negative hdigits, _, integerText_signed negative hdigits, ?_⟩
      exact Value.ofInt?_eq_none_iff.mp hnone

/-! ### Failures at numerals -/

/-- Where a parser says that an integer is out of range, the literal of one stands. -/
def FailsAtNumerals (p : Parser α) : Prop :=
  ∀ s rest, p s = .fail .outOfRange rest → numeral rest = .fail .outOfRange rest

namespace FailsAtNumerals

variable {p q : Parser α}

/-- A parser that never fails has no failure to look at. -/
theorem of_neverFails (hp : NeverFails p) : FailsAtNumerals p :=
  fun s rest h => absurd h (hp s _ rest)

/-- A sequence fails where one of its parts does. -/
theorem bind {f : α → Parser β} (hp : FailsAtNumerals p) (hf : ∀ a, FailsAtNumerals (f a)) :
    FailsAtNumerals (p >>= f) := by
  intro s rest h
  cases hs : p s with
  | ok a t =>
    rw [bind_ok hs] at h
    exact hf a t rest h
  | miss t =>
    rw [bind_miss hs] at h
    cases h
  | fail fault t =>
    rw [bind_fail hs] at h
    cases h
    exact hp s rest hs

/-- A choice fails where one of its alternatives does. -/
theorem orElse (hp : FailsAtNumerals p) (hq : FailsAtNumerals q) : FailsAtNumerals (p <|> q) := by
  intro s rest h
  cases hs : p s with
  | ok a t =>
    rw [orElse_ok hs] at h
    cases h
  | miss t =>
    rw [orElse_miss hs] at h
    exact hq s rest h
  | fail fault t =>
    rw [orElse_fail hs] at h
    cases h
    exact hp s rest hs

/-- A miss that becomes a failure has another reason. -/
theorem committed (hp : FailsAtNumerals p) : FailsAtNumerals (committed p) := by
  intro s rest h
  cases hs : p s with
  | ok a t =>
    rw [committed_ok hs] at h
    cases h
  | miss t =>
    rw [committed_miss hs] at h
    cases h
  | fail fault t =>
    rw [committed_fail hs] at h
    cases h
    exact hp s rest hs

/-- A look ahead fails where the parser does. -/
theorem ahead (hp : FailsAtNumerals p) : FailsAtNumerals (ahead p) := by
  intro s rest h
  unfold Parser.ahead at h
  split at h
  · cases h
  · cases h
  · next hs =>
    cases h
    exact hp s rest hs

/-- A repetition fails where one of its rounds does. -/
theorem manyWithin (hp : FailsAtNumerals p) (rounds : Nat) :
    FailsAtNumerals (manyWithin rounds p) := by
  induction rounds with
  | zero => exact fun _ _ => nofun
  | succ rounds ih =>
    have hpure : ∀ as : List α, FailsAtNumerals (pure as : Parser (List α)) := fun as =>
      of_neverFails (.pure as)
    exact (hp.bind fun a => ih.bind fun as => hpure _).orElse (hpure [])

/-- A numeral fails at itself. -/
theorem numeral : FailsAtNumerals numeral := by
  intro s rest h
  obtain rfl := (integerAt_of_outOfRange h).1
  exact h

end FailsAtNumerals

/-- Integers that are out of range are found by numerals only. -/
theorem failsAtNumerals_compositional : Compositional fun _ p => FailsAtNumerals p where
  pure a := .of_neverFails (.pure a)
  missing := .of_neverFails .missing
  bind := .bind
  orElse := .orElse
  committed := .committed
  ahead := .ahead
  many := fun _ hp s => hp.manyWithin _ s
  layout := .of_neverFails layout_neverFails
  literal letters _ := .of_neverFails (literal_neverFails letters)
  unlessNext stops _ := .of_neverFails (unlessNext_neverFails stops)
  word := .of_neverFails word_neverFails
  numeral := .numeral
  stuck := fun _ _ => nofun
  unbounded := fun h s => h _ s

end Parser

/-! ### Errors -/

/-- What an error says of the end part of the text that it is about. -/
inductive ParseError.Describes (r : List Char) : ParseError → Prop where
  | endOfInput {p : Position} {found : Found} :
      r = [] → found.text = "end of input" → Describes r (.unexpected p found)
  /-- The message quotes the first characters of the word that stands there. -/
  | word {p : Position} {found : Found} {c : Char} {w : List Char} :
      c ∈ r.head? → ¬ isBlank c → LongestStart (fun t => ∀ d ∈ t, ¬ isBlank d) w r →
        found.text = "`" ++ String.ofList (w.take 16) ++ "`" → Describes r (.unexpected p found)
  /-- Neither a space nor a comment stands there. -/
  | definition {p : Position} :
      r ≠ [] → (∀ t, Layout r t → t = r) → Describes r (.notADefinition p)
  | integer {p : Position} {literal : List Char} {n : Int} :
      LongestStart (fun t => ∃ m, IntegerText t m) literal r → IntegerText literal n →
        ¬ Value.InRange n → Describes r (.integerOutOfRange p literal)

/-- A source text splits at the place of an error, which describes the second part. -/
def ParseError.Located (source : List Char) (e : ParseError) : Prop :=
  ∃ u r, source = u ++ r ∧ e.position = ⟨1 + u.count '\n', 1 + (lastLine u).length⟩ ∧ e.Describes r

namespace Parser

variable {α : Type} {source r : List Char}

/-- The place of an end part is counted by what is before it. -/
theorem located_of_suffix {e : ParseError} (hr : r <:+ source)
    (hposition : e.position = Position.ofRest source r) (h : e.Describes r) : e.Located source := by
  obtain ⟨u, rfl⟩ := hr
  rw [Position.ofRest_append, Position.after_eq] at hposition
  exact ⟨u, r, rfl, hposition, h⟩

/-- A message about an unexpected word quotes the word that stands there. -/
theorem describes_ofText {s : List Char} (h : ∀ c ∈ s.head?, ¬ isBlank c) (p : Position) :
    (ParseError.unexpected p (Found.ofText s)).Describes s := by
  cases s with
  | nil => exact .endOfInput rfl rfl
  | cons c s =>
    have hlongest : LongestStart (fun t => ∀ d ∈ t, ¬ isBlank d) (firstWord (c :: s)) (c :: s) := by
      simpa [firstWord] using longestStart_takeWhile (fun d => !isBlank d) (c :: s)
    have hword : firstWord (c :: s) = c :: firstWord s :=
      List.takeWhile_cons_of_pos (by simpa using h c rfl)
    apply ParseError.Describes.word rfl (h c rfl) hlongest
    rw [Found.ofText, hword]
    rfl

/-- An unexpected word is looked for behind blank characters. -/
theorem unexpectedAt_located (hr : r <:+ source) :
    (ParseError.unexpectedAt source r).Located source := by
  have htrim : trimStart r <:+ source := (List.dropWhile_suffix _).trans hr
  exact located_of_suffix htrim rfl (describes_ofText (not_of_mem_head?_dropWhile r) _)

/-- Reading a whole text fails with a located error if what is left over by a success is one. -/
theorem readAll_located {p : Parser α} {leftOver : List Char → ParseError} {e : ParseError}
    (ht : Trims p) (hn : FailsAtNumerals p)
    (hleft : ∀ a r, p source = .ok a r → r ≠ [] → (leftOver r).Located source)
    (h : p.readAll leftOver source = .error e) : e.Located source := by
  have hrest := ht source
  unfold readAll at h
  split at h
  · cases h
  · next a r hne hs =>
    cases h
    exact hleft a r hs fun hnil => hne (hnil ▸ rfl)
  · next r hs =>
    cases h
    rw [hs] at hrest
    exact unexpectedAt_located hrest
  · next fault r hs =>
    cases h
    rw [hs] at hrest
    cases fault with
    | unexpected => exact unexpectedAt_located hrest
    | stuck => exact unexpectedAt_located hrest
    | outOfRange =>
      obtain ⟨-, hlongest, n, hn, hrange⟩ := integerAt_of_outOfRange (hn source r hs)
      exact located_of_suffix hrest rfl (.integer hlongest hn hrange)

/-- Every error in a source text is located: the text splits into what is before its line and column and
what it describes, which is the word that was not expected, the literal of an integer that is out of
range, or something else than layout where a definition or the end should be. Only programs are said to
hold something else than a definition. -/
theorem errors_located (source : List Char) :
    (∀ e, Program.parse source = .error e → e.Located source) ∧
    ∀ e, Expr.parse source = .error e → e.Located source ∧ ∀ p, e ≠ .notADefinition p := by
  constructor
  · intro e h
    refine readAll_located program_trims failsAtNumerals_compositional.program ?_ h
    intro p r hok hne
    obtain ⟨ds, t, -, hrest⟩ := bind_eq_ok_iff.mp hok
    obtain ⟨_, u, hlayout, hpure⟩ := bind_eq_ok_iff.mp hrest
    obtain ⟨-, rfl⟩ := pure_eq_ok_iff.mp hpure
    have hskip : skip t = u := (Reply.ok.inj hlayout).2
    apply located_of_suffix (program_trims.ok hok) rfl
    exact .definition hne (afterLayout_iff.mpr hskip).2
  · intro e h
    have htrims := expressionAndLayout_trims
    refine ⟨readAll_located htrims failsAtNumerals_compositional.expressionAndLayout ?_ h, ?_⟩
    · intro e r hok _
      exact unexpectedAt_located (htrims.ok hok)
    · rintro p rfl
      unfold Expr.parse readAll at h
      split at h
      · cases h
      · cases h
      · cases h
      · next fault r _ =>
        cases fault <;> cases h

/-- A literal behind a comment in the second line of three is out of range by one. -/
theorem errors_located_of_literal :
    let source := "define main() \x7b\n\t// zu gro\u00df\r\n  f(-9223372036854775809x) \x7d".toList
    let e : ParseError := .integerOutOfRange ⟨3, 5⟩ "-9223372036854775809".toList
    Program.parse source = .error e ∧ e.Located source := by
  intro source e
  have h : Program.parse source = .error e := by decide +kernel
  exact ⟨h, (errors_located source).1 e h⟩

end Parser

end Scriptlet
