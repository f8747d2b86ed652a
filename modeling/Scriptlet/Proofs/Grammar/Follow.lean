import Scriptlet.Proofs.Grammar.Soundness
import Scriptlet.Proofs.Parser.Dispatch

/-!
# What may follow an expression

The grammar may cut a text into expressions in more ways than the parser, which takes as much as it
can: in a block, `a -1` is one expression or two. What saves the parser is what may come next. A
context is a predicate on the text after an expression; it is a `Follow` if the parser, by going on
into such a text, stays within what the grammar can continue:

* at a parenthesis right after a name, the grammar has an expression in parentheses there, which the
  parser takes for the argument of a call (`Follow.call`);
* at a minus sign, the grammar has an integer there, which the parser takes for an operand
  (`Follow.minus`);
* at any other operator, and at `else`, the grammar has nothing to put there.

There are two kinds of contexts. A text that `Stops` an expression admits none of this
(`follow_of_stops`); the rest of a block up to its closing brace admits it because its next
expression is there to be taken (`follow_tail`).
-/

namespace Scriptlet

open Scriptlet.Text
open Scriptlet.Parser (startsOperand startsExpression)

namespace Grammar

/-! ### How expressions start -/

/-- A conditional starts with its keyword. -/
theorem Conditional.exists_word {s r : List Char} {e : Expr} (h : Conditional s r e) :
    ∃ t, Word .conditional s t := by
  cases h with
  | ifThen hword _ _ => exact ⟨_, hword⟩
  | ifElse hword _ _ _ _ => exact ⟨_, hword⟩
  | elseIf hword _ _ _ _ => exact ⟨_, hword⟩

/-- A loop starts with its keyword. -/
theorem Loop.exists_word {s r : List Char} {e : Expr} (h : Loop s r e) : ∃ t, Word .loop s t := by
  cases h with
  | whileDo hword _ _ => exact ⟨_, hword⟩

/-- A block starts with its brace. -/
theorem Braces.exists_brace {s r : List Char} {b : Block} (h : Braces s r b) :
    ∃ t, Symbol "\x7b" s t := by
  cases h with
  | braces hopen _ _ => exact ⟨_, hopen⟩

/-- A primary expression starts with a character that starts operands. -/
theorem Primary.first {s r : List Char} {e : Expr} (h : Primary s r e) :
    ∃ c, first s = some c ∧ startsOperand c := by
  cases h with
  | parenthesized hp _ _ => exact ⟨'(', hp.first rfl, by decide⟩
  | print hw _ _ _ =>
    obtain ⟨c, hc, hstart⟩ := hw.first
    exact ⟨c, hc, by simp [startsOperand, hstart]⟩
  | call hx _ _ =>
    obtain ⟨c, hc, hstart⟩ := hx.first
    exact ⟨c, hc, by simp [startsOperand, hstart]⟩
  | integer hv =>
    obtain ⟨c, hc, hdigit | hminus⟩ := hv.first
    · exact ⟨c, hc, by simp [startsOperand, hdigit]⟩
    · exact ⟨c, hc, by simp [startsOperand, hminus]⟩
  | var hx =>
    obtain ⟨c, hc, hstart⟩ := hx.first
    exact ⟨c, hc, by simp [startsOperand, hstart]⟩

/-- A primary expression that starts with a parenthesis is an expression in parentheses. -/
theorem Primary.exists_parentheses {s r : List Char} {e : Expr} (h : Primary s r e)
    (hs : Grammar.first s = some '(') :
    ∃ t u, Symbol "(" s t ∧ Expression t u e ∧ Symbol ")" u r := by
  cases h with
  | parenthesized hopen he hclose => exact ⟨_, _, hopen, he, hclose⟩
  | print hw _ _ _ => exact absurd (of_first hs hw.first) (by decide)
  | call hx _ _ => exact absurd (of_first hs hx.first) (by decide)
  | integer hv => exact absurd (of_first hs hv.first) (by decide)
  | var hx => exact absurd (of_first hs hx.first) (by decide)

/-- A primary expression that starts with a minus sign is a negative integer. -/
theorem Primary.exists_digits {s r : List Char} {e : Expr} (h : Primary s r e)
    (hs : Grammar.first s = some '-') :
    ∃ t digits, AfterLayout s ('-' :: t) ∧ Digits t r digits := by
  cases h with
  | parenthesized hopen _ _ =>
    rw [hopen.first rfl] at hs
    cases hs
  | print hw _ _ _ => exact absurd (of_first hs hw.first) (by decide)
  | call hx _ _ => exact absurd (of_first hs hx.first) (by decide)
  | integer hv =>
    cases hv with
    | plain ht hd _ =>
      obtain ⟨d, w, rfl, hdigit⟩ := hd.cons
      rw [first_of_afterLayout ht] at hs
      cases hs
      exact absurd hdigit (by decide)
    | negative ht hd _ => exact ⟨_, _, ht, hd⟩
  | var hx => exact absurd (of_first hs hx.first) (by decide)

/-- A chain starts with a character that starts operands, that of its first operand. -/
theorem Chain.first {level : Nat} {s r : List Char} {e : Expr} (h : Chain level s r e) :
    ∃ c, first s = some c ∧ startsOperand c := by
  obtain ⟨t, f, hp⟩ := h.exists_primary
  exact hp.first

/-- An expression starts with a character that starts expressions. -/
theorem Expression.first {s r : List Char} {e : Expr} (h : Expression s r e) :
    ∃ c, first s = some c ∧ startsExpression c := by
  cases h with
  | conditional h =>
    obtain ⟨t, hword⟩ := h.exists_word
    obtain ⟨c, hc, hstart⟩ := hword.first
    exact ⟨c, hc, by simp [startsExpression, startsOperand, hstart]⟩
  | loop h =>
    obtain ⟨t, hword⟩ := h.exists_word
    obtain ⟨c, hc, hstart⟩ := hword.first
    exact ⟨c, hc, by simp [startsExpression, startsOperand, hstart]⟩
  | block h =>
    obtain ⟨t, hopen⟩ := h.exists_brace
    exact ⟨'\x7b', hopen.first rfl, by decide⟩
  | assignment h =>
    cases h with
    | assign hx _ _ =>
      obtain ⟨c, hc, hstart⟩ := hx.first
      exact ⟨c, hc, by simp [startsExpression, startsOperand, hstart]⟩
  | comparison h =>
    obtain ⟨c, hc, hstart⟩ := h.first
    exact ⟨c, hc, by simp [startsExpression, hstart]⟩

/-- No expression starts with the keyword `else`. -/
theorem Expression.not_otherwise {s r t : List Char} {e : Expr} (h : Expression s r e) :
    ¬ Word .otherwise s t := by
  intro hw
  cases h with
  | conditional h =>
    obtain ⟨u, hword⟩ := h.exists_word
    exact absurd (hw.keyword_eq hword) (by decide)
  | loop h =>
    obtain ⟨u, hword⟩ := h.exists_word
    exact absurd (hw.keyword_eq hword) (by decide)
  | block h =>
    obtain ⟨u, hopen⟩ := h.exists_brace
    exact not_symbol_of_isNameStart "\x7b" hw.first rfl (by decide) u hopen
  | assignment h =>
    cases h with
    | assign hx _ _ => exact hw.not_name hx
  | comparison h =>
    obtain ⟨_, _, hp⟩ := h.exists_primary
    exact absurd (hw.eq_print hp) (by decide)

/-- An expression that starts like no word and with no brace is a comparison. -/
theorem Expression.chain_of_first {s r : List Char} {e : Expr} (h : Expression s r e) {c : Char}
    (hc : Grammar.first s = some c) (hname : isNameStart c = false) (hbrace : c ≠ '\x7b') :
    Chain 0 s r e := by
  have hno : ¬ ∃ d, Grammar.first s = some d ∧ isNameStart d :=
    fun hd => Bool.eq_false_iff.mp hname (of_first hc hd)
  cases h with
  | conditional h =>
    obtain ⟨t, hword⟩ := h.exists_word
    exact absurd hword.first hno
  | loop h =>
    obtain ⟨t, hword⟩ := h.exists_word
    exact absurd hword.first hno
  | block h =>
    obtain ⟨t, hopen⟩ := h.exists_brace
    rw [hopen.first rfl] at hc
    cases hc
    exact absurd rfl hbrace
  | assignment h =>
    cases h with
    | assign hx _ _ => exact absurd hx.first hno
  | comparison h => exact h

/-! ### Contexts -/

/-- Operators of a level with their operands, and then a text of the context. -/
def Linked (level : Nat) (K : List Char → Prop) (r : List Char) : Prop :=
  ∃ links t, Links level r t links ∧ K t

/-- What may follow a chain of a level where an expression may be followed by the context. -/
def Following (K : List Char → Prop) : Nat → List Char → Prop
  | 0 => K
  | level + 1 => Linked level (Following K level)

/-- A chain starts with a primary expression, and the rest of the chain follows it. -/
theorem Chain.exists_primary_following {K : List Char → Prop} {level : Nat} {s r : List Char}
    {e : Expr} : Chain level s r e → Following K level r → ∃ t f, Primary s t f ∧ Following K 3 t
  | .primary h, hr => ⟨r, e, h, hr⟩
  | .chain _ h hlinks, hr => h.exists_primary_following ⟨_, _, hlinks, hr⟩

/-- The characters that operators start with, apart from the minus sign. -/
def operatorStarts : List Char :=
  ['*', '/', '+', '<', '>', '=', '!']

/-- A context in which the parser does not go too far. -/
structure Follow (K : List Char → Prop) : Prop where
  /-- A parenthesis right after a name opens an expression. -/
  call : ∀ {s}, K ('(' :: s) →
    ∃ r₁ e r₂, Expression s r₁ e ∧ Symbol ")" r₁ r₂ ∧ Following K 3 r₂
  /-- A minus sign belongs to an integer. -/
  minus : ∀ {r s}, K r → AfterLayout r ('-' :: s) →
    ∃ digits t, Digits s t digits ∧ Following K 3 t
  /-- No other operator stands there. -/
  operator : ∀ {r c}, K r → first r = some c → c ∉ operatorStarts
  /-- No second branch of a conditional stands there. -/
  otherwise : ∀ {r t}, K r → ¬ Word .otherwise r t

/-! ### Texts that stop an expression -/

/-- A text at which no expression can be continued, nor another one begin that could be taken for a
continuation. -/
def Stops (r : List Char) : Prop :=
  (∀ c ∈ first r, c ∉ '(' :: '-' :: operatorStarts) ∧ ∀ t, ¬ Word .otherwise r t

/-- Nothing is skipped before a character that is no layout. -/
theorem skip_cons_of_not_layout {c : Char} (h : isSpace c = false) (hc : c ≠ '/') (s : List Char) :
    skip (c :: s) = c :: s := by
  refine skip_cons_of_not h ?_
  cases s with
  | nil => rfl
  | cons d s => simp [opensComment, hc]

/-- Such a character is the first one. -/
theorem first_cons_of_not_layout {c : Char} (h : isSpace c = false) (hc : c ≠ '/') (s : List Char) :
    first (c :: s) = some c := by
  rw [first, skip_cons_of_not_layout h hc]
  rfl

/-- A text that stops an expression is a context of its own. -/
theorem follow_of_stops {r : List Char} (h : Stops r) : Follow (· = r) where
  call := by
    rintro s rfl
    exact absurd (h.1 '(' (first_cons_of_not_layout (by decide) (by decide) s)) (by decide)
  minus := by
    rintro _ s rfl hs
    exact absurd (h.1 '-' (first_of_afterLayout hs)) (by decide)
  operator := by
    rintro _ c rfl hc hmem
    exact h.1 c hc (List.mem_cons_of_mem _ (List.mem_cons_of_mem _ hmem))
  otherwise := by
    rintro _ t rfl
    exact h.2 t

/-- A symbol that neither continues nor starts an expression stops it. -/
theorem Symbol.stops {text : String} {r t : List Char} (h : Symbol text r t) {c : Char}
    {cs : List Char} (ht : text.toList = c :: cs) (hc : c ∉ '(' :: '-' :: operatorStarts)
    (hname : isNameStart c = false) : Stops r := by
  refine ⟨fun d hd => ?_, fun u hu => ?_⟩
  · rw [h.first ht] at hd
    cases hd
    exact hc
  · exact not_symbol_of_isNameStart text hu.first ht hname t h

/-- A keyword other than `else` stops an expression. -/
theorem Word.stops {k : Keyword} {r t : List Char} (h : Word k r t) (hk : k ≠ .otherwise) :
    Stops r := by
  refine ⟨fun d hd hmem => ?_, fun u hu => hk (h.keyword_eq hu)⟩
  have key : ∀ c ∈ '(' :: '-' :: operatorStarts, ¬ isNameStart c :=
    forall_mem_of_all (by decide)
  exact key d hmem (of_first hd h.first)

/-- The end of a text stops an expression. -/
theorem stops_of_layout {r : List Char} (h : skip r = []) : Stops r := by
  refine ⟨fun d hd => ?_, fun u hu => ?_⟩
  · rw [first, h] at hd
    cases hd
  · obtain ⟨c, hc, -⟩ := hu.first
    rw [first, h] at hc
    cases hc

/-! ### The rest of a block -/

/-- Items and a closing brace lead to a text. -/
def ItemsTo (t r : List Char) : Prop :=
  ∃ es u, Items r u es ∧ Symbol "\x7d" u t

/-- The rest of a block after an expression: a semicolon or none, items and a closing brace. -/
def Tail (t r : List Char) : Prop :=
  ItemsTo t r ∨ ∃ u, Symbol ";" r u ∧ ItemsTo t u

/-- Items are over, or start with an expression, after which the block goes on. -/
theorem ItemsTo.cases_iff {t r : List Char} :
    ItemsTo t r ↔ Symbol "\x7d" r t ∨ ∃ e u, Expression r u e ∧ Tail t u := by
  constructor
  · rintro ⟨es, u, hitems, hclose⟩
    cases hitems with
    | nil => exact .inl hclose
    | cons he hes => exact .inr ⟨_, _, he, .inl ⟨_, _, hes, hclose⟩⟩
    | consSemicolon he hsemi hes => exact .inr ⟨_, _, he, .inr ⟨_, hsemi, _, _, hes, hclose⟩⟩
  · rintro (hclose | ⟨e, u, he, ⟨es, v, hes, hclose⟩ | ⟨v, hsemi, es, w, hes, hclose⟩⟩)
    · exact ⟨[], r, .nil, hclose⟩
    · exact ⟨e :: es, v, .cons he hes, hclose⟩
    · exact ⟨e :: es, w, .consSemicolon he hsemi hes, hclose⟩

/-- The rest of a block starts with a brace, a semicolon or an expression. -/
theorem Tail.cases {t r : List Char} (h : Tail t r) :
    first r = some '\x7d' ∨ first r = some ';' ∨ ∃ e u, Expression r u e ∧ Tail t u := by
  rcases h with h | ⟨u, hsemi, -⟩
  · rcases ItemsTo.cases_iff.mp h with hclose | he
    · exact .inl (hclose.first rfl)
    · exact .inr (.inr he)
  · exact .inr (.inl (hsemi.first rfl))

/-- Where the rest of a block starts with an operand that is no word, it is a primary expression
with its chain and the block after it. -/
theorem Tail.exists_primary {t r : List Char} (h : Tail t r) {c : Char} (hc : first r = some c)
    (hmem : c ∈ ['(', '-']) : ∃ u f, Primary r u f ∧ Following (Tail t) 3 u := by
  have hname : isNameStart c = false ∧ c ≠ '\x7b' ∧ c ≠ '\x7d' ∧ c ≠ ';' := by
    have key : ∀ c ∈ ['(', '-'], isNameStart c = false ∧ c ≠ '\x7b' ∧ c ≠ '\x7d' ∧ c ≠ ';' :=
      forall_mem_of_all (by decide)
    exact key c hmem
  obtain ⟨hstart, hbrace, hclose, hsemi⟩ := hname
  rcases h.cases with hfirst | hfirst | ⟨e, u, he, htail⟩
  · rw [hc] at hfirst
    cases hfirst
    exact absurd rfl hclose
  · rw [hc] at hfirst
    cases hfirst
    exact absurd rfl hsemi
  · exact (he.chain_of_first hc hstart hbrace).exists_primary_following htail

/-- In the rest of a block the parser does not go too far: what it takes beyond an expression is the
next expression of the block, or its start. -/
theorem follow_tail (t : List Char) : Follow (Tail t) where
  call := by
    intro s h
    have hskip := skip_cons_of_not_layout (c := '(') (by decide) (by decide) s
    have hfirst : first ('(' :: s) = some '(' := first_of_afterLayout (afterLayout_iff.mpr hskip)
    obtain ⟨u, f, hp, hu⟩ := h.exists_primary hfirst (by decide)
    obtain ⟨v, w, hopen, he, hclose⟩ := hp.exists_parentheses hfirst
    obtain rfl : s = v := (List.cons.inj ((afterLayout_iff.mpr hskip).unique hopen)).2
    exact ⟨w, f, u, he, hclose, hu⟩
  minus := by
    intro r s h hs
    obtain ⟨u, f, hp, hu⟩ := h.exists_primary (first_of_afterLayout hs) (by decide)
    obtain ⟨v, digits, hv, hdigits⟩ := hp.exists_digits (first_of_afterLayout hs)
    obtain rfl : s = v := (List.cons.inj (hs.unique hv)).2
    exact ⟨digits, u, hdigits, hu⟩
  operator := by
    intro r c h hc hmem
    have key : ∀ c ∈ operatorStarts, ¬ startsExpression c ∧ c ≠ '\x7d' ∧ c ≠ ';' :=
      forall_mem_of_all (by decide)
    obtain ⟨hexpr, hclose, hsemi⟩ := key c hmem
    rcases h.cases with hfirst | hfirst | ⟨e, u, he, -⟩
    · rw [hc] at hfirst
      exact hclose (Option.some.inj hfirst)
    · rw [hc] at hfirst
      exact hsemi (Option.some.inj hfirst)
    · exact hexpr (of_first hc he.first)
  otherwise := by
    intro r u h hw
    rcases h.cases with hfirst | hfirst | ⟨e, u, he, -⟩
    · exact absurd (of_first hfirst hw.first) (by decide)
    · exact absurd (of_first hfirst hw.first) (by decide)
    · exact he.not_otherwise hw

end Grammar

end Scriptlet
