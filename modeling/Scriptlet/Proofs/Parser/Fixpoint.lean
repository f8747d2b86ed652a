import Scriptlet.Proofs.Parser.Progress

/-!
# Repetition and nesting without bounds

A repetition allows as many rounds, and an expression as deep a nesting, as its text has characters.
Since every round and every level of nesting reads a character, no text comes to either bound, and
both satisfy the equations that one would write without them:

* `many_ok`, `many_miss`, `many_fail`, `many_ok_fail`: a repetition is a round and the rounds after
  it, if the repeated parser advances.
* `expression_eq`: an expression is a construct over expressions.

The second equation comes from `AgreeBelow n p q`, which says that two parsers give the same answer
on every text shorter than `n`: two constructs agree on longer texts than the parsers of the nested
expressions do.
-/

namespace Scriptlet

namespace Parser

variable {α β : Type}

/-! ### Repetition -/

/-- More rounds than there are characters give the same answer. -/
theorem manyWithin_eq {p : Parser α} (hp : Advances p) {s : List Char} {m n : Nat}
    (hm : s.length < m) (hn : s.length < n) : manyWithin m p s = manyWithin n p s := by
  induction m generalizing s n with
  | zero => omega
  | succ m ih =>
    obtain ⟨n, rfl⟩ : ∃ k, n = k + 1 := ⟨n - 1, by omega⟩
    cases h : p s with
    | miss rest => rw [manyWithin_miss h, manyWithin_miss h]
    | fail fault rest => rw [manyWithin_fail h, manyWithin_fail h]
    | ok a rest =>
      have hlt := hp.shorter h
      have hrest : manyWithin m p rest = manyWithin n p rest := ih (by omega) (by omega)
      cases hs : manyWithin m p rest with
      | ok as last => rw [manyWithin_ok h hs, manyWithin_ok h (hrest ▸ hs)]
      | miss last => exact absurd hs (manyWithin_ne_miss m p rest last)
      | fail fault last => rw [manyWithin_ok_fail h hs, manyWithin_ok_fail h (hrest ▸ hs)]

/-- A miss ends a repetition. -/
theorem many_miss {p : Parser α} {s rest : List Char} (h : p s = .miss rest) :
    many p s = .ok [] s :=
  manyWithin_miss h _

/-- A failure in a round is one of the repetition. -/
theorem many_fail {p : Parser α} {s rest : List Char} {fault : Fault}
    (h : p s = .fail fault rest) : many p s = .fail fault rest :=
  manyWithin_fail h _

/-- The rounds after the first one are a repetition of their own. -/
theorem manyWithin_rest {p : Parser α} (hp : Advances p) {s rest : List Char} {a : α}
    (h : p s = .ok a rest) : manyWithin s.length p rest = many p rest :=
  manyWithin_eq hp (hp.shorter h) (Nat.lt_succ_self _)

/-- A successful round is followed by the rounds after it. -/
theorem many_ok {p : Parser α} (hp : Advances p) {s rest last : List Char} {a : α} {as : List α}
    (h : p s = .ok a rest) (hs : many p rest = .ok as last) : many p s = .ok (a :: as) last :=
  manyWithin_ok h ((manyWithin_rest hp h).trans hs)

/-- A failure in a later round is one of the repetition. -/
theorem many_ok_fail {p : Parser α} (hp : Advances p) {s rest last : List Char} {a : α}
    {fault : Fault} (h : p s = .ok a rest) (hs : many p rest = .fail fault last) :
    many p s = .fail fault last :=
  manyWithin_ok_fail h ((manyWithin_rest hp h).trans hs)

/-- A repetition that succeeds has ended by a miss, or began with a round. -/
theorem many_eq_ok_cases {p : Parser α} (hp : Advances p) {s r : List Char} {as : List α}
    (h : many p s = .ok as r) :
    ((∃ t, p s = .miss t) ∧ as = [] ∧ s = r) ∨
      ∃ a bs t, p s = .ok a t ∧ many p t = .ok bs r ∧ as = a :: bs := by
  cases hs : p s with
  | miss t =>
    rw [many_miss hs] at h
    cases h
    exact .inl ⟨⟨t, rfl⟩, rfl, rfl⟩
  | fail fault t =>
    rw [many_fail hs] at h
    cases h
  | ok a t =>
    cases ht : many p t with
    | ok bs last =>
      rw [many_ok hp hs ht] at h
      cases h
      exact .inr ⟨a, bs, t, rfl, ht, rfl⟩
    | miss last => exact absurd ht (manyWithin_ne_miss _ p t last)
    | fail fault last =>
      rw [many_ok_fail hp hs ht] at h
      cases h

/-- What holds of no rounds, and of a round before others, holds of every repetition that
succeeds. -/
theorem many_ok_induction {p : Parser α} (hp : Advances p)
    {R : List Char → List Char → List α → Prop} (nil : ∀ s, R s s [])
    (cons : ∀ {s t r a as}, p s = .ok a t → R t r as → R s r (a :: as)) {s r : List Char}
    {as : List α} (h : many p s = .ok as r) : R s r as := by
  induction as generalizing s with
  | nil =>
    rcases many_eq_ok_cases hp h with ⟨-, -, rfl⟩ | ⟨_, _, _, -, -, hcons⟩
    · exact nil s
    · cases hcons
  | cons a as ih =>
    rcases many_eq_ok_cases hp h with ⟨-, hnil, -⟩ | ⟨_, _, t, ht, hrest, hcons⟩
    · cases hnil
    · cases hcons
      exact cons ht (ih hrest)

/-! ### Agreement on short texts -/

/-- Two parsers give the same answer on every text shorter than a bound. -/
def AgreeBelow (n : Nat) (p q : Parser α) : Prop :=
  ∀ s, s.length < n → p s = q s

namespace AgreeBelow

variable {n m : Nat} {p q : Parser α}

/-- A parser agrees with itself. -/
theorem refl (n : Nat) (p : Parser α) : AgreeBelow n p p :=
  fun _ _ => rfl

/-- Parsers that agree on some texts agree on the shorter ones. -/
theorem mono (h : AgreeBelow n p q) (hm : m ≤ n) : AgreeBelow m p q :=
  fun s hs => h s (Nat.lt_of_lt_of_le hs hm)

/-- Sequences agree if their parts do. -/
theorem bind {f g : α → Parser β} (h : AgreeBelow n p q) (hp : Trims p)
    (hfg : ∀ a, AgreeBelow n (f a) (g a)) : AgreeBelow n (p >>= f) (q >>= g) := by
  intro s hs
  have hq := h s hs
  cases hps : p s with
  | ok a rest =>
    rw [bind_ok hps, bind_ok (hq ▸ hps)]
    exact hfg a rest (Nat.lt_of_le_of_lt (hp.length_le hps) hs)
  | miss rest => rw [bind_miss hps, bind_miss (hq ▸ hps)]
  | fail fault rest => rw [bind_fail hps, bind_fail (hq ▸ hps)]

/-- After a parser that advances, sequences agree on texts that are one character longer. -/
theorem bind_of_advances {f g : α → Parser β} (h : AgreeBelow (n + 1) p q) (hp : Advances p)
    (hfg : ∀ a, AgreeBelow n (f a) (g a)) : AgreeBelow (n + 1) (p >>= f) (q >>= g) := by
  intro s hs
  have hq := h s hs
  cases hps : p s with
  | ok a rest =>
    rw [bind_ok hps, bind_ok (hq ▸ hps)]
    have := hp.shorter hps
    exact hfg a rest (by omega)
  | miss rest => rw [bind_miss hps, bind_miss (hq ▸ hps)]
  | fail fault rest => rw [bind_fail hps, bind_fail (hq ▸ hps)]

/-- Sequences with the same first parser, which advances, agree on texts that are one character
longer. -/
theorem bind_succ {f g : α → Parser β} (hp : Advances p) (hfg : ∀ a, AgreeBelow n (f a) (g a)) :
    AgreeBelow (n + 1) (p >>= f) (p >>= g) :=
  (refl (n + 1) p).bind_of_advances hp hfg

/-- Choices agree if their alternatives do. -/
theorem orElse {p' q' : Parser α} (h : AgreeBelow n p q) (h' : AgreeBelow n p' q') :
    AgreeBelow n (p <|> p') (q <|> q') := by
  intro s hs
  have hq := h s hs
  cases hps : p s with
  | ok a rest => rw [orElse_ok hps, orElse_ok (hq ▸ hps)]
  | miss rest => rw [orElse_miss hps, orElse_miss (hq ▸ hps), h' s hs]
  | fail fault rest => rw [orElse_fail hps, orElse_fail (hq ▸ hps)]

/-- What is committed to agrees where it agreed before. -/
theorem committed (h : AgreeBelow n p q) :
    AgreeBelow n (committed p) (committed q) := by
  intro s hs
  simp only [Parser.committed, h s hs]

/-- Parsers whose results are changed agree if the parsers do. -/
theorem map (h : AgreeBelow n p q) (f : α → β) : AgreeBelow n (f <$> p) (f <$> q) := by
  intro s hs
  simp only [Functor.map, h s hs]

/-- Parsers of what may be left out agree if the parsers do. -/
theorem optional (h : AgreeBelow n p q) : AgreeBelow n (optional p) (optional q) :=
  (h.map some).orElse (refl n _)

/-- Repetitions agree if the repeated parsers do. -/
theorem many (h : AgreeBelow n p q) (hp : Advances p) : AgreeBelow n (many p) (many q) := by
  have rounds : ∀ k, AgreeBelow n (manyWithin k p) (manyWithin k q) := by
    intro k
    induction k with
    | zero => exact refl n _
    | succ k ih =>
      exact (h.bind hp.trims fun _ => ih.bind (hp.trims.manyWithin k) fun _ => refl n _).orElse
        (refl n _)
  exact fun s hs => rounds _ s hs

/-- Lists with commas between the items agree if the items do. -/
theorem separated (h : AgreeBelow n p q) (hp : Trims p) :
    AgreeBelow n (separated p (token ",")) (separated q (token ",")) := by
  have more : AgreeBelow n (moreOf p) (moreOf q) :=
    (refl n _).bind (token_advances (by decide)).trims fun _ => h
  have hmore := moreOf_advances hp
  exact (h.bind hp fun _ => (more.many hmore).bind hmore.trims.many fun _ => refl n _).orElse
    (refl n _)

end AgreeBelow

/-! ### Constructs agree on longer texts -/

section nested

variable {n : Nat} {e f : Parser Expr} (h : AgreeBelow n e f) (he : Advances e)

include h he

/-- Blocks agree on longer texts than their items, having read a brace before them. -/
theorem blockOf_agree : AgreeBelow (n + 1) (blockOf e) (blockOf f) := by
  refine .bind_succ (token_advances (by decide)) fun _ => .committed ?_
  have item : AgreeBelow n (itemOf e) (itemOf f) := h.bind he.trims fun _ => .refl n _
  have hitem := itemOf_advances he
  exact (item.many hitem).bind hitem.trims.many fun _ => .refl n _

/-- Prints do, having read their keyword. -/
theorem printOf_agree : AgreeBelow (n + 1) (printOf e) (printOf f) :=
  .bind_succ (keyword_advances .print) fun _ => .committed <|
    (AgreeBelow.refl n _).bind (token_advances (by decide)).trims fun _ =>
      h.bind he.trims fun _ => .refl n _

/-- Calls do, having read the name of the function. -/
theorem callOf_agree : AgreeBelow (n + 1) (callOf e) (callOf f) :=
  .bind_succ identifier_advances fun _ =>
    (AgreeBelow.refl n _).bind (literal_advances (by decide)).trims fun _ => .committed <|
      (h.separated he.trims).bind (he.trims.separated (token_advances (by decide)).trims)
        fun _ => .refl n _

/-- Parentheses do, having read the one that opens them. -/
theorem parenthesizedOf_agree : AgreeBelow (n + 1) (parenthesizedOf e) (parenthesizedOf f) :=
  .bind_succ (token_advances (by decide)) fun _ => .committed <| h.bind he.trims fun _ => .refl n _

/-- Primary expressions do, as each alternative does. -/
theorem primaryOf_agree : AgreeBelow (n + 1) (primaryOf e) (primaryOf f) :=
  (parenthesizedOf_agree h he).orElse <| (printOf_agree h he).orElse <|
    (callOf_agree h he).orElse <| .refl _ _

omit h he in
/-- Chains agree where their operands do, since what is left after an operand is shorter. -/
theorem chainOf_agree (ops : List Operator) {p q : Parser Expr} (h : AgreeBelow n p q)
    (hp : Advances p) : AgreeBelow n (chainOf ops p) (chainOf ops q) := by
  have link : AgreeBelow n (linkOf ops p) (linkOf ops q) :=
    (AgreeBelow.refl n _).bind (operatorAmong_advances ops).trims fun _ =>
      h.bind hp.trims fun _ => .refl n _
  have hlink := linkOf_advances ops hp.trims
  exact h.bind hp.trims fun _ => (link.many hlink).bind hlink.trims.many fun _ => .refl n _

/-- Comparisons do, as three levels of chains. -/
theorem comparisonOf_agree : AgreeBelow (n + 1) (comparisonOf e) (comparisonOf f) :=
  have hprimary := primaryOf_advances he.trims
  chainOf_agree _ (chainOf_agree _ (chainOf_agree _ (primaryOf_agree h he) hprimary)
    (chainOf_advances _ hprimary)) (chainOf_advances _ (chainOf_advances _ hprimary))

/-- Second branches do, having read their keyword. -/
theorem otherwiseOf_agree : AgreeBelow (n + 1) (otherwiseOf e) (otherwiseOf f) :=
  .bind_succ (keyword_advances .otherwise) fun _ => .committed <|
    ((blockOf_agree h he).mono (Nat.le_succ n)).orElse <|
      (AgreeBelow.refl n _).bind (keyword_advances .conditional).trims.ahead fun _ =>
        h.bind he.trims fun _ => .refl n _

/-- Conditionals do, having read their keyword. -/
theorem conditionalOf_agree : AgreeBelow (n + 1) (conditionalOf e) (conditionalOf f) := by
  refine .bind_succ (keyword_advances .conditional) fun _ => .committed ?_
  refine ((comparisonOf_agree h he).mono (Nat.le_succ n)).bind (comparisonOf_advances he.trims).trims
    fun _ => ?_
  refine ((blockOf_agree h he).mono (Nat.le_succ n)).bind (blockOf_advances he.trims).trims
    fun _ => ?_
  exact ((otherwiseOf_agree h he).mono (Nat.le_succ n)).optional.bind
    (otherwiseOf_advances he.trims).trims.optional fun _ => .refl n _

/-- Loops do, having read their keyword. -/
theorem loopOf_agree : AgreeBelow (n + 1) (loopOf e) (loopOf f) :=
  .bind_succ (keyword_advances .loop) fun _ => .committed <|
    ((comparisonOf_agree h he).mono (Nat.le_succ n)).bind (comparisonOf_advances he.trims).trims
      fun _ => ((blockOf_agree h he).mono (Nat.le_succ n)).bind (blockOf_advances he.trims).trims
        fun _ => .refl n _

/-- Assignments do, having read a name. -/
theorem assignmentOf_agree : AgreeBelow (n + 1) (assignmentOf e) (assignmentOf f) :=
  .bind_succ identifier_advances fun _ =>
    (AgreeBelow.refl n _).bind assignSign_advances.trims fun _ => h.bind he.trims fun _ => .refl n _

/-- Expressions over two parsers agree on texts that are one character longer than those on which
the parsers agree. -/
theorem expressionOf_agree : AgreeBelow (n + 1) (expressionOf e) (expressionOf f) :=
  (conditionalOf_agree h he).orElse <| (loopOf_agree h he).orElse <|
    ((blockOf_agree h he).map _).orElse <| (assignmentOf_agree h he).orElse
      (comparisonOf_agree h he)

end nested

/-! ### Expressions -/

/-- Two depths agree on every text that is shorter than both. -/
theorem expressionWithin_agree {n k m : Nat} (hk : n ≤ k) (hm : n ≤ m) :
    AgreeBelow n (expressionWithin k) (expressionWithin m) := by
  induction n generalizing k m with
  | zero => exact fun s hs => absurd hs (Nat.not_lt_zero _)
  | succ n ih =>
    obtain ⟨k, rfl⟩ : ∃ j, k = j + 1 := ⟨k - 1, by omega⟩
    obtain ⟨m, rfl⟩ : ∃ j, m = j + 1 := ⟨m - 1, by omega⟩
    exact expressionOf_agree (ih (by omega) (by omega)) (expressionWithin_advances k)

/-- An expression is a construct over expressions: no text is nested as deep as the bound on its
depth. -/
theorem expression_eq (s : List Char) : expression s = expressionOf expression s := by
  have agree : AgreeBelow s.length (expressionWithin s.length) expression := fun t ht =>
    (expressionWithin_agree (Nat.le_refl _) ht t (Nat.lt_succ_self _)).symm
  exact expressionOf_agree agree (expressionWithin_advances _) s (Nat.lt_succ_self _)

end Parser

end Scriptlet
