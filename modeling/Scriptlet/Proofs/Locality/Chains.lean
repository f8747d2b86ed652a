import Scriptlet.Proofs.Grammar.Completeness
import Scriptlet.Proofs.Locality.Tokens

/-!
# Operators before one text and before another

Where a chain of operators ends depends on what comes next. In the second of two texts an expression is
over at a place (`Over`) if no operator and no second branch stands there, apart from a minus sign
which in the first text stood there before a digit: had it been possible, the expression would have
gone on with it there. A chain asks less of its operands, which may be followed by operators of its
own level (`OverAt`).

* `linkOf_local`: an operator and its operand are read alike. A slash needs a second look, since in
  another text it might open a comment (`opensComment_slash`).
* `chainOf_local`: a chain of operators is read alike if its operands are.
-/

namespace Scriptlet

open Scriptlet.Text
open Scriptlet.Grammar

namespace Parser

variable {α β : Type}

/-! ### Parsers that begin with layout -/

/-- A parser that gives the same answer before and after layout. -/
def IgnoresLayout (p : Parser α) : Prop :=
  ∀ s, p (skip s) = p s

/-- A token may have layout before it. -/
theorem layout_bind_ignoresLayout (f : Unit → Parser α) : IgnoresLayout (layout >>= f) := by
  intro s
  have hskip : layout (skip s) = .ok () (skip s) := congrArg (Reply.ok ()) (skip_skip s)
  rw [bind_ok hskip, bind_ok (p := layout) rfl]

namespace IgnoresLayout

variable {p q : Parser α}

/-- A sequence ignores layout if its first part does. -/
theorem bind (hp : IgnoresLayout p) (f : α → Parser β) : IgnoresLayout (p >>= f) := by
  intro s
  simp only [Bind.bind, hp s]

/-- A choice does if both alternatives do. -/
theorem orElse (hp : IgnoresLayout p) (hq : IgnoresLayout q) : IgnoresLayout (p <|> q) := by
  intro s
  change Parser.orElse p q (skip s) = Parser.orElse p q s
  simp only [Parser.orElse, hp s, hq s]

/-- What a parser reads starts after layout, before the text that it leaves. -/
theorem exists_cons (hp : IgnoresLayout p) (ha : Advances p) {s t : List Char} {a : α}
    (h : p s = .ok a t) : ∃ c u, skip s = c :: (u ++ t) := by
  rw [← hp s] at h
  obtain ⟨x, hx⟩ := ha.trims.ok h
  cases x with
  | nil =>
    have hlt := ha.shorter h
    rw [← hx] at hlt
    exact absurd hlt (Nat.lt_irrefl _)
  | cons c u => exact ⟨c, u, hx.symm⟩

end IgnoresLayout

/-- Every operand starts with a token. -/
theorem primaryOf_ignoresLayout (expr : Parser Expr) : IgnoresLayout (primaryOf expr) := by
  have identifier : ∀ f : String → Parser Expr, IgnoresLayout (identifier >>= f) :=
    (layout_bind_ignoresLayout _).bind
  have integer : IgnoresLayout integer := layout_bind_ignoresLayout _
  exact ((layout_bind_ignoresLayout _).bind _).orElse <| ((layout_bind_ignoresLayout _).bind _).orElse <|
    (identifier _).orElse <| (integer.bind _).orElse (identifier _)

/-- Every construct starts with a token. -/
theorem expressionOf_ignoresLayout (expr : Parser Expr) : IgnoresLayout (expressionOf expr) := by
  have keyword : ∀ (k : Keyword) (f : Unit → Parser Expr), IgnoresLayout (keyword k >>= f) :=
    fun _ f => (layout_bind_ignoresLayout _).bind f
  have assignment : IgnoresLayout (assignmentOf expr) :=
    IgnoresLayout.bind (layout_bind_ignoresLayout _ : IgnoresLayout identifier) _
  have block : IgnoresLayout (blockOf expr) := (layout_bind_ignoresLayout _).bind _
  have primary := primaryOf_ignoresLayout expr
  exact (keyword _ _).orElse <| (keyword _ _).orElse <| (block.bind _).orElse <|
    assignment.orElse (((primary.bind _).bind _).bind _)

/-- An expression does, as each of its constructs does. -/
theorem expression_ignoresLayout : IgnoresLayout expression := by
  intro s
  rw [expression_eq, expression_eq, expressionOf_ignoresLayout]

variable {w w' : List Char} {n : Nat} {Q Q₁ : List Char → Prop}

/-! ### Where an expression is over -/

/-- In the second text no operator of a level or above it stands here, unless in the first text it
stood here before a digit. -/
def OverAt (w w' : List Char) (level : Nat) (z : List Char) : Prop :=
  ∀ (op : Operator) (t : List Char), level ≤ op.level → Symbol op.symbol (z ++ w') t →
    ∃ d u, d.isDigit ∧ Symbol op.symbol (z ++ w) (d :: u)

/-- In the second text no expression goes on here, unless by a minus sign that in the first text stood
here before a digit. -/
structure Over (w w' z : List Char) : Prop where
  operator : ∀ {c}, first (z ++ w') = some c → c ∉ operatorStarts
  minus : ∀ {t}, AfterLayout (z ++ w') ('-' :: t) →
    ∃ d u, d.isDigit ∧ AfterLayout (z ++ w) ('-' :: d :: u)
  otherwise : ∀ t, ¬ Word .otherwise (z ++ w') t

/-- What is no place for an operator of a level is none for those above it. -/
theorem OverAt.mono {level : Nat} {z : List Char} (h : OverAt w w' level z) {level' : Nat}
    (hl : level ≤ level') : OverAt w w' level' z :=
  fun op t hop => h op t (Nat.le_trans hl hop)

/-- No chain goes on where no expression does. -/
theorem Over.overAt {z : List Char} (h : Over w w' z) (level : Nat) : OverAt w w' level z := by
  intro op t _ hop
  have hstart : op = .subtract ∨ ∃ c cs, op.symbol.toList = c :: cs ∧ c ∈ operatorStarts := by
    cases op
    case subtract => exact .inl rfl
    all_goals exact .inr ⟨_, _, rfl, by decide⟩
  rcases hstart with rfl | ⟨c, cs, hc, hmem⟩
  · exact h.minus hop
  · exact absurd hmem (h.operator (hop.first hc))

/-- An expression is over at a text that stops it. -/
theorem over_of_stops {z : List Char} (h : Stops (z ++ w')) : Over w w' z where
  operator hc hmem := h.1 _ hc (List.mem_cons_of_mem _ (List.mem_cons_of_mem _ hmem))
  minus ht := absurd (h.1 '-' (first_of_afterLayout ht)) (by decide)
  otherwise := h.2

/-- An expression is over where a token other than an operator is read next. -/
theorem over_of_token {text : String} {c : Char} {cs : List Char} (ht : text.toList = c :: cs)
    (hc : c ∉ '(' :: '-' :: operatorStarts) (hname : isNameStart c = false) {f : Unit → Parser β}
    {z r : List Char} {b : β} (h : (token text >>= f) (z ++ w') = .ok b r) : Over w w' z := by
  obtain ⟨_, t, htoken, -⟩ := bind_eq_ok_iff.mp h
  exact over_of_stops ((token_eq_ok_iff.mp htoken).stops ht hc hname)

/-! ### Chains -/

/-- What the operands of chains have in common: they start as operands do, and where a digit stands
they do not miss. -/
structure OperandLike (p : Parser Expr) : Prop where
  advances : Advances p
  starts : ∀ {s r e}, p s = .ok e r → ∃ c, first s = some c ∧ startsOperand c
  digit : ∀ {d u}, d.isDigit → ∀ t, p (d :: u) ≠ .miss t

/-- Primary expressions are like operands. -/
theorem primary_operandLike : OperandLike primary where
  advances := primaryOf_advances expression_advances.trims
  starts h := (primaryOf_sound expression_advances expression_sound h).first
  digit {d u} hd t h := by
    obtain ⟨hspace, hslash⟩ := not_layout_of_isDigit hd
    have hskip := skip_cons_of_not_layout hspace hslash u
    have hdigits : Digits (d :: u) _ _ := digits_of_head? fun hno => hno d rfl hd
    have hfirst : first (d :: u) = some d := first_cons_of_not_layout hspace hslash u
    rw [primary_of_number ⟨d, hfirst, .inl hd⟩] at h
    have hafter : AfterLayout (d :: u) (signed false (d :: u)) := afterLayout_iff.mpr hskip
    rcases integer_of_digits hafter hdigits with ⟨v, hv⟩ | hfail
    · rw [orElse_ok (map_eq_ok_iff.mpr ⟨v, hv, rfl⟩)] at h
      cases h
    · have hint : (Expr.int <$> integer : Parser Expr) (d :: u) = .fail _ _ := bind_fail hfail
      rw [orElse_fail hint] at h
      cases h

/-- Chains of operands are like operands, since they start with one. -/
theorem OperandLike.chainOf {operand : Parser Expr} (h : OperandLike operand) (ops : List Operator) :
    OperandLike (chainOf ops operand) where
  advances := chainOf_advances ops h.advances
  starts hok := by
    obtain ⟨e, t, he, -⟩ := bind_eq_ok_iff.mp hok
    exact h.starts he
  digit {d u} hd t hmiss := by
    cases hoperand : operand (d :: u) with
    | ok e r =>
      rw [Parser.chainOf, bind_ok hoperand] at hmiss
      cases hlinks : many (linkOf ops operand) r with
      | ok links v => exact absurd ((bind_ok hlinks).symm.trans hmiss) nofun
      | miss v => exact manyWithin_ne_miss _ _ _ _ hlinks
      | fail fault v => exact absurd ((bind_fail hlinks).symm.trans hmiss) nofun
    | miss r => exact h.digit hd r hoperand
    | fail fault r =>
      rw [Parser.chainOf, bind_fail hoperand] at hmiss
      cases hmiss

/-- A slash before an operand is not the first of two: these would open a comment together, or no
operand would follow. -/
theorem ne_slash_of_slash {s t : List Char} {c : Char} (hs : skip s = '/' :: t)
    (hc : first t = some c) (hslash : c ≠ '/') (u : List Char) : t ≠ '/' :: u := by
  rintro rfl
  have hstop : skip ('/' :: '/' :: u) = '/' :: '/' :: u := by rw [← hs, skip_skip]
  have hnot : lineEnds u = false := by
    rw [Bool.eq_false_iff]
    intro hline
    rw [skip_comment hline] at hstop
    have hlength := (skipFrom_suffix true u).length_le
    rw [hstop, List.length_cons, List.length_cons] at hlength
    omega
  -- neither do the second slash and what comes after it open a comment
  have hopens : opensComment ('/' :: u) = false := by
    cases u with
    | nil => rfl
    | cons d u =>
      by_cases hd : d = '/'
      · subst hd
        have : lineEnds u = false := hnot
        simp [opensComment, this]
      · simp [opensComment, hd]
  rw [first, skip_cons_of_not (by decide) hopens] at hc
  exact hslash (Option.some.inj hc).symm

/-- A slash before an operand is the sign of a division in any text: what comes after it cannot open a
comment together with it. -/
theorem opensComment_slash (hw : Apart w') {s z : List Char} {c : Char}
    (hs : skip s = '/' :: (z ++ w)) (hc : first (z ++ w) = some c) (hslash : c ≠ '/') :
    opensComment ('/' :: (z ++ w')) = false := by
  cases hz : z ++ w' with
  | nil => rfl
  | cons d t =>
    have hd : d ≠ '/' := by
      have hhead : (z ++ w).head? ≠ some '/' := by
        intro heq
        obtain ⟨t, ht⟩ := List.head?_eq_some_iff.mp heq
        exact ne_slash_of_slash hs hc hslash t ht
      have := hw.head?_ne (by decide) hhead
      rw [hz] at this
      exact fun heq => this (congrArg some heq)
    simp [opensComment, hd]

section chains

variable {level : Nat} {operand : Parser Expr}

/-- A chain of operands is over before an operator of a lower level. -/
theorem overAt_of_link (hl : level < 3) {y t : List Char} {link : Operator × Expr}
    (h : linkOf (operatorsAt level) operand (y ++ w') = .ok link t) : OverAt w w' (level + 1) y := by
  obtain ⟨op, u, hop, -⟩ := bind_eq_ok_iff.mp h
  obtain ⟨hmem, hsymbol⟩ := operatorAmong_eq_ok hop
  intro op' t hlevel hsymbol'
  have heq := level_eq_of_symbol hsymbol hsymbol'
  rw [level_of_mem_operatorsAt hl hmem] at heq
  omega

/-- An operator before an operand is read alike. -/
theorem operatorAmong_keeps (hw : Apart w') (hl : level < 3) {y x : List Char} {op : Operator}
    {c : Char} (hop : operatorAmong (operatorsAt level) (y ++ w) = .ok op (x ++ w))
    (hc : first (x ++ w) = some c) (hstart : startsOperand c) :
    operatorAmong (operatorsAt level) (y ++ w') = .ok op (x ++ w') := by
  obtain ⟨hmem, hsymbol⟩ := operatorAmong_eq_ok hop
  have hsymbol' : Symbol op.symbol (y ++ w') (x ++ w') := by
    have hsymbolchars : (op = .divide) ∨ ∃ d ds, op.symbol.toList = d :: ds ∧ d ≠ '/' := by
      cases op
      case divide => exact .inl rfl
      all_goals exact .inr ⟨_, _, rfl, by decide⟩
    rcases hsymbolchars with rfl | ⟨d, ds, hd, hslash⟩
    · have hskip : skip (y ++ w) = '/' :: (x ++ w) := afterLayout_iff.mp hsymbol
      have hslash : c ≠ '/' := by
        rintro rfl
        exact absurd hstart (by decide)
      exact afterLayout_iff.mpr (skip_replace (opensComment_slash hw hskip hc hslash) hskip)
    · unfold Grammar.Symbol at hsymbol ⊢
      rw [hd] at hsymbol ⊢
      exact hsymbol.replace hslash w'
  have hequals : (x ++ w).head? ≠ some '=' := by
    intro heq
    obtain ⟨t, ht⟩ := List.head?_eq_some_iff.mp heq
    rw [ht, first_cons_of_not_layout (by decide) (by decide)] at hc
    cases hc
    exact absurd hstart (by decide)
  have hop' := operatorAmong_of_symbol hsymbol' (hw.head?_ne (by decide) hequals)
  rwa [level_of_mem_operatorsAt hl hmem] at hop'

/-- An operator and its operand are read alike. -/
theorem linkOf_local (hw : Apart w') (hl : level < 3) (ho : OperandLike operand)
    (h : LocalBelow w w' n Q operand) :
    LocalBelow w w' n Q (linkOf (operatorsAt level) operand) where
  trims := (linkOf_advances _ ho.advances.trims).trims
  keeps {y z link} hy hz hok := by
    obtain ⟨op, t, hop, hrest⟩ := bind_eq_ok_iff.mp hok
    obtain ⟨e, r, he, hpure⟩ := bind_eq_ok_iff.mp hrest
    obtain ⟨rfl, rfl⟩ := pure_eq_ok_iff.mp hpure
    obtain ⟨x, rfl⟩ := ho.advances.trims.exists_append he
    have hlt := (operatorAmong_advances _).shorter hop
    rw [List.length_append, List.length_append] at hlt
    obtain ⟨c, hc, hstart⟩ := ho.starts he
    exact (bind_ok (operatorAmong_keeps hw hl hop hc hstart)).trans
      (bind_ok (h.keeps (by omega) hz he))

/-- A chain that ends before one text ends before the other. -/
theorem linkOf_miss (hl : level < 3) (ho : OperandLike operand) {z : List Char}
    (hz : OverAt w w' level z) (h : ∃ t, linkOf (operatorsAt level) operand (z ++ w) = .miss t) :
    ∃ t, linkOf (operatorsAt level) operand (z ++ w') = .miss t := by
  have hnone : ∀ op ∈ operatorsAt level, ∀ t, ¬ Symbol op.symbol (z ++ w') t := by
    intro op hmem t hop
    obtain rfl := level_of_mem_operatorsAt hl hmem
    obtain ⟨d, u, hd, hsymbol⟩ := hz op t (Nat.le_refl _) hop
    have hequals : (d :: u).head? ≠ some '=' := by
      intro heq
      rw [Option.some.inj heq] at hd
      exact absurd hd (by decide)
    -- before the first text the digit would have been read as an operand
    obtain ⟨t, ht⟩ := h
    rw [linkOf, bind_ok (operatorAmong_of_symbol hsymbol hequals)] at ht
    cases hoperand : operand (d :: u) with
    | ok e r =>
      rw [bind_ok hoperand] at ht
      cases ht
    | miss r => exact ho.digit hd r hoperand
    | fail fault r =>
      rw [bind_fail hoperand] at ht
      cases ht
  obtain ⟨v, hv⟩ := operatorAmong_miss hnone
  exact ⟨v, bind_miss hv⟩

/-- A chain of operators is read alike if its operands are. -/
theorem chainOf_local (hw : Apart w') (hl : level < 3) (ho : OperandLike operand)
    (h : LocalBelow w w' n (OverAt w w' (level + 1)) operand) :
    LocalBelow w w' n (OverAt w w' level) (chainOf (operatorsAt level) operand) := by
  have hlink := linkOf_advances (operatorsAt level) ho.advances.trims
  have hlast : ∀ z, OverAt w w' level z → OverAt w w' (level + 1) z :=
    fun z hz => hz.mono (Nat.le_succ level)
  have links : LocalBelow w w' n (OverAt w w' level) (many (linkOf (operatorsAt level) operand)) :=
    (linkOf_local hw hl ho h).many hlink (fun z => linkOf_miss hl ho) hlast
      fun _ hok => overAt_of_link hl hok
  refine h.bind_of (fun first => links.bind_pure _) ?_
  intro first e y z hz _ hok
  obtain ⟨links, t, hlinks, hpure⟩ := bind_eq_ok_iff.mp hok
  obtain ⟨-, rfl⟩ := pure_eq_ok_iff.mp hpure
  rcases many_eq_ok_cases hlink hlinks with ⟨-, -, heq⟩ | ⟨_, _, _, hround, -, -⟩
  · rw [List.append_cancel_right heq]
    exact hlast z hz
  · exact overAt_of_link hl hround

end chains

end Parser

end Scriptlet
