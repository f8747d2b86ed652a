import Scriptlet.Proofs.Grammar.Follow
import Scriptlet.Proofs.Parser.Reaches

/-!
# What is derived is read

The parser tries alternatives in a fixed order, repeats as long as it can and commits itself. None
of this loses a text: where the grammar derives a tree, the parser gives a tree as well. It need not
be the same one, and the parser need not stop at the same place, so the statement that goes through
the induction is about places only, and says which context the parser reaches. The main statements:

* `expression_reaches`: if the grammar derives an expression up to a text of a context that is a
  `Follow`, the parser reaches that context.
* `definitions_reach`: if the grammar derives definitions up to the end of a text, the parser reaches
  the end.
* `accepts_exactly_the_grammar`: a tree is read only if it is derived, and a text is refused for its
  syntax only if no tree is derived from it.

The induction is on the length of the text; `CompleteBelow n` is its hypothesis.
-/

namespace Scriptlet

open Scriptlet.Text

namespace Parser

open Scriptlet.Grammar

variable {α : Type}

/-- Every expression that the grammar derives from a text shorter than `n` up to a text of a context
is read up to a text of that context. -/
def CompleteBelow (n : Nat) : Prop :=
  ∀ s, s.length < n → ∀ K, Follow K → ∀ r e, Expression s r e → K r → Reaches expression s K

/-! ### Operators and what follows a chain -/

/-- What follows a chain is a text of the context or an operator of a lower level. -/
theorem following_cases {K : List Char → Prop} {level : Nat} {r : List Char}
    (h : Following K level r) :
    K r ∨ ∃ (op : Operator) (t : List Char), op.level < level ∧ Symbol op.symbol r t := by
  induction level generalizing r with
  | zero => exact .inl h
  | succ level ih =>
    obtain ⟨links, t, hlinks, ht⟩ := h
    cases hlinks with
    | nil =>
      rcases ih ht with hr | ⟨op, u, hlt, hop⟩
      · exact .inl hr
      · exact .inr ⟨op, u, Nat.lt_succ_of_lt hlt, hop⟩
    | cons hlevel hop _ _ => exact .inr ⟨_, _, by omega, hop⟩

/-- Operators that start alike are of the same level. -/
theorem level_eq_of_symbol {op op' : Operator} {s r r' : List Char} (h : Symbol op.symbol s r)
    (h' : Symbol op'.symbol s r') : op.level = op'.level := by
  have hstart : ∀ op : Operator, ∃ c cs, op.symbol.toList = c :: cs ∧
      op.level = if c ∈ ['*', '/'] then 2 else if c ∈ ['+', '-'] then 1 else 0 := by
    intro op
    cases op <;> exact ⟨_, _, rfl, by decide⟩
  obtain ⟨c, cs, hc, hlevel⟩ := hstart op
  obtain ⟨c', cs', hc', hlevel'⟩ := hstart op'
  have heq : some c = some c' := (h.first hc).symm.trans (h'.first hc')
  rw [hlevel, hlevel', Option.some.inj heq]

/-- The only operator that may stand in a context is the minus sign. -/
theorem eq_subtract_of_follow {K : List Char → Prop} (hK : Follow K) {op : Operator}
    {r t : List Char} (hr : K r) (h : Symbol op.symbol r t) : op = .subtract := by
  have hstart : op = .subtract ∨ ∃ c cs, op.symbol.toList = c :: cs ∧ c ∈ operatorStarts := by
    cases op
    case subtract => exact .inl rfl
    all_goals exact .inr ⟨_, _, rfl, by decide⟩
  rcases hstart with hop | ⟨c, cs, hc, hmem⟩
  · exact hop
  · exact absurd hmem (hK.operator hr (h.first hc))

/-- An operand stands here: a primary expression or digits, and after it what may follow. Digits
need not be a literal, since their value may be out of range. -/
def OperandTo (K : List Char → Prop) (s : List Char) : Prop :=
  (∃ r e, Primary s r e ∧ Following K 3 r) ∨ ∃ r digits, Digits s r digits ∧ Following K 3 r

/-- A chain of any level is an operand with what follows it. -/
theorem operandTo_of_chain {K : List Char → Prop} {level : Nat} {s r : List Char} {e : Expr}
    (h : Chain level s r e) (hr : Following K level r) : OperandTo K s :=
  .inl (h.exists_primary_following hr)

/-- No equals sign stands before an operand, so that the operator there is as long as it looks. -/
theorem OperandTo.head?_ne {K : List Char → Prop} {s : List Char} (h : OperandTo K s) :
    s.head? ≠ some '=' := by
  cases s with
  | nil => nofun
  | cons c s =>
    intro heq
    obtain rfl : c = '=' := Option.some.inj heq
    rcases h with ⟨r, e, hp, -⟩ | ⟨r, digits, hd, -⟩
    · obtain ⟨d, hd, hstart⟩ := hp.first
      rw [first_cons_of_not_layout (by decide) (by decide)] at hd
      cases hd
      exact absurd hstart (by decide)
    · obtain ⟨d, t, hs, hdigit⟩ := hd.cons
      cases hs
      exact absurd hdigit (by decide)

section chains

variable {K : List Char → Prop} {n level : Nat} {operand : Parser Expr}

/-- Where something may follow an operand, a link of the chain is read, or there is none and the
chain is over. -/
theorem link_reaches (hK : Follow K) (hl : level < 3)
    (ho : ∀ s, s.length ≤ n → OperandTo K s → Reaches operand s (Following K (level + 1)))
    {s : List Char} (hs : s.length ≤ n) (h : Following K (level + 1) s) :
    ((∃ t, linkOf (operatorsAt level) operand s = .miss t) ∧ Following K level s) ∨
      Reaches (linkOf (operatorsAt level) operand) s (Following K (level + 1)) := by
  -- an operator of this level with an operand after it is read with its operand
  have read : ∀ {op : Operator} {u : List Char}, op.level = level → Symbol op.symbol s u →
      OperandTo K u → Reaches (linkOf (operatorsAt level) operand) s (Following K (level + 1)) := by
    rintro op u rfl hop hu
    have hok := operatorAmong_of_symbol hop hu.head?_ne
    have hlt := (operatorAmong_advances _).shorter hok
    refine .bind_of_ok hok ((ho u (by omega) hu).bind fun e r _ hr => ?_)
    exact .of_ok rfl hr
  obtain ⟨links, t, hlinks, ht⟩ := h
  cases hlinks with
  | cons hlevel hop hchain hrest =>
    exact .inr (read hlevel hop (operandTo_of_chain hchain ⟨_, _, hrest, ht⟩))
  | nil =>
    by_cases hany : ∃ op ∈ operatorsAt level, ∃ u, Symbol op.symbol s u
    · -- the operator can only be the minus sign of an integer that begins in the context
      obtain ⟨op, hmem, u, hop⟩ := hany
      have hlevel := level_of_mem_operatorsAt hl hmem
      have hr : K s := by
        rcases following_cases ht with hr | ⟨op', v, hlt, hop'⟩
        · exact hr
        · have := level_eq_of_symbol hop hop'
          omega
      obtain rfl := eq_subtract_of_follow hK hr hop
      obtain ⟨digits, v, hdigits, hv⟩ := hK.minus hr hop
      exact .inr (read hlevel hop (.inr ⟨v, digits, hdigits, hv⟩))
    · obtain ⟨v, hv⟩ := operatorAmong_miss fun op hop u hu => hany ⟨op, hop, u, hu⟩
      exact .inl ⟨⟨v, bind_miss hv⟩, ht⟩

/-- A chain of a level is read up to what may follow it, if its operands are. -/
theorem chain_reaches (level : Nat) (hK : Follow K) (hl : level < 3) (ha : Advances operand)
    (ho : ∀ s, s.length ≤ n → OperandTo K s → Reaches operand s (Following K (level + 1)))
    (s : List Char) (hs : s.length ≤ n) (h : OperandTo K s) :
    Reaches (chainOf (operatorsAt level) operand) s (Following K level) := by
  refine (ho s hs h).bind fun first r hok hr => ?_
  have hlt := ha.shorter hok
  have links : Reaches (many (linkOf (operatorsAt level) operand)) r (Following K level) :=
    .many (linkOf_advances _ ha.trims) (fun u hu => link_reaches hK hl ho hu) (by omega) hr
  exact links.bind fun _ t _ ht => .of_ok rfl ht

end chains

/-! ### Constructs over expressions -/

/-- More arguments and a closing parenthesis lead to a text. -/
def MoreArgumentsTo (t r : List Char) : Prop :=
  ∃ es u, MoreArguments r u es ∧ Symbol ")" u t

/-- An argument ends before the next comma or the closing parenthesis. -/
theorem MoreArgumentsTo.stops {t r : List Char} (h : MoreArgumentsTo t r) : Stops r := by
  obtain ⟨es, u, hmore, hclose⟩ := h
  cases hmore with
  | nil => exact hclose.stops rfl (by decide) (by decide)
  | cons hcomma _ _ => exact hcomma.stops rfl (by decide) (by decide)

section nested

variable {n : Nat} (ih : CompleteBelow n)

include ih

/-- An expression of a block is read up to the next one. -/
theorem item_reaches {s u t : List Char} {e : Expr} (hs : s.length < n) (he : Expression s u e)
    (hu : Tail t u) : Reaches (itemOf expression) s (ItemsTo t) := by
  refine (ih s hs _ (follow_tail t) u e he hu).bind fun f v _ hv => ?_
  rcases hv with hv | ⟨w, hsemi, hw⟩
  · have hmiss : ∃ x, token ";" v = .miss x := by
      refine token_miss ";" rfl fun hfirst => ?_
      rcases ItemsTo.cases_iff.mp hv with hclose | ⟨f, w, hf, -⟩
      · rw [hclose.first rfl] at hfirst
        cases hfirst
      · obtain ⟨c, hc, hstart⟩ := hf.first
        rw [hc] at hfirst
        cases hfirst
        exact absurd hstart (by decide)
    obtain ⟨x, hx⟩ := hmiss
    exact .bind_of_ok (optional_miss hx) (.of_ok rfl hv)
  · exact .bind_of_ok (optional_ok (token_eq_ok_iff.mpr hsemi)) (.of_ok rfl hw)

/-- A block is read up to its closing brace. -/
theorem block_reaches {s r : List Char} {b : Block} (hs : s.length ≤ n) (h : Braces s r b) :
    Reaches block s (· = r) := by
  cases h with
  | @braces _ s₁ s₂ _ _ hopen hitems hclose =>
    have hopen := token_eq_ok_iff.mpr hopen
    have hlt := (token_advances (by decide)).shorter hopen
    have items : Reaches (many (itemOf expression)) s₁ fun u => Symbol "\x7d" u r := by
      refine .many (I := ItemsTo r) (n := s₁.length) (itemOf_advances expression_advances)
        (fun u hu h => ?_) (Nat.le_refl _) ⟨_, _, hitems, hclose⟩
      rcases ItemsTo.cases_iff.mp h with hclose | ⟨e, v, he, htail⟩
      · obtain ⟨t, ht⟩ := expression_miss_of_first (hclose.first rfl) (by decide)
        exact .inl ⟨⟨t, bind_miss ht⟩, hclose⟩
      · exact .inr (item_reaches ih (by omega) he htail)
    refine .bind_of_ok hopen (.committed (items.bind fun b u _ hu => ?_))
    exact .bind_of_ok (token_eq_ok_iff.mpr hu) (.of_ok rfl rfl)

/-- An expression before a text that stops it is read up to this text. -/
theorem expression_reaches_stop {s r : List Char} {e : Expr} (hs : s.length < n)
    (he : Expression s r e) (hr : Stops r) : Reaches expression s (· = r) :=
  ih s hs _ (follow_of_stops hr) r e he rfl

/-- An argument is read up to the next comma or the closing parenthesis. -/
theorem argument_reaches {s u r : List Char} {e : Expr} (hs : s.length < n) (he : Expression s u e)
    (hu : MoreArgumentsTo r u) : Reaches expression s (MoreArgumentsTo r) := by
  refine (expression_reaches_stop ih hs he hu.stops).mono fun v hv => ?_
  subst hv
  exact hu

/-- Arguments are read up to a closing parenthesis. -/
theorem arguments_reach {s u r : List Char} {es : List Expr} (hs : s.length < n)
    (h : Arguments s u es) (hclose : Symbol ")" u r) :
    Reaches (separated expression (token ",")) s fun v => Symbol ")" v r := by
  refine .separated (I := MoreArgumentsTo r) expression_advances ?_ ?_ (Nat.le_of_lt hs) ?_
  · exact fun u hu => expression_miss_of_first hu (by decide)
  · rintro u _ ⟨es, v, hmore, hclose⟩
    cases hmore with
    | nil => exact .inl hclose
    | cons hcomma he hmore =>
      exact .inr ⟨_, hcomma, fun hlt => argument_reaches ih hlt he ⟨_, _, hmore, hclose⟩⟩
  · cases h with
    | none => exact .inl hclose
    | some he hmore => exact .inr (argument_reaches ih hs he ⟨_, _, hmore, hclose⟩)

/-- A call is read up to its closing parenthesis. -/
theorem call_reaches {s s₁ s₂ r : List Char} {f : String} {es : List Expr} (hs : s.length ≤ n)
    (hname : Name s ('(' :: s₁) f) (hes : Arguments s₁ s₂ es) (hclose : Symbol ")" s₂ r) :
    Reaches primary s (· = r) := by
  have hok := identifier_eq_ok_iff.mpr hname
  have hlt := identifier_advances.shorter hok
  rw [List.length_cons] at hlt
  refine .of_eq (primary_of_call hname) (.bind_of_ok hok ?_)
  refine .bind_of_ok (literal_eq_ok_iff.mpr rfl) (.committed ?_)
  refine (arguments_reach ih (by omega) hes hclose).bind fun as u _ hu => ?_
  exact .bind_of_ok (token_eq_ok_iff.mpr hu) (.of_ok rfl rfl)

/-- An operand is read up to what may follow it. -/
theorem primary_reaches {K : List Char → Prop} (hK : Follow K) (s : List Char) (hs : s.length ≤ n)
    (h : OperandTo K s) : Reaches primary s (Following K 3) := by
  rcases h with ⟨r, e, hp, hr⟩ | ⟨r, digits, hd, hr⟩
  · cases hp with
    | parenthesized hopen he hclose =>
      have hok := token_eq_ok_iff.mpr hopen
      have hlt := (token_advances (by decide)).shorter hok
      refine .of_eq (primary_of_parenthesis hopen) (.bind_of_ok hok (.committed ?_))
      have hstops := hclose.stops rfl (by decide) (by decide)
      refine (expression_reaches_stop ih (by omega) he hstops).bind fun f u _ hu => ?_
      subst hu
      exact .bind_of_ok (token_eq_ok_iff.mpr hclose) (.of_ok rfl hr)
    | print hword hopen he hclose =>
      have hok := keyword_eq_ok_iff.mpr hword
      have hlt := (keyword_advances .print).shorter hok
      have hopen := token_eq_ok_iff.mpr hopen
      have hlt' := (token_advances (by decide)).shorter hopen
      refine .of_eq (primary_of_print hword) (.bind_of_ok hok (.committed ?_))
      have hstops := hclose.stops rfl (by decide) (by decide)
      refine .bind_of_ok hopen ?_
      refine (expression_reaches_stop ih (by omega) he hstops).bind fun f u _ hu => ?_
      subst hu
      exact .bind_of_ok (token_eq_ok_iff.mpr hclose) (.of_ok rfl hr)
    | call hname hes hclose =>
      refine (call_reaches ih hs hname hes hclose).mono fun u hu => ?_
      exact hu ▸ hr
    | integer hv =>
      refine .of_eq (primary_of_number hv.first) (.orElse_left (.map ?_ _))
      exact .of_ok (integer_eq_ok_iff.mpr hv) hr
    | var hx =>
      by_cases hparen : r.head? = some '('
      · -- the parser takes the parenthesis after the name for that of a call
        obtain ⟨t, rfl⟩ : ∃ t, r = '(' :: t := List.head?_eq_some_iff.mp hparen
        have hcontext : K ('(' :: t) := by
          rcases following_cases hr with h | ⟨op, u, -, hop⟩
          · exact h
          · have hparen : first ('(' :: t) = some '(' :=
              first_cons_of_not_layout (by decide) (by decide) t
            exfalso
            cases op <;> (rw [hop.first rfl] at hparen; cases hparen)
        obtain ⟨r₁, e, r₂, he, hclose, hr₂⟩ := hK.call hcontext
        refine (call_reaches ih hs hx (.some he .nil) hclose).mono fun u hu => ?_
        exact hu ▸ hr₂
      · exact .of_ok (primary_of_name hx hparen) hr
  · have hskip : AfterLayout s (signed false s) := by
      obtain ⟨d, t, rfl, hdigit⟩ := hd.cons
      obtain ⟨hspace, hslash⟩ := not_layout_of_isDigit hdigit
      exact afterLayout_iff.mpr (skip_cons_of_not_layout hspace hslash t)
    have hfirst : ∃ c, Grammar.first s = some c ∧ (c.isDigit ∨ c = '-') := by
      obtain ⟨d, t, rfl, hdigit⟩ := hd.cons
      exact ⟨d, first_of_afterLayout hskip, .inl hdigit⟩
    refine .of_eq (primary_of_number hfirst) (.orElse_left (.map ?_ _))
    rcases integer_of_digits hskip hd with ⟨v, hv⟩ | hfail
    · exact .of_ok hv hr
    · exact .inr ⟨_, hfail⟩

omit ih in
/-- A condition ends before the brace of the block after it. -/
theorem stops_of_braces {s r : List Char} {b : Block} (h : Braces s r b) : Stops s := by
  obtain ⟨t, hopen⟩ := h.exists_brace
  exact hopen.stops rfl (by decide) (by decide)

omit ih in
/-- A comparison does not look like an assignment: no assignment sign stands after its first name. -/
theorem not_sign_of_primary {K : List Char → Prop}
    (hK : ∀ {r c}, K r → first r = some c → c ∉ operatorStarts) {s t u v : List Char} {x : String}
    {e : Expr} (hp : Primary s u e) (hu : Following K 3 u) (hx : Name s t x) : ¬ Sign t v := by
  intro hsign
  have hfirst := hsign.first
  cases hp with
  | parenthesized hopen _ _ =>
    exact not_symbol_of_isNameStart "(" hx.first rfl (by decide) _ hopen
  | print hword _ _ _ => exact hword.not_name hx
  | call hf _ _ =>
    obtain ⟨-, rfl⟩ := hx.unique hf
    rw [first_cons_of_not_layout (by decide) (by decide)] at hfirst
    cases hfirst
  | integer hv =>
    obtain ⟨c, hc, hstart⟩ := hx.first
    exact absurd (of_first hc hv.first) (not_number_of_isNameStart hstart)
  | var hy =>
    obtain ⟨-, rfl⟩ := hx.unique hy
    rcases following_cases hu with hr | ⟨op, w, -, hop⟩
    · exact absurd (by decide) (hK hr hfirst)
    · have heq : op = .equal := by
        cases op
        case equal => rfl
        all_goals
          rw [hop.first rfl] at hfirst
          cases hfirst
      subst heq
      have hcons : '=' :: v = '=' :: '=' :: w := hsign.1.unique hop
      obtain rfl := (List.cons.inj hcons).2
      exact hsign.2 rfl

omit ih in
/-- Where operands with operators between them stand before a text that starts like no operator, an
expression is a comparison. -/
theorem expression_of_chain {K : List Char → Prop}
    (hK : ∀ {r c}, K r → first r = some c → c ∉ operatorStarts) {s r : List Char} {e : Expr}
    (h : Chain 0 s r e) (hr : K r) : expression s = comparison s := by
  obtain ⟨u, f, hp, hu⟩ := h.exists_primary_following hr
  refine expression_of_comparison ?_ ?_ ?_ ?_
  · exact fun t hw => absurd (hw.eq_print hp) (by decide)
  · exact fun t hw => absurd (hw.eq_print hp) (by decide)
  · obtain ⟨c, hc, hstart⟩ := hp.first
    rw [hc]
    intro heq
    cases heq
    exact absurd hstart (by decide)
  · exact fun t x hx v => not_sign_of_primary hK hp hu hx

/-- Operands with operators between them are read up to a text of the context. -/
theorem comparison_reaches {K : List Char → Prop} (hK : Follow K) {s r : List Char} {e : Expr}
    (hs : s.length ≤ n) (h : Chain 0 s r e) (hr : K r) : Reaches comparison s K := by
  have hprimary := primaryOf_advances expression_advances.trims
  have product := chain_reaches (n := n) 2 hK (by decide) hprimary
    fun s hs h => primary_reaches ih hK s hs h
  have sum := chain_reaches 1 hK (by decide) (chainOf_advances _ hprimary) product
  exact chain_reaches 0 hK (by decide) (chainOf_advances _ (chainOf_advances _ hprimary))
    sum s hs (operandTo_of_chain h hr)

/-- A condition and the block after it are read, and then what is left of the construct. -/
theorem condition_and_block_reach {K : List Char → Prop} {k : Expr → Block → Parser α}
    {s t r : List Char} {c : Expr} {b : Block} (hs : s.length ≤ n) (hc : Chain 0 s t c)
    (hb : Braces t r b) (hk : ∀ c b, r.length < n → Reaches (k c b) r K) :
    Reaches (comparison >>= fun c => block >>= fun b => k c b) s K := by
  have hcond := comparison_reaches ih (follow_of_stops (stops_of_braces hb)) hs hc rfl
  refine hcond.bind fun c' u hu heq => ?_
  subst heq
  have hlt := (comparisonOf_advances expression_advances.trims).shorter hu
  refine (block_reaches ih (by omega) hb).bind fun b' v hv heq => ?_
  subst heq
  have hlt' := block_advances.shorter hv
  exact hk c' b' (by omega)

/-- A conditional is read up to a text of the context. -/
theorem conditional_reaches {K : List Char → Prop} (hK : Follow K) {s r : List Char} {e : Expr}
    (hs : s.length ≤ n) (h : Conditional s r e) (hr : K r) : Reaches conditional s K := by
  -- the condition, the first block and then what is left of the conditional
  have start : ∀ {s₁ s₂ s₃ : List Char} {c : Expr} {b : Block}, Word .conditional s s₁ →
      Chain 0 s₁ s₂ c → Braces s₂ s₃ b →
      (s₃.length < n → Reaches (optional (otherwiseOf expression)) s₃ K) →
      Reaches conditional s K := by
    intro s₁ s₂ s₃ c b hword hc hb hrest
    have hok := keyword_eq_ok_iff.mpr hword
    have hlt := (keyword_advances .conditional).shorter hok
    refine .bind_of_ok hok (.committed ?_)
    refine condition_and_block_reach ih (by omega) hc hb fun c' b' hlt' => ?_
    refine (hrest hlt').bind fun o w _ hw => ?_
    cases o with
    | none => exact .of_ok rfl hw
    | some d => exact .of_ok rfl hw
  cases h with
  | ifThen hword hc hb =>
    refine start hword hc hb fun _ => ?_
    obtain ⟨t, ht⟩ := keyword_bind_miss (fun _ => _) fun t => hK.otherwise (t := t) hr
    exact .of_ok (optional_miss ht) hr
  | ifElse hword hc hb helse hd =>
    refine start hword hc hb fun hlt => .optional ?_
    have hok := keyword_eq_ok_iff.mpr helse
    have hlt' := (keyword_advances .otherwise).shorter hok
    refine .bind_of_ok hok (.committed (.orElse_left ?_))
    exact (block_reaches ih (by omega) hd).mono fun u hu => hu ▸ hr
  | elseIf hword hc hb helse hif =>
    refine start hword hc hb fun hlt => .optional ?_
    have hok := keyword_eq_ok_iff.mpr helse
    have hlt' := (keyword_advances .otherwise).shorter hok
    obtain ⟨t, hwordif⟩ := hif.exists_word
    refine .bind_of_ok hok (.committed (.orElse_right ?_ ?_))
    · exact token_bind_miss _ (not_symbol_of_isNameStart "\x7b" hwordif.first rfl (by decide))
    refine .bind_of_ok (ahead_ok (keyword_eq_ok_iff.mpr hwordif)) ?_
    have hexpr := ih _ (by omega) K hK r _ (.conditional hif) hr
    exact hexpr.bind fun _ _ _ hu => .of_ok rfl hu

/-- A loop is read up to its end. -/
theorem loop_reaches {s r : List Char} {e : Expr} (hs : s.length ≤ n) (h : Loop s r e) :
    Reaches loop s (· = r) := by
  cases h with
  | whileDo hword hc hb =>
    have hok := keyword_eq_ok_iff.mpr hword
    have hlt := (keyword_advances .loop).shorter hok
    refine .bind_of_ok hok (.committed ?_)
    exact condition_and_block_reach ih (by omega) hc hb fun c b _ => .of_ok rfl rfl

/-- An expression is read up to a text of the context. -/
theorem expression_reaches_of_below {K : List Char → Prop} (hK : Follow K) {s r : List Char}
    {e : Expr} (hs : s.length ≤ n) (h : Expression s r e) (hr : K r) : Reaches expression s K := by
  cases h with
  | conditional h =>
    obtain ⟨t, hword⟩ := h.exists_word
    exact .of_eq (expression_of_conditional hword) (conditional_reaches ih hK hs h hr)
  | loop h =>
    obtain ⟨t, hword⟩ := h.exists_word
    refine .of_eq (expression_of_loop hword) ?_
    exact (loop_reaches ih hs h).mono fun u hu => hu ▸ hr
  | block h =>
    obtain ⟨t, hopen⟩ := h.exists_brace
    refine .of_eq (expression_of_brace hopen) (.map ?_ _)
    exact (block_reaches ih hs h).mono fun u hu => hu ▸ hr
  | assignment h =>
    cases h with
    | assign hx hsign he =>
      have hok := identifier_eq_ok_iff.mpr hx
      have hlt := identifier_advances.shorter hok
      have hsign := assignSign_eq_ok_iff.mpr hsign
      have hlt' := assignSign_advances.shorter hsign
      refine .of_eq (expression_of_name hx) (.orElse_left ?_)
      refine .bind_of_ok hok (.bind_of_ok hsign ?_)
      exact (ih _ (by omega) K hK r _ he hr).bind fun _ _ _ hu => .of_ok rfl hu
  | comparison h =>
    exact .of_eq (expression_of_chain hK.operator h hr) (comparison_reaches ih hK hs h hr)

end nested

/-! ### Expressions and programs -/

/-- Parsing is complete on texts of every length, by induction on the length. -/
theorem completeBelow (n : Nat) : CompleteBelow n := by
  induction n with
  | zero => exact fun s hs => absurd hs (Nat.not_lt_zero _)
  | succ n ih =>
    intro s hs K hK r e he hr
    exact expression_reaches_of_below ih hK (Nat.lt_succ_iff.mp hs) he hr

/-- An expression that is derived up to a text of a context is read up to a text of the context. -/
theorem expression_reaches {K : List Char → Prop} (hK : Follow K) {s r : List Char} {e : Expr}
    (h : Expression s r e) (hr : K r) : Reaches expression s K :=
  completeBelow (s.length + 1) s (Nat.lt_succ_self _) K hK r e h hr

/-- More names and a closing parenthesis lead to a text. -/
def MoreNamesTo (t r : List Char) : Prop :=
  ∃ xs u, MoreNames r u xs ∧ Symbol ")" u t

/-- Names are read up to a closing parenthesis. -/
theorem names_reach {s u r : List Char} {xs : List String} (h : Names s u xs)
    (hclose : Symbol ")" u r) :
    Reaches (separated identifier (token ",")) s fun v => Symbol ")" v r := by
  have name : ∀ {s t : List Char} {x : String}, Name s t x → MoreNamesTo r t →
      Reaches identifier s (MoreNamesTo r) :=
    fun hx ht => .of_ok (identifier_eq_ok_iff.mpr hx) ht
  refine .separated (I := MoreNamesTo r) (n := s.length) identifier_advances ?_ ?_ (Nat.le_refl _) ?_
  · exact fun u hu => identifier_miss_of_first hu (by decide)
  · rintro u _ ⟨xs, v, hmore, hclose⟩
    cases hmore with
    | nil => exact .inl hclose
    | cons hcomma hx hmore => exact .inr ⟨_, hcomma, fun _ => name hx ⟨_, _, hmore, hclose⟩⟩
  · cases h with
    | none => exact .inl hclose
    | some hx hmore => exact .inr (name hx ⟨_, _, hmore, hclose⟩)

/-- Parameters are read up to their closing parenthesis. -/
theorem parameters_reach {s t u r : List Char} {xs : List String} (hopen : Symbol "(" s t)
    (h : Names t u xs) (hclose : Symbol ")" u r) : Reaches parameters s (· = r) := by
  refine .bind_of_ok (token_eq_ok_iff.mpr hopen) ?_
  refine (names_reach h hclose).bind fun xs u _ hu => ?_
  exact .bind_of_ok (token_eq_ok_iff.mpr hu) (.of_ok rfl rfl)

/-- A definition before a text that stops an expression is read up to this text. -/
theorem definition_reaches {s r : List Char} {d : Definition} (h : TopLevel s r d) (hr : Stops r) :
    Reaches definition s (· = r) := by
  cases h with
  | function hword hname hopen hnames hclose hb =>
    refine .orElse_left (.bind_of_ok (keyword_eq_ok_iff.mpr hword) (.committed ?_))
    refine .bind_of_ok (identifier_eq_ok_iff.mpr hname) ?_
    refine (parameters_reach hopen hnames hclose).bind fun xs u _ heq => ?_
    subst heq
    refine (block_reaches (completeBelow _) (Nat.le_refl _) hb).bind fun b v _ hv => ?_
    exact .of_ok rfl hv
  | global hword hx hsign he =>
    refine .orElse_right ?_ ?_
    · exact keyword_bind_miss _ fun t hw => absurd (hw.keyword_eq hword) (by decide)
    refine .bind_of_ok (keyword_eq_ok_iff.mpr hword) (.committed ?_)
    refine .bind_of_ok (identifier_eq_ok_iff.mpr hx) ?_
    refine .bind_of_ok (assignSign_eq_ok_iff.mpr hsign) ?_
    exact (expression_reaches (follow_of_stops hr) he rfl).bind fun _ _ _ hu => .of_ok rfl hu

/-- Definitions that are derived up to layout at the end of a text are read up to such layout. -/
theorem definitions_reach {s rest : List Char} {ds : List Definition} (h : Definitions s rest ds)
    (hrest : Layout rest []) : Reaches (many definition) s fun r => skip r = [] := by
  have stops : ∀ {r : List Char}, (∃ ds rest, Definitions r rest ds ∧ Layout rest []) → Stops r := by
    rintro r ⟨ds, rest, hds, hrest⟩
    cases hds with
    | nil => exact stops_of_layout (skip_eq_of_layout hrest)
    | cons hd _ =>
      cases hd with
      | function hword _ _ _ _ _ => exact hword.stops (by decide)
      | global hword _ _ _ => exact hword.stops (by decide)
  refine .many (I := fun r => ∃ ds rest, Definitions r rest ds ∧ Layout rest []) (n := s.length)
    definition_advances (fun r hr h => ?_) (Nat.le_refl _) ⟨ds, rest, h, hrest⟩
  obtain ⟨ds, rest, hds, hrest⟩ := h
  cases hds with
  | nil =>
    have hskip : skip r = [] := skip_eq_of_layout hrest
    exact .inl ⟨definition_miss hskip, hskip⟩
  | cons hd hds =>
    have hto : ∃ ds rest, Definitions _ rest ds ∧ Layout rest [] := ⟨_, _, hds, hrest⟩
    refine .inr ((definition_reaches hd (stops hto)).mono fun u hu => ?_)
    subst hu
    exact hto

/-- A whole text whose reader comes to the end, but for an integer out of range, is refused only for
that integer. -/
theorem readAll_of_reaches {p : Parser α} {leftOver : List Char → ParseError} {source : List Char}
    (h : Reaches p source (· = [])) :
    (∃ a, p.readAll leftOver source = .ok a) ∨
      ∃ position literal,
        p.readAll leftOver source = .error (.integerOutOfRange position literal) := by
  rcases h with ⟨a, r, hok, rfl⟩ | ⟨r, hfail⟩
  · exact .inl ⟨a, readAll_eq_ok_iff.mpr hok⟩
  · refine .inr ⟨Position.ofRest source r, ParseError.integerAt r, ?_⟩
    simp only [readAll, hfail]
    rfl

/-- A text from which a program is derived is read, or has an integer out of range. -/
theorem program_complete {source : List Char} {p : Program} (h : DerivesProgram source p) :
    (∃ q, Program.parse source = .ok q) ∨
      ∃ position literal, Program.parse source = .error (.integerOutOfRange position literal) := by
  obtain ⟨rest, hds, hrest⟩ := h
  refine readAll_of_reaches ((definitions_reach hds hrest).bind fun ds r _ hr => ?_)
  exact .bind_of_ok (p := layout) rfl (.of_ok rfl hr)

/-- A text from which an expression is derived is read, or has an integer out of range. -/
theorem expr_complete {source : List Char} {e : Expr} (h : DerivesExpr source e) :
    (∃ f, Expr.parse source = .ok f) ∨
      ∃ position literal, Expr.parse source = .error (.integerOutOfRange position literal) := by
  obtain ⟨rest, he, hrest⟩ := h
  have hskip : skip rest = [] := skip_eq_of_layout hrest
  have hfollow := follow_of_stops (stops_of_layout hskip)
  refine readAll_of_reaches ((expression_reaches hfollow he rfl).bind fun f r _ hr => ?_)
  subst hr
  exact .bind_of_ok (p := layout) rfl (.of_ok rfl hskip)

/-- The errors about the form of a text, as opposed to the value of an integer in it. -/
def isSyntactic : ParseError → Bool
  | .unexpected _ _ | .notADefinition _ => true
  | .integerOutOfRange _ _ => false

/-- A text is read as a tree that the grammar derives from it, and refused for its form only if the
grammar derives none, for programs and for expressions. -/
theorem accepts_exactly_the_grammar (source : List Char) :
    ((∀ p, Program.parse source = .ok p → DerivesProgram source p) ∧
      ∀ error, Program.parse source = .error error → isSyntactic error →
        ¬ ∃ p, DerivesProgram source p) ∧
    ((∀ e, Expr.parse source = .ok e → DerivesExpr source e) ∧
      ∀ error, Expr.parse source = .error error → isSyntactic error →
        ¬ ∃ e, DerivesExpr source e) := by
  refine ⟨⟨fun p => program_sound, ?_⟩, ⟨fun e => expr_sound, ?_⟩⟩
  · rintro error herror hsyntactic ⟨p, hp⟩
    rcases program_complete hp with ⟨q, hq⟩ | ⟨position, literal, hq⟩
    · rw [hq] at herror
      cases herror
    · rw [hq] at herror
      cases herror
      cases hsyntactic
  · rintro error herror hsyntactic ⟨e, he⟩
    rcases expr_complete he with ⟨f, hf⟩ | ⟨position, literal, hf⟩
    · rw [hf] at herror
      cases herror
    · rw [hf] at herror
      cases herror
      cases hsyntactic

end Parser

end Scriptlet
