import Scriptlet.Proofs.Locality.Chains
import Scriptlet.Proofs.Printer.Operand

/-!
# Expressions before one text and before another

What a construct reads is the same before two texts if the expressions in it are read alike and it is
over in both (`block_local`, `primary_local`, `conditional_local`, …). The alternatives that came
before the right one had missed before the first text; before the second they miss because the first
tokens of the construct rule them out, see `Scriptlet.Proofs.Parser.Dispatch`.

* `expression_local`: expressions are read alike before two texts, by induction on their length.
* `definitions_local`: so are definitions, up to the end of the second text.
-/

namespace Scriptlet

open Scriptlet.Text
open Scriptlet.Grammar

namespace Parser

variable {α : Type} {w w' : List Char} {n : Nat} {Q Q₁ : List Char → Prop}

/-! ### Items with something between them -/

/-- An expression is over before a character that closes a construct or separates its parts. -/
theorem over_of_first {z : List Char} {c : Char} (h : first (z ++ w') = some c) (hc : c ∈ closers) :
    Over w w' z :=
  over_of_stops (stops_of_closer h hc)

/-- Items with commas between them are read alike up to a closing parenthesis, if the items are read
alike up to a comma or a closing parenthesis. -/
theorem LocalBelow.separated {item : Parser α} (hi : LocalBelow w w' n Q₁ item) (ha : Advances item)
    (hmiss : ∀ u, first u = some ')' → ∃ t, item u = .miss t)
    (hQ : ∀ z, first (z ++ w') = some ')' ∨ first (z ++ w') = some ',' → Q₁ z) :
    LocalBelow w w' n (fun z => first (z ++ w') = some ')') (separated item (token ",")) := by
  have more : LocalBelow w w' n Q₁ (moreOf item) :=
    (token_local rfl (by decide)).bind fun _ => hi
  have comma : ∀ {y t : List Char} {a : α}, moreOf item (y ++ w') = .ok a t → Q₁ y := by
    intro y t a h
    obtain ⟨_, u, hcomma, -⟩ := bind_eq_ok_iff.mp h
    exact hQ y (.inr ((token_eq_ok_iff.mp hcomma).first rfl))
  have nocomma : ∀ z, first (z ++ w') = some ')' → ∃ t, moreOf item (z ++ w') = .miss t := by
    intro z hz
    obtain ⟨t, ht⟩ := token_miss "," rfl (by rw [hz]; decide)
    exact ⟨t, bind_miss ht⟩
  have mores := more.many (Q := fun z => first (z ++ w') = some ')') (moreOf_advances ha.trims)
    (fun z hz _ => nocomma z hz) (fun z hz => hQ z (.inl hz)) fun _ h => comma h
  have items : LocalBelow w w' n (fun z => first (z ++ w') = some ')')
      (do let a ← item; let as ← Parser.many (moreOf item); return a :: as) := by
    refine hi.bind_of (fun a => mores.bind_pure (a :: ·)) ?_
    intro a as y z hz _ h
    obtain ⟨bs, t, hbs, hpure⟩ := bind_eq_ok_iff.mp h
    obtain ⟨-, rfl⟩ := pure_eq_ok_iff.mp hpure
    rcases many_eq_ok_cases (moreOf_advances ha.trims) hbs with ⟨-, -, heq⟩ | ⟨_, _, _, hb, -, -⟩
    · exact hQ y (.inl (List.append_cancel_right heq ▸ hz))
    · exact comma hb
  refine ⟨ha.trims.separated (token_advances (by decide)).trims, fun {y z as} hy hz h => ?_⟩
  rw [separated_comma] at h ⊢
  rcases orElse_eq_ok_iff.mp h with h | ⟨-, h⟩
  · exact orElse_ok (items.keeps hy hz h)
  · obtain ⟨rfl, heq⟩ := pure_eq_ok_iff.mp h
    obtain rfl := List.append_cancel_right heq
    obtain ⟨t, ht⟩ := hmiss _ hz
    exact orElse_miss (bind_miss ht)

/-! ### Constructs over expressions -/

/-- In the second text an expression of a block is over and no semicolon stands here. -/
structure Resumes (w w' z : List Char) : Prop where
  chainEnds : Over w w' z
  semicolon : first (z ++ w') ≠ some ';'

/-- Before a closing brace the last expression of a block is over. -/
theorem resumes_of_brace {z t : List Char} (h : Symbol "\x7d" (z ++ w') t) : Resumes w w' z where
  chainEnds := over_of_first (h.first rfl) (by decide)
  semicolon := by
    rw [h.first rfl]
    decide

/-- Before another expression, which starts with the same character in both texts, an expression is
over; a minus sign must stand before a digit in the first text. -/
theorem resumes_of_start {y u r : List Char} {c : Char} {f : Expr}
    (hskip : skip (y ++ w) = c :: (u ++ w)) (hstart : startsExpression c)
    (hminus : c = '-' → ∃ d v, d.isDigit ∧ u ++ w = d :: v)
    (h' : expression (y ++ w') = .ok f r) : Resumes w w' y := by
  have hslash : c ≠ '/' := by
    rintro rfl
    exact absurd hstart (by decide)
  have hskip' : skip (y ++ w') = c :: (u ++ w') := skip_replace (opensComment_of_ne hslash _) hskip
  have hc : first (y ++ w') = some c := by rw [first, hskip']; rfl
  refine ⟨⟨fun {d} hd hmem => ?_, fun {t} ht => ?_, fun t hw =>
    (expression_sound h').not_otherwise hw⟩, ?_⟩
  · have key : ∀ c ∈ operatorStarts, ¬ startsExpression c := forall_mem_of_all (by decide)
    rw [hc] at hd
    exact key c (Option.some.inj hd ▸ hmem) hstart
  · obtain rfl : c = '-' := Option.some.inj (hc.symm.trans (first_of_afterLayout ht))
    obtain ⟨d, v, hd, hu⟩ := hminus rfl
    refine ⟨d, v, hd, afterLayout_iff.mpr ?_⟩
    rw [hskip, hu]
  · rw [hc]
    rintro heq
    rw [Option.some.inj heq] at hstart
    exact absurd hstart (by decide)

/-- What is read at a minus sign is a negative integer. -/
theorem digit_of_expression {s t r : List Char} {e : Expr} (h : expression s = .ok e r)
    (hs : skip s = '-' :: t) : ∃ d v, d.isDigit ∧ t = d :: v := by
  have hafter : AfterLayout s ('-' :: t) := afterLayout_iff.mpr hs
  have hfirst := first_of_afterLayout hafter
  obtain ⟨_, _, hp⟩ :=
    ((expression_sound h).chain_of_first hfirst (by decide) (by decide)).exists_primary
  obtain ⟨v, digits, hv, hdigits⟩ := hp.exists_digits hfirst
  obtain ⟨-, rfl⟩ := List.cons.inj (AfterLayout.unique hafter hv)
  obtain ⟨d, v, rfl, hd⟩ := hdigits.cons
  exact ⟨d, v, hd, rfl⟩

/-- Before another expression an expression is over, since whatever it could have gone on with before
the second text, it could have gone on with before the first. -/
theorem resumes_of_expression {y z r : List Char} {e f : Expr}
    (h : expression (y ++ w) = .ok e (z ++ w)) (h' : expression (y ++ w') = .ok f r) :
    Resumes w w' y := by
  obtain ⟨c, u, hskip⟩ := expression_ignoresLayout.exists_cons expression_advances h
  rw [← List.append_assoc] at hskip
  obtain ⟨d, hd, hstart⟩ := (expression_sound h).first
  rw [first, hskip] at hd
  obtain rfl : c = d := Option.some.inj hd
  exact resumes_of_start hskip hstart (fun heq => digit_of_expression h (heq ▸ hskip)) h'

section nested

variable (ih : LocalBelow w w' n (Over w w') expression)

include ih

/-- An expression of a block is read alike before another one and before the closing brace. -/
theorem item_local : LocalBelow w w' n (Resumes w w') (itemOf expression) := by
  have semicolon : LocalBelow w w' n (Resumes w w') (optional (token ";")) :=
    (token_local rfl (by decide)).optional fun z hz => token_miss ";" rfl hz.semicolon
  refine ih.bind_of (fun e => semicolon.bind_pure fun _ => e) ?_
  intro e f y z hz _ h
  obtain ⟨o, t, ho, hpure⟩ := bind_eq_ok_iff.mp h
  obtain ⟨-, rfl⟩ := pure_eq_ok_iff.mp hpure
  rcases optional_eq_ok_iff.mp ho with ⟨_, hsemi, -⟩ | ⟨-, -, heq⟩
  · exact over_of_first ((token_eq_ok_iff.mp hsemi).first rfl) (by decide)
  · rw [List.append_cancel_right heq]
    exact hz.chainEnds

/-- The expressions of a block are read alike up to the closing brace. -/
theorem items_local : LocalBelow w w' n (fun z => ∃ t, Symbol "\x7d" (z ++ w') t)
    (many (itemOf expression)) := by
  refine (item_local ih).many (itemOf_advances expression_advances) ?_
    (fun z ⟨t, ht⟩ => resumes_of_brace ht) ?_
  · rintro z ⟨t, ht⟩ -
    obtain ⟨u, hu⟩ := expression_miss_of_first (ht.first rfl) (by decide)
    exact ⟨u, bind_miss hu⟩
  · intro e y z h h'
    obtain ⟨f, t, hf, hrest⟩ := bind_eq_ok_iff.mp h
    obtain ⟨f', t', hf', -⟩ := bind_eq_ok_iff.mp h'
    have htrims : Trims (optional (token ";") >>= fun _ => pure f : Parser Expr) :=
      (token_advances (by decide)).trims.optional.bind fun _ => Trims.pure f
    obtain ⟨x, rfl⟩ := htrims.exists_append hrest
    exact resumes_of_expression hf hf'

/-- A block is read alike before any two texts, since its brace closes it. -/
theorem block_local : LocalBelow w w' (n + 1) Q block := by
  refine (token_local rfl (by decide)).bind_succ (token_advances (by decide)) fun _ => .committed ?_
  refine (items_local ih).bind_of
    (fun body => (token_local rfl (by decide)).bind fun _ => .pure body) ?_
  intro body _ y z _ _ h
  obtain ⟨_, t, hclose, -⟩ := bind_eq_ok_iff.mp h
  exact ⟨t, token_eq_ok_iff.mp hclose⟩

/-- Parentheses are read alike before any two texts, since one of them closes the other. -/
theorem parenthesized_local : LocalBelow w w' (n + 1) Q (parenthesizedOf expression) :=
  (token_local rfl (by decide)).bind_succ (token_advances (by decide)) fun _ => .committed <|
    ih.bind_of (fun e => (token_local rfl (by decide)).bind fun _ => .pure e)
      fun _ _ h => over_of_token rfl (by decide) (by decide) h

variable (hw : Apart w')

include hw

/-- A print is read alike before any two texts, ending with a parenthesis. -/
theorem print_local : LocalBelow w w' (n + 1) Q print :=
  (keyword_local hw .print).bind_succ (keyword_advances .print) fun _ => .committed <|
    (token_local rfl (by decide)).bind fun _ =>
      ih.bind_of (fun e => (token_local rfl (by decide)).bind fun _ => .pure (Expr.print e))
        fun _ _ h => over_of_token rfl (by decide) (by decide) h

/-- A call is read alike before any two texts, ending with a parenthesis. -/
theorem call_local : LocalBelow w w' (n + 1) Q call := by
  have arguments := ih.separated expression_advances
    (fun _ hu => expression_miss_of_first hu (by decide))
    fun z hz => hz.elim (over_of_first · (by decide)) (over_of_first · (by decide))
  refine (identifier_local hw).bind_succ identifier_advances fun f =>
    (literal_local ['(']).bind fun _ => .committed ?_
  refine arguments.bind_of (fun es => (token_local rfl (by decide)).bind fun _ => .pure _) ?_
  intro es _ y z _ _ h
  obtain ⟨_, t, hclose, -⟩ := bind_eq_ok_iff.mp h
  exact (token_eq_ok_iff.mp hclose).first rfl

/-- An operand is read alike whatever follows: a name at the end of what is read is not followed by a
parenthesis before the second text either. -/
theorem primary_local : LocalBelow w w' (n + 1) Q primary where
  trims := (primaryOf_advances expression_advances.trims).trims
  keeps {y z e} hy hz h := by
    rcases orElse_eq_ok_iff.mp h with h | ⟨-, h⟩
    · exact primary_of_parenthesized_ok ((parenthesized_local ih).keeps hy hz h)
    rcases orElse_eq_ok_iff.mp h with h | ⟨-, h⟩
    · exact primary_of_print_ok ((print_local ih hw).keeps hy hz h)
    rcases orElse_eq_ok_iff.mp h with h | ⟨⟨m, hcall⟩, h⟩
    · exact primary_of_call_ok ((call_local ih hw).keeps hy hz h)
    rcases orElse_eq_ok_iff.mp h with h | ⟨-, h⟩
    · have hok := ((integer_local hw).map Expr.int).keeps hy hz h
      obtain ⟨v, hv, -⟩ := map_eq_ok_iff.mp hok
      rw [primary_of_number (integer_eq_ok_iff.mp hv).first]
      exact orElse_ok hok
    · obtain ⟨x, hx, rfl⟩ := map_eq_ok_iff.mp h
      have hx' := (identifier_local hw).keeps hy hz hx
      have hparen : (z ++ w).head? ≠ some '(' := by
        intro heq
        obtain ⟨t, ht⟩ := List.head?_eq_some_iff.mp heq
        rw [ht] at hx
        have hopen : literal ['('] ('(' :: t) = .ok () t := literal_eq_ok_iff.mpr rfl
        rw [callOf, bind_ok hx] at hcall
        exact bind_committed_ne_miss hopen m hcall
      exact primary_of_name (identifier_eq_ok_iff.mp hx') (hw.head?_ne (by decide) hparen)

/-- A comparison is read alike where no operator follows in the second text. -/
theorem comparison_local : LocalBelow w w' (n + 1) (OverAt w w' 0) comparison := by
  have hproduct := primary_operandLike.chainOf (operatorsAt 2)
  have product := chainOf_local hw (by decide : 2 < 3) primary_operandLike (primary_local ih hw)
  have sum := chainOf_local hw (by decide : 1 < 3) hproduct product
  exact chainOf_local hw (by decide : 0 < 3) (hproduct.chainOf (operatorsAt 1)) sum

/-- A condition and a block are read alike, and then what is left of the construct. -/
theorem condition_and_block_local {k : Expr → Block → Parser α}
    (hk : ∀ c b, LocalBelow w w' (n + 1) Q (k c b)) :
    LocalBelow w w' (n + 1) Q (comparison >>= fun c => block >>= fun b => k c b) := by
  refine (comparison_local ih hw).bind_of (fun c => (block_local ih).bind fun b => hk c b) ?_
  intro c _ y z _ _ h
  obtain ⟨b, t, hb, -⟩ := bind_eq_ok_iff.mp h
  obtain ⟨u, hopen⟩ := (block_sound hb).exists_brace
  exact (over_of_first (hopen.first rfl) (by decide)).overAt 0

/-- A block, or another conditional if conditionals are read alike, as the second branch of a
conditional. -/
theorem otherwise_local (ihc : LocalBelow w w' n (Over w w') conditional) :
    LocalBelow w w' (n + 1) (Over w w') (otherwiseOf expression) := by
  have htrims := block_advances.trims.orElse (elseIfOf_trims expression_advances.trims)
  refine (keyword_local hw .otherwise).bind_succ (keyword_advances .otherwise) fun _ =>
    .committed ⟨htrims, fun {y z b} hy hz h => ?_⟩
  rcases orElse_eq_ok_iff.mp h with h | ⟨-, h⟩
  · exact orElse_ok ((block_local ih).keeps (Nat.lt_succ_of_lt hy) hz h)
  · obtain ⟨_, s, hahead, hrest⟩ := bind_eq_ok_iff.mp h
    obtain ⟨rfl, _, t, hword⟩ := ahead_eq_ok_iff.mp hahead
    obtain ⟨e, r, he, hpure⟩ := bind_eq_ok_iff.mp hrest
    obtain ⟨rfl, rfl⟩ := pure_eq_ok_iff.mp hpure
    rw [expression_of_conditional (keyword_eq_ok_iff.mp hword)] at he
    exact branch_of_conditional_ok (ihc.keeps hy hz he)

/-- A conditional is read alike where no second branch of it follows before the second text. -/
theorem conditional_local (ihc : LocalBelow w w' n (Over w w') conditional) :
    LocalBelow w w' (n + 1) (Over w w') conditional := by
  have branch := (otherwise_local ih hw ihc).optional fun _ hz => keyword_bind_miss _ hz.otherwise
  refine (keyword_local hw .conditional).bind fun _ => .committed ?_
  refine condition_and_block_local ih hw fun c b => branch.bind_of (fun o => ?_) ?_
  · cases o <;> exact .pure _
  · intro o e y z hz h _
    have heq : y ++ w = z ++ w := by
      cases o <;> exact (pure_eq_ok_iff.mp h).2
    rwa [List.append_cancel_right heq]

/-- A loop is read alike before any two texts, ending with a brace. -/
theorem loop_local : LocalBelow w w' (n + 1) Q loop :=
  (keyword_local hw .loop).bind fun _ => .committed <|
    condition_and_block_local ih hw fun c b => .pure (Expr.whileDo c b)

/-- An assignment is read alike where its value is over in the second text. -/
theorem assignment_local : LocalBelow w w' (n + 1) (Over w w') assignment :=
  (identifier_local hw).bind_succ identifier_advances fun x => (assignSign_local hw).bind fun _ =>
    ih.bind_pure (Expr.assign x)

/-- Expressions and conditionals are read alike if those within them are. -/
theorem expression_local_succ (ihc : LocalBelow w w' n (Over w w') conditional) :
    LocalBelow w w' (n + 1) (Over w w') expression where
  trims := expression_advances.trims
  keeps {y z e} hy hz h := by
    rw [expression_eq] at h
    rcases orElse_eq_ok_iff.mp h with h | ⟨-, h⟩
    · exact expression_of_conditional_ok ((conditional_local ih hw ihc).keeps hy hz h)
    rcases orElse_eq_ok_iff.mp h with h | ⟨-, h⟩
    · exact expression_of_loop_ok ((loop_local ih hw).keeps hy hz h)
    rcases orElse_eq_ok_iff.mp h with h | ⟨-, h⟩
    · obtain ⟨b, hb, rfl⟩ := map_eq_ok_iff.mp h
      exact expression_of_block_ok ((block_local ih).keeps hy hz hb)
    rcases orElse_eq_ok_iff.mp h with h | ⟨-, h⟩
    · exact expression_of_assignment_ok ((assignment_local ih hw).keeps hy hz h)
    · have hok := (comparison_local ih hw).keeps hy (hz.overAt 0) h
      have hchain : Chain 0 _ _ e := comparisonOf_sound expression_advances expression_sound hok
      have hover : ∀ {r c}, r = z ++ w' → first r = some c → c ∉ operatorStarts := by
        rintro _ c rfl hc
        exact hz.operator hc
      rwa [expression_of_chain hover hchain rfl]

end nested

/-! ### Expressions and definitions -/

section apart

variable (hw : Apart w')

include hw

/-- Expressions and conditionals are read alike, by one induction on the length of the text, since a
conditional may stand after `else` without being an expression of its own. -/
theorem expression_and_conditional_local (n : Nat) :
    LocalBelow w w' n (Over w w') expression ∧ LocalBelow w w' n (Over w w') conditional := by
  induction n with
  | zero =>
    refine ⟨⟨expression_advances.trims, fun hy => absurd hy (Nat.not_lt_zero _)⟩,
      ⟨(conditionalOf_advances expression_advances.trims).trims, fun hy => ?_⟩⟩
    exact absurd hy (Nat.not_lt_zero _)
  | succ n ih => exact ⟨expression_local_succ ih.1 hw ih.2, conditional_local ih.1 hw ih.2⟩

/-- An expression is read alike before two texts, where it is over before the second one. -/
theorem expression_local (n : Nat) : LocalBelow w w' n (Over w w') expression :=
  (expression_and_conditional_local hw n).1

/-- A list of parameters is read alike before any two texts, since its parenthesis closes it. -/
theorem parameters_local : LocalBelow w w' n Q parameters := by
  have name : LocalBelow w w' n Anywhere identifier := identifier_local hw
  have names := name.separated identifier_advances
    (fun _ hu => identifier_miss_of_first hu (by decide)) fun _ _ => trivial
  refine (token_local rfl (by decide)).bind fun _ => ?_
  refine names.bind_of (fun xs => (token_local rfl (by decide)).bind fun _ => .pure xs) ?_
  intro xs _ y z _ _ h
  obtain ⟨_, t, hclose, -⟩ := bind_eq_ok_iff.mp h
  exact (token_eq_ok_iff.mp hclose).first rfl

/-- A function definition is read alike before any two texts, ending with a brace. -/
theorem function_local : LocalBelow w w' n Q function := by
  have body : LocalBelow w w' (n + 1) Q block := block_local (expression_local hw n)
  exact (keyword_local hw .function).bind fun _ => .committed <|
    (identifier_local hw).bind fun f => (parameters_local hw).bind fun xs =>
      (body.mono (Nat.le_succ n)).bind_pure fun b => Definition.function ⟨f, xs, b⟩

/-- A definition of a global variable is read alike where its initial value is over in the second
text. -/
theorem global_local : LocalBelow w w' n (Over w w') global :=
  (keyword_local hw .global).bind fun _ => .committed <|
    (identifier_local hw).bind fun x => (assignSign_local hw).bind fun _ =>
      (expression_local hw n).bind_pure (Definition.global x)

/-- A definition is read alike where it is over in the second text. -/
theorem definition_local : LocalBelow w w' n (Over w w') definition where
  trims := definition_advances.trims
  keeps {y z d} hy hz h := by
    rcases orElse_eq_ok_iff.mp h with h | ⟨-, h⟩
    · exact orElse_ok ((function_local hw).keeps hy hz h)
    · exact definition_of_global_ok ((global_local hw).keeps hy hz h)

omit hw in
/-- Before a definition, another one is over. -/
theorem over_of_definition {z r : List Char} {d : Definition} (h : definition (z ++ w') = .ok d r) :
    Over w w' z := by
  cases definition_sound h with
  | function hword _ _ _ _ _ => exact over_of_stops (hword.stops (by decide))
  | global hword _ _ _ => exact over_of_stops (hword.stops (by decide))

/-- Definitions are read alike up to layout at the end of the second text. -/
theorem definitions_local : LocalBelow w w' n (fun z => skip (z ++ w') = []) (many definition) :=
  (definition_local hw).many definition_advances (fun _ hz _ => definition_miss hz)
    (fun _ hz => over_of_stops (stops_of_layout hz)) fun _ h => over_of_definition h

end apart

end Parser

end Scriptlet
