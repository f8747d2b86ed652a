import Scriptlet.Program.Printer
import Scriptlet.Proofs.Grammar.Completeness
import Scriptlet.Proofs.Printer.Names

/-!
# Reading the pieces of a printed text

A printed text never starts with layout, so that a space before it is all there is to skip
(`Solid`), and what comes after an expression in a printed text always ends it (`Ends`). From the
two it follows how the pieces of printed texts are read:

* `comparison_single`, `comparison_pair`: an operand alone, or two with an operator between them, are
  read as a whole at every level of the operators.
* `integer_text`, `name_text`: literals and names are read back.
* `separated_text`: what is printed with commas is read back if its items are.
-/

namespace Scriptlet

open Scriptlet.Text
open Scriptlet.Grammar

/-! ### Solid texts -/

/-- A text that starts with a character, and with no layout whatever follows. -/
def Solid (text : List Char) : Prop :=
  ∃ c cs, text = c :: cs ∧ isSpace c = false ∧ c ≠ '/'

/-- A text is solid that starts with a character that is no layout. -/
theorem solid_cons {c : Char} (h : isSpace c = false) (hc : c ≠ '/') (cs : List Char) :
    Solid (c :: cs) :=
  ⟨c, cs, rfl, h, hc⟩

/-- A solid text is so before any other one. -/
theorem Solid.append {text : List Char} (h : Solid text) (r : List Char) : Solid (text ++ r) := by
  obtain ⟨c, cs, rfl, hspace, hslash⟩ := h
  exact solid_cons hspace hslash (cs ++ r)

/-- Nothing is to be skipped before a solid text. -/
theorem Solid.afterLayout {text : List Char} (h : Solid text) : AfterLayout text text := by
  obtain ⟨c, cs, rfl, hspace, hslash⟩ := h
  exact afterLayout_iff.mpr (skip_cons_of_not_layout hspace hslash cs)

/-- No layout stands before a character that is none. -/
theorem afterLayout_cons {c : Char} (h : isSpace c = false) (hc : c ≠ '/') (cs : List Char) :
    AfterLayout (c :: cs) (c :: cs) :=
  (solid_cons h hc cs).afterLayout

/-- A space before a text is skipped. -/
theorem afterLayout_space {s t : List Char} (h : AfterLayout s t) : AfterLayout (' ' :: s) t := by
  rw [afterLayout_iff] at *
  rw [skip_cons_of_isSpace (by decide), h]

/-- A newline before a text is skipped. -/
theorem afterLayout_newline {s t : List Char} (h : AfterLayout s t) : AfterLayout ('\n' :: s) t := by
  rw [afterLayout_iff] at *
  rw [skip_cons_of_isSpace (by decide), h]

/-- Names are solid. -/
theorem solid_of_isName {x : String} (h : isName x.toList) : Solid x.toList := by
  obtain ⟨c, cs, hx, hstart, -, -⟩ := isName_iff.mp h
  exact ⟨c, cs, hx, not_layout_of_isNameStart hstart⟩

/-- Digits are solid. -/
theorem solid_of_isDigit {c : Char} (h : c.isDigit) (cs : List Char) : Solid (c :: cs) :=
  ⟨c, cs, rfl, not_layout_of_isDigit h⟩

/-- The texts of integers are solid. -/
theorem solid_decimal (n : Int) : Solid (Value.decimal n) := by
  cases n with
  | ofNat n =>
    obtain ⟨d, ds, hds⟩ := List.exists_cons_of_ne_nil (Nat.toDigits_ne_nil (n := n) (b := 10))
    have hd : d.isDigit := by
      refine Nat.isDigit_of_mem_toDigits (b := 10) (n := n) (by decide) (by decide) ?_
      rw [hds]
      exact List.mem_cons_self
    change Solid (Nat.toDigits 10 n)
    rw [hds]
    exact solid_of_isDigit hd ds
  | negSucc n => exact solid_cons (by decide) (by decide) _

/-- The printed text of a well-named expression is solid. -/
theorem solid_text : (e : Expr) → WellNamed e.names → Solid e.text
  | .int v, _ => solid_decimal v.toInt
  | .var x, h => solid_of_isName (wellNamed_cons.mp h).1
  | .assign x e, h => ((solid_of_isName (wellNamed_cons.mp h).1).append _).append _
  | .binary o l r, h => by
    have hl := solid_text l (wellNamed_append.mp h).1
    unfold Expr.text operand
    split
    · exact hl.append _
    · exact solid_cons (by decide) (by decide) _
  | .block b, _ => by
    unfold Expr.text
    cases Expr.texts b <;> exact solid_cons (by decide) (by decide) _
  | .whileDo _ _, _ => solid_cons (by decide) (by decide) _
  | .ifThen _ _, _ => solid_cons (by decide) (by decide) _
  | .ifElse _ _ _, _ => solid_cons (by decide) (by decide) _
  | .print _, _ => solid_cons (by decide) (by decide) _
  | .call f a, h => (solid_of_isName (wellNamed_cons.mp h).1).append _

/-- The printed text of an operand is solid. -/
theorem solid_operand {e : Expr} (h : WellNamed e.names) : Solid (operand e.isPrimary e.text) := by
  unfold operand
  split
  · exact solid_text e h
  · exact solid_cons (by decide) (by decide) _

namespace Parser

variable {α : Type}

/-! ### Texts that end an expression -/

/-- A text at which an expression is over: it stops the expression, and no character of a name is
there to make its last word longer. -/
def Ends (r : List Char) : Prop :=
  Stops r ∧ EndsWord r

/-- The characters that follow expressions in printed texts. -/
def closers : List Char :=
  [')', ',', ';', '\x7b', '\x7d']

/-- No closing character is layout. -/
theorem not_layout_of_closer {c : Char} (hc : c ∈ closers) : isSpace c = false ∧ c ≠ '/' :=
  forall_mem_of_all (p := fun c => isSpace c = false ∧ c ≠ '/') (by decide) c hc

/-- An expression stops before a closing character. -/
theorem stops_of_closer {r : List Char} {c : Char} (h : first r = some c) (hc : c ∈ closers) :
    Stops r := by
  have key : ∀ c ∈ closers, c ∉ '(' :: '-' :: operatorStarts ∧ isNameStart c = false :=
    forall_mem_of_all (by decide)
  obtain ⟨hop, hname⟩ := key c hc
  refine ⟨fun d hd => ?_, fun t hw => ?_⟩
  · rw [h] at hd
    cases hd
    exact hop
  · exact Bool.eq_false_iff.mp hname (of_first h hw.first)

/-- An expression is over where a closing character follows directly. -/
theorem ends_of_closer {c : Char} (hc : c ∈ closers) (r : List Char) : Ends (c :: r) := by
  have key : ∀ c ∈ closers, isSpace c = false ∧ c ≠ '/' ∧ ¬ isNameChar c :=
    forall_mem_of_all (by decide)
  obtain ⟨hspace, hslash, hname⟩ := key c hc
  refine ⟨stops_of_closer (first_cons_of_not_layout hspace hslash r) hc, fun d hd => ?_⟩
  rwa [← Option.some.inj hd]

/-- An expression is over where a closing character follows after a space. -/
theorem ends_of_space_closer {c : Char} (hc : c ∈ closers) (r : List Char) :
    Ends (' ' :: c :: r) := by
  have hfirst : first (' ' :: c :: r) = some c := by
    obtain ⟨hspace, hslash⟩ := not_layout_of_closer hc
    rw [first, skip_cons_of_isSpace (by decide)]
    exact first_cons_of_not_layout hspace hslash r
  refine ⟨stops_of_closer hfirst hc, fun d hd => ?_⟩
  rw [← Option.some.inj hd]
  decide

/-- A word ends before a space. -/
theorem endsWord_space (r : List Char) : EndsWord (' ' :: r) := by
  intro d hd
  rw [← Option.some.inj hd]
  decide

/-- A text that ends an expression is no parenthesis after a name. -/
theorem Ends.head?_ne {r : List Char} (h : Ends r) : r.head? ≠ some '(' := by
  cases r with
  | nil => nofun
  | cons c r =>
    intro heq
    obtain rfl : c = '(' := Option.some.inj heq
    exact h.1.1 '(' (first_cons_of_not_layout (by decide) (by decide) r) (by decide)

/-! ### Chains of one operand or two -/

/-- Where an expression stops, there is no operator. -/
theorem no_operator_of_stops {r : List Char} (h : Stops r) (op : Operator) (t : List Char) :
    ¬ Symbol op.symbol r t := by
  intro hop
  have hstart : ∃ c cs, op.symbol.toList = c :: cs ∧ c ∈ '(' :: '-' :: operatorStarts := by
    cases op <;> exact ⟨_, _, rfl, by decide⟩
  obtain ⟨c, cs, hc, hmem⟩ := hstart
  exact h.1 c (hop.first hc) hmem

/-- An operand without an operator of the level after it is the whole chain. -/
theorem chainOf_single (level : Nat) (hl : level < 3) {parser : Parser Expr} {s r : List Char}
    {e : Expr} (h : parser s = .ok e r)
    (hno : ∀ op : Operator, op.level = level → ∀ t, ¬ Symbol op.symbol r t) :
    chainOf (operatorsAt level) parser s = .ok e r := by
  obtain ⟨t, ht⟩ := operatorAmong_miss fun op hop =>
    hno op (level_of_mem_operatorsAt hl hop)
  have hlinks : many (linkOf (operatorsAt level) parser) r = .ok [] r := many_miss (bind_miss ht)
  exact (bind_ok h).trans (bind_ok hlinks)

/-- Two operands with an operator between them are a chain of the level of the operator. -/
theorem chainOf_pair {parser : Parser Expr} (ha : Advances parser) {op : Operator}
    {s t u r : List Char} {e f : Expr} (he : parser s = .ok e t) (hop : Symbol op.symbol t u)
    (hu : u.head? ≠ some '=') (hf : parser u = .ok f r)
    (hno : ∀ op : Operator, ∀ v, ¬ Symbol op.symbol r v) :
    chainOf (operatorsAt op.level) parser s = .ok (.binary op e f) r := by
  have hlink : linkOf (operatorsAt op.level) parser t = .ok (op, f) r :=
    (bind_ok (operatorAmong_of_symbol hop hu)).trans (bind_ok hf)
  obtain ⟨v, hv⟩ := operatorAmong_miss fun (op' : Operator) (_ : op' ∈ operatorsAt op.level) => hno op'
  have hlast : many (linkOf (operatorsAt op.level) parser) r = .ok [] r := many_miss (bind_miss hv)
  have hlinks := many_ok (linkOf_advances _ ha.trims) hlink hlast
  exact (bind_ok he).trans (bind_ok hlinks)

/-- An operand alone is read as a comparison. -/
theorem comparison_single {s r : List Char} {e : Expr} (h : primary s = .ok e r) (hr : Stops r) :
    comparison s = .ok e r := by
  have hno : ∀ level, ∀ op : Operator, op.level = level → ∀ t, ¬ Symbol op.symbol r t :=
    fun _ op _ => no_operator_of_stops hr op
  have hproduct : product s = .ok e r := chainOf_single 2 (by decide) h (hno 2)
  have hsum : sum s = .ok e r := chainOf_single 1 (by decide) hproduct (hno 1)
  exact chainOf_single 0 (by decide) hsum (hno 0)

/-- Two operands with an operator between them are read as a comparison. -/
theorem comparison_pair {op : Operator} {s t u r : List Char} {e f : Expr}
    (he : primary s = .ok e t) (hop : Symbol op.symbol t u) (hu : u.head? ≠ some '=')
    (hf : primary u = .ok f r) (hr : Stops r) : comparison s = .ok (.binary op e f) r := by
  have hprimary := primaryOf_advances expression_advances.trims
  have hproduct := productOf_advances expression_advances.trims
  have hsum := sumOf_advances expression_advances.trims
  have hno := no_operator_of_stops hr
  -- before the operator, the levels above its own find no operator of theirs
  have hother : ∀ level, op.level ≠ level →
      ∀ op' : Operator, op'.level = level → ∀ v, ¬ Symbol op'.symbol t v := by
    intro level hne op' hop' v hv
    exact hne ((level_eq_of_symbol hop hv).trans hop')
  have hlevel : op.level = 0 ∨ op.level = 1 ∨ op.level = 2 := by
    cases op <;> decide
  rcases hlevel with h0 | h1 | h2
  · have product : ∀ {s r e}, primary s = .ok e r →
        (∀ op' : Operator, op'.level = 2 → ∀ v, ¬ Symbol op'.symbol r v) → product s = .ok e r :=
      fun h hno => chainOf_single 2 (by decide) h hno
    have sum : ∀ {s r e}, Parser.product s = .ok e r →
        (∀ op' : Operator, op'.level = 1 → ∀ v, ¬ Symbol op'.symbol r v) → sum s = .ok e r :=
      fun h hno => chainOf_single 1 (by decide) h hno
    have hleft := sum (product he (hother 2 (by omega))) (hother 1 (by omega))
    have hright := sum (product hf fun op _ => hno op) fun op _ => hno op
    have := chainOf_pair hsum hleft hop hu hright hno
    rwa [h0] at this
  · have hleft : product s = .ok e t :=
      chainOf_single 2 (by decide) he (hother 2 (by omega))
    have hright : product u = .ok f r :=
      chainOf_single 2 (by decide) hf fun op _ => hno op
    have hpair := chainOf_pair hproduct hleft hop hu hright hno
    rw [h1] at hpair
    exact chainOf_single 0 (by decide) hpair fun op _ => hno op
  · have hpair := chainOf_pair hprimary he hop hu hf hno
    rw [h2] at hpair
    have hsum : sum s = .ok (.binary op e f) r :=
      chainOf_single 1 (by decide) hpair fun op _ => hno op
    exact chainOf_single 0 (by decide) hsum fun op _ => hno op

/-! ### Literals and names -/

/-- Digits are over where a word is. -/
theorem endsDigits_of_endsWord {r : List Char} (hr : EndsWord r) : EndsDigits r := by
  intro c hc hdigit
  have halnum : isNameChar c := by simp [isNameChar, Char.isAlphanum, hdigit]
  exact hr c hc halnum

/-- The text of a value is read back as a literal. -/
theorem number_text (v : Value) {s r : List Char} (h : AfterLayout s (Value.text v ++ r))
    (hr : EndsWord r) : Number s r v := by
  have digits : ∀ n : Nat, Digits (Nat.toDigits 10 n ++ r) r (Nat.toDigits 10 n) := fun n =>
    ⟨rfl, Nat.toDigits_ne_nil,
      fun d hd => Nat.isDigit_of_mem_toDigits (by decide) (by decide) hd, endsDigits_of_endsWord hr⟩
  have value : ∀ n : Nat, natural (Nat.toDigits 10 n) = n := fun n => by
    rw [natural, Nat.ofDigitChars_ten_toDigits]
  unfold Value.text at h
  cases hv : v.toInt with
  | ofNat n =>
    rw [hv] at h
    exact .plain h (digits n) (by rw [hv, value]; rfl)
  | negSucc n =>
    rw [hv] at h
    exact .negative h (digits (n + 1)) (by rw [hv, value]; rfl)

/-- A valid name is read back. -/
theorem name_text {x : String} (hx : isName x.toList) {s r : List Char}
    (h : AfterLayout s (x.toList ++ r)) (hr : EndsWord r) : Name s r x :=
  ⟨h, hx, hr⟩

/-! ### Lists -/

/-- A text is solid and is read back where it is followed by the end of an expression. -/
structure ReadsBack (p : Parser α) (text : List Char) (a : α) : Prop where
  solid : Solid text
  read : ∀ {s r}, AfterLayout s (text ++ r) → Ends r → p s = .ok a r

/-- Texts with a separator between each two are the first one, and each other one after the
separator. -/
theorem intercalate_cons (separator text : List Char) (texts : List (List Char)) :
    separator.intercalate (text :: texts) = text ++ texts.flatMap (separator ++ ·) := by
  induction texts generalizing text with
  | nil => simp
  | cons other texts ih =>
    rw [List.intercalate_cons_cons, ih, List.flatMap_cons]
    simp only [List.append_assoc]

section lists

variable {p : Parser α} {text : α → List Char}

/-- What follows an item of a printed list ends it. -/
theorem ends_more (texts : List (List Char)) (r : List Char) :
    Ends (texts.flatMap (", ".toList ++ ·) ++ ')' :: r) := by
  cases texts with
  | nil => exact ends_of_closer (by decide) r
  | cons text texts => exact ends_of_closer (c := ',') (by decide) _

/-- Further items of a printed list are read back. -/
theorem more_text (hp : Advances p) {as : List α} (h : ∀ a ∈ as, ReadsBack p (text a) a)
    (r : List Char) :
    many (moreOf p) ((as.map text).flatMap (", ".toList ++ ·) ++ ')' :: r) = .ok as (')' :: r) := by
  induction as with
  | nil =>
    have hfirst : first (')' :: r) = some ')' := first_cons_of_not_layout (by decide) (by decide) r
    obtain ⟨t, ht⟩ := token_miss "," (s := ')' :: r) rfl (by rw [hfirst]; decide)
    exact many_miss (bind_miss ht)
  | cons a as ih =>
    obtain ⟨ha, has⟩ := List.forall_mem_cons.mp h
    have hcomma : token "," (((a :: as).map text).flatMap (", ".toList ++ ·) ++ ')' :: r) =
        .ok () (' ' :: (text a ++ ((as.map text).flatMap (", ".toList ++ ·) ++ ')' :: r))) := by
      refine token_eq_ok_iff.mpr ?_
      rw [List.map_cons, List.flatMap_cons, List.append_assoc, List.append_assoc]
      exact (solid_cons (by decide) (by decide) _).afterLayout
    have hspace := afterLayout_space (ha.solid.append
      ((as.map text).flatMap (", ".toList ++ ·) ++ ')' :: r)).afterLayout
    have hitem := ha.read hspace (ends_more (as.map text) r)
    exact many_ok (moreOf_advances hp.trims) ((bind_ok hcomma).trans hitem) (ih has)

/-- What is printed as a list in parentheses is read back, if its items are. -/
theorem separated_text (hp : Advances p) (hmiss : ∀ u, first u = some ')' → ∃ t, p u = .miss t)
    {as : List α} (h : ∀ a ∈ as, ReadsBack p (text a) a) (r : List Char) :
    separated p (token ",") (", ".toList.intercalate (as.map text) ++ ')' :: r) =
      .ok as (')' :: r) := by
  rw [separated_comma]
  cases as with
  | nil =>
    obtain ⟨t, ht⟩ := hmiss (')' :: r) (first_cons_of_not_layout (by decide) (by decide) r)
    exact orElse_miss (bind_miss ht)
  | cons a as =>
    obtain ⟨ha, has⟩ := List.forall_mem_cons.mp h
    rw [List.map_cons, intercalate_cons, List.append_assoc]
    have hfirst := ha.read (ha.solid.append _).afterLayout (ends_more (as.map text) r)
    exact orElse_ok ((bind_ok hfirst).trans (bind_ok (more_text hp has r)))

end lists

end Parser

end Scriptlet
