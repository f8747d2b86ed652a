import Scriptlet.Proofs.Locality.Expressions
import Scriptlet.Proofs.Printer.RoundTrip

/-!
# Texts plugged into other texts

A text that is read as an expression can be put into a larger one wherever the larger one closes what
it opens: after a newline, which ends a comment at the end of the plugged text, and before one of the
characters that close a part of a construct, the text is read as the same expression
(`expression_plugged`). The plugged text need not look like a printed one: an operator chain, an
assignment, a conditional without a second branch, comments and odd layout are all the same here.

* `parse_plugged`: every construct of plugged texts is read as the construct of their expressions.
-/

namespace Scriptlet

open Scriptlet.Text
open Scriptlet.Grammar

namespace Grammar

/-- Layout at the end of a text goes on through a newline and ends there. -/
theorem layout_newline {t : List Char} (h : Layout t []) (v : List Char) :
    Layout (t ++ '\n' :: v) v := by
  generalize hr : [] = r at h
  induction h with
  | none s =>
    subst hr
    exact .space (by decide) (.none v)
  | space hc _ ih => exact .space hc (ih hr)
  | @comment body s _ hbody hend _ ih =>
    have hline : LineEnd (s ++ '\n' :: v) := by
      cases hend with
      | text => exact .newline v
      | newline => exact .newline _
      | crlf => exact .crlf _
    have hcomment := Layout.comment hbody hline (ih hr)
    simpa only [List.cons_append, List.append_assoc] using hcomment

end Grammar

namespace Parser

variable {s y : List Char} {e : Expr}

/-! ### Whole texts -/

/-- A whole text that is an operand is an expression. -/
theorem parse_of_primary (h : primary s = .ok e []) : Expr.parse s = .ok e := by
  have hend : Stops [] := stops_of_layout rfl
  exact parse_eq_ok_iff.mpr ⟨[], expression_of_comparison_ok (comparison_single h hend) hend, rfl⟩

/-- A space before an expression is skipped. -/
theorem expression_space (s : List Char) : expression (' ' :: s) = expression s := by
  rw [← expression_ignoresLayout, skip_cons_of_isSpace (by decide), expression_ignoresLayout]

/-! ### Plugged texts -/

/-- A plugged text is read as the expression that it holds. -/
theorem expression_plugged (h : Expr.parse s = .ok e) {c : Char} (hc : c ∈ closers)
    (r : List Char) :
    ∃ t, expression (s ++ '\n' :: c :: r) = .ok e t ∧ AfterLayout t (c :: r) := by
  obtain ⟨t, ht, hskip⟩ := parse_eq_ok_iff.mp h
  obtain ⟨hspace, hslash⟩ := not_layout_of_closer hc
  have hafter : AfterLayout (t ++ '\n' :: c :: r) (c :: r) := by
    have hlayout : Layout t [] := hskip ▸ layout_skip t
    rw [afterLayout_iff, skip_eq_of_layout (layout_newline hlayout (c :: r))]
    exact skip_cons_of_not_layout hspace hslash r
  refine ⟨t ++ '\n' :: c :: r, ?_, hafter⟩
  have hover : Over [] ('\n' :: c :: r) t := over_of_first (first_of_afterLayout hafter) hc
  have hlocal := expression_local (w := []) (apart_newline (c :: r)) (s.length + 1)
  exact hlocal.keeps (Nat.lt_succ_self _) hover (by simpa using ht)

/-- A plugged text in parentheses is an operand. -/
theorem primary_plugged (h : Expr.parse s = .ok e) {r : List Char}
    (hy : AfterLayout y ('(' :: (s ++ '\n' :: ')' :: r))) : primary y = .ok e r := by
  have hopen : Symbol "(" y (s ++ '\n' :: ')' :: r) := hy
  obtain ⟨t, ht, hclose⟩ := expression_plugged h (c := ')') (by decide) r
  rw [primary_of_parenthesis hopen]
  exact (bind_ok (token_eq_ok_iff.mpr hopen)).trans
    (committed_ok ((bind_ok ht).trans (bind_ok (token_eq_ok_iff.mpr hclose))))

/-- A plugged text in the parentheses of a print is printed. -/
theorem print_plugged (h : Expr.parse s = .ok e) (r : List Char) :
    primary ("println(".toList ++ (s ++ '\n' :: ')' :: r)) = .ok (.print e) r := by
  have hword : Word .print ("println(".toList ++ (s ++ '\n' :: ')' :: r))
      ('(' :: (s ++ '\n' :: ')' :: r)) :=
    ⟨afterLayout_cons (by decide) (by decide) _, by simp [EndsWord, isNameChar]⟩
  have hopen : token "(" ('(' :: (s ++ '\n' :: ')' :: r)) = .ok () (s ++ '\n' :: ')' :: r) :=
    token_cons rfl (by decide) (by decide) _
  obtain ⟨t, ht, hclose⟩ := expression_plugged h (c := ')') (by decide) r
  rw [primary_of_print hword]
  exact (bind_ok (keyword_eq_ok_iff.mpr hword)).trans (committed_ok
    ((bind_ok hopen).trans ((bind_ok ht).trans (bind_ok (token_eq_ok_iff.mpr hclose)))))

/-- A plugged text is read as an argument before further arguments, each after a comma, or before the
closing parenthesis. -/
theorem argument_plugged (h : Expr.parse s = .ok e) (texts : List (List Char)) (r : List Char) :
    ∃ t, expression (s ++ '\n' :: (texts.flatMap ([','] ++ ·) ++ ')' :: r)) = .ok e t ∧
      AfterLayout t (texts.flatMap ([','] ++ ·) ++ ')' :: r) := by
  cases texts with
  | nil => exact expression_plugged h (by decide) r
  | cons text texts => exact expression_plugged h (c := ',') (by decide) _

section lists

variable {ss : List (List Char)} {es : List Expr}
  (hs : List.Forall₂ (fun s e => Expr.parse s = .ok e) ss es)

include hs

/-- Plugged texts, each after a comma, are read as the further arguments of a call. -/
theorem more_plugged {t r : List Char}
    (ht : AfterLayout t ((ss.map (· ++ ['\n'])).flatMap ([','] ++ ·) ++ ')' :: r)) :
    ∃ u, many (moreOf expression) t = .ok es u ∧ AfterLayout u (')' :: r) := by
  induction hs generalizing t with
  | nil =>
    obtain ⟨u, hu⟩ := token_miss "," rfl (s := t) (by rw [first_of_afterLayout ht]; decide)
    exact ⟨t, many_miss (bind_miss hu), ht⟩
  | @cons s e ss es h _ ih =>
    obtain ⟨u, hu, hafter⟩ := argument_plugged h (ss.map (· ++ ['\n'])) r
    have hcomma : Symbol "," t
        (s ++ '\n' :: ((ss.map (· ++ ['\n'])).flatMap ([','] ++ ·) ++ ')' :: r)) := by
      simpa [Grammar.Symbol] using ht
    obtain ⟨v, hv, hclose⟩ := ih hafter
    have hmore : moreOf expression t = .ok e u := (bind_ok (token_eq_ok_iff.mpr hcomma)).trans hu
    exact ⟨v, many_ok (moreOf_advances expression_advances.trims) hmore hv, hclose⟩

/-- Plugged texts with commas between them are read as the arguments of a call. -/
theorem arguments_plugged (r : List Char) :
    ∃ t, separated expression (token ",") ([','].intercalate (ss.map (· ++ ['\n'])) ++ ')' :: r) =
      .ok es t ∧ AfterLayout t (')' :: r) := by
  have hafter : AfterLayout (')' :: r) (')' :: r) :=
    afterLayout_cons (by decide) (by decide) r
  rw [separated_comma]
  cases hs with
  | nil =>
    obtain ⟨t, ht⟩ := expression_miss_of_first (first_of_afterLayout hafter) (by decide)
    exact ⟨')' :: r, orElse_miss (bind_miss ht), hafter⟩
  | @cons s e ss es h hs =>
    obtain ⟨u, hu, hrest⟩ := argument_plugged h (ss.map (· ++ ['\n'])) r
    obtain ⟨v, hv, hclose⟩ := more_plugged hs hrest
    refine ⟨v, ?_, hclose⟩
    rw [List.map_cons, intercalate_cons, List.append_assoc, List.append_assoc]
    exact orElse_ok ((bind_ok hu).trans (bind_ok hv))

/-- Plugged texts with semicolons between them are read as the expressions of a block. -/
theorem items_plugged (r : List Char) :
    ∃ t, many (itemOf expression) ([';'].intercalate (ss.map (· ++ ['\n'])) ++ '\x7d' :: r) =
      .ok es t ∧ AfterLayout t ('\x7d' :: r) := by
  have hadvances := itemOf_advances expression_advances
  induction hs with
  | nil =>
    have hafter : AfterLayout ('\x7d' :: r) ('\x7d' :: r) :=
      afterLayout_cons (by decide) (by decide) r
    obtain ⟨t, ht⟩ := expression_miss_of_first (first_of_afterLayout hafter) (by decide)
    exact ⟨'\x7d' :: r, many_miss (bind_miss ht), hafter⟩
  | @cons s e ss es h hs ih =>
    cases hs with
    | nil =>
      obtain ⟨t, ht, hclose⟩ := expression_plugged h (c := '\x7d') (by decide) r
      have hfirst := first_of_afterLayout hclose
      obtain ⟨u, hu⟩ := token_miss ";" rfl (s := t) (by rw [hfirst]; decide)
      obtain ⟨v, hv⟩ := expression_miss_of_first hfirst (by decide)
      have hitem : itemOf expression (s ++ '\n' :: '\x7d' :: r) = .ok e t :=
        (bind_ok ht).trans (bind_ok (optional_miss hu))
      refine ⟨t, many_ok hadvances ?_ (many_miss (bind_miss hv)), hclose⟩
      simpa using hitem
    | @cons s' e' ss es h' hs =>
      let rest := [';'].intercalate ((s' :: ss).map (· ++ ['\n'])) ++ '\x7d' :: r
      obtain ⟨t, ht, hsemicolon⟩ := expression_plugged h (c := ';') (by decide) rest
      have hitem : itemOf expression (s ++ '\n' :: ';' :: rest) = .ok e rest :=
        (bind_ok ht).trans (bind_ok (optional_ok (token_eq_ok_iff.mpr hsemicolon)))
      obtain ⟨u, hu, hclose⟩ := ih
      refine ⟨u, many_ok hadvances ?_ hu, hclose⟩
      simpa [rest] using hitem

/-- Plugged texts in braces are read as a block. -/
theorem block_plugged {r : List Char} (hy : AfterLayout y
      ('\x7b' :: ([';'].intercalate (ss.map (· ++ ['\n'])) ++ '\x7d' :: r))) :
    block y = .ok es r := by
  have hopen : token "\x7b" y = .ok () _ := token_eq_ok_iff.mpr hy
  obtain ⟨t, ht, hclose⟩ := items_plugged hs r
  exact (bind_ok hopen).trans
    (committed_ok ((bind_ok ht).trans (bind_ok (token_eq_ok_iff.mpr hclose))))

/-- Plugged texts with commas between them are read as the arguments of a call of a name right before
their parentheses. -/
theorem call_plugged {x : String} (hx : isName x.toList) (r : List Char) :
    primary (x.toList ++ '(' :: ([','].intercalate (ss.map (· ++ ['\n'])) ++ ')' :: r)) =
      .ok (.call x es) r := by
  let args := [','].intercalate (ss.map (· ++ ['\n'])) ++ ')' :: r
  have hname : Name (x.toList ++ '(' :: args) ('(' :: args) x :=
    name_text hx ((solid_of_isName hx).append _).afterLayout (by simp [EndsWord, isNameChar])
  have hopen : literal ['('] ('(' :: args) = .ok () args := literal_eq_ok_iff.mpr rfl
  obtain ⟨t, ht, hclose⟩ := arguments_plugged hs r
  rw [primary_of_call hname]
  exact (bind_ok (identifier_eq_ok_iff.mpr hname)).trans ((bind_ok hopen).trans
    (committed_ok ((bind_ok ht).trans (bind_ok (token_eq_ok_iff.mpr hclose)))))

end lists

/-! ### Constructs of plugged texts -/

variable {s₁ s₂ : List Char} {e₁ e₂ : Expr}

/-- A name, the sign of an assignment and an expression are read one after the other. -/
theorem assigned_text {α : Type} {x : String} (hx : isName x.toList) {t : List Char}
    (h : expression s = .ok e t) (k : String → Expr → Parser α)
    (hy : AfterLayout y (x.toList ++ (" = ".toList ++ s))) :
    (identifier >>= fun x => assignSign >>= fun _ => expression >>= fun e => k x e) y = k x e t := by
  have hname : Name y (" = ".toList ++ s) x := name_text hx hy (endsWord_space _)
  have hsign : Sign (" = ".toList ++ s) (' ' :: s) :=
    ⟨afterLayout_space (afterLayout_cons (by decide) (by decide) _), by simp⟩
  exact (bind_ok (identifier_eq_ok_iff.mpr hname)).trans
    ((bind_ok (assignSign_eq_ok_iff.mpr hsign)).trans (bind_ok ((expression_space s).trans h)))

/-- A plugged text after a name and the sign of an assignment is assigned to the name. -/
theorem assign_plugged {x : String} (hx : isName x.toList) (h : Expr.parse s = .ok e) :
    Expr.parse (x.toList ++ " = ".toList ++ s) = .ok (.assign x e) := by
  obtain ⟨t, ht, hskip⟩ := parse_eq_ok_iff.mp h
  have hsolid := ((solid_of_isName hx).append (" = ".toList ++ s)).afterLayout
  have hassign : assignment (x.toList ++ (" = ".toList ++ s)) = .ok (.assign x e) t :=
    assigned_text hx ht (fun x e => pure (Expr.assign x e)) hsolid
  refine parse_eq_ok_iff.mpr ⟨t, ?_, hskip⟩
  rw [List.append_assoc, expression_of_name (name_text hx hsolid (endsWord_space _))]
  exact orElse_ok hassign

/-- A plugged text after a name and the sign of an assignment is the initial value of a global
variable. -/
theorem global_plugged {x : String} (hx : isName x.toList) (h : Expr.parse s = .ok e) :
    Program.parse ("global ".toList ++ x.toList ++ " = ".toList ++ s) = .ok ⟨[.global x e]⟩ := by
  obtain ⟨t, ht, hskip⟩ := parse_eq_ok_iff.mp h
  let rest := ' ' :: (x.toList ++ (" = ".toList ++ s))
  have hword : Word .global ("global".toList ++ rest) rest :=
    ⟨afterLayout_cons (by decide) (by decide) _, endsWord_space _⟩
  obtain ⟨u, hu⟩ := keyword_bind_miss (fun _ => _)
    fun v (hv : Word .function _ v) => absurd (hv.keyword_eq hword) (by decide)
  have hname := assigned_text hx ht (fun x e => pure (Definition.global x e))
    (afterLayout_space ((solid_of_isName hx).append (" = ".toList ++ s)).afterLayout)
  have hdefinition : definition ("global".toList ++ rest) = .ok (.global x e) t :=
    (orElse_miss hu).trans ((bind_ok (keyword_eq_ok_iff.mpr hword)).trans (committed_ok hname))
  obtain ⟨v, hv⟩ := definition_miss hskip
  have hall := many_ok definition_advances hdefinition (many_miss hv)
  have hlayout : layout t = .ok () [] := congrArg (Reply.ok ()) hskip
  have hprogram : program ("global".toList ++ rest) = .ok ⟨[.global x e]⟩ [] :=
    (bind_ok hall).trans (bind_ok hlayout)
  refine readAll_eq_ok_iff.mpr ?_
  simpa [rest] using hprogram

/-- Two plugged texts in parentheses with an operator between them are its operands. -/
theorem binary_plugged (op : Operator) (h₁ : Expr.parse s₁ = .ok e₁) (h₂ : Expr.parse s₂ = .ok e₂) :
    Expr.parse ("(".toList ++ s₁ ++ "\n) ".toList ++ op.symbol.toList ++ " (".toList ++ s₂ ++
      "\n)".toList) = .ok (.binary op e₁ e₂) := by
  let right := '(' :: (s₂ ++ '\n' :: ')' :: [])
  let rest := ' ' :: (op.symbol.toList ++ ' ' :: right)
  have hleft : primary ('(' :: (s₁ ++ '\n' :: ')' :: rest)) = .ok e₁ rest :=
    primary_plugged h₁ (afterLayout_cons (by decide) (by decide) _)
  have hright : primary (' ' :: right) = .ok e₂ [] :=
    primary_plugged h₂ (afterLayout_space (afterLayout_cons (by decide) (by decide) _))
  have hend : Stops [] := stops_of_layout rfl
  have hpair := comparison_pair hleft (symbol_text op right) (by simp) hright hend
  refine parse_eq_ok_iff.mpr ⟨[], ?_, rfl⟩
  simpa [rest, right] using expression_of_comparison_ok hpair hend

/-- A plugged text in braces is read as a block of one expression. -/
theorem single_plugged (h : Expr.parse s = .ok e) {r : List Char}
    (hy : AfterLayout y ('\x7b' :: (s ++ '\n' :: '\x7d' :: r))) : block y = .ok [e] r := by
  have hs : List.Forall₂ (fun s e => Expr.parse s = .ok e) [s] [e] := .cons h .nil
  refine block_plugged hs ?_
  simpa using hy

/-- A plugged text in parentheses, and one in braces after it, are read as the condition and the block
of a construct. -/
theorem condition_and_block_plugged (h : Expr.parse s = .ok e) (h₁ : Expr.parse s₁ = .ok e₁)
    (r : List Char) :
    let body := " \x7b".toList ++ (s₁ ++ '\n' :: '\x7d' :: r)
    comparison (" (".toList ++ (s ++ '\n' :: ')' :: body)) = .ok e body ∧ block body = .ok [e₁] r := by
  intro body
  have hopen : AfterLayout (" (".toList ++ (s ++ '\n' :: ')' :: body))
      ('(' :: (s ++ '\n' :: ')' :: body)) :=
    afterLayout_space (afterLayout_cons (by decide) (by decide) _)
  have hbrace : AfterLayout body ('\x7b' :: (s₁ ++ '\n' :: '\x7d' :: r)) :=
    afterLayout_space (afterLayout_cons (by decide) (by decide) _)
  have hstops : Stops body := stops_of_closer (first_of_afterLayout hbrace) (by decide)
  exact ⟨comparison_single (primary_plugged h hopen) hstops, single_plugged h₁ hbrace⟩

/-- A conditional with one branch is read of plugged texts. -/
theorem conditional_plugged (h : Expr.parse s = .ok e) (h₁ : Expr.parse s₁ = .ok e₁) :
    Expr.parse ("if (".toList ++ s ++ "\n) \x7b".toList ++ s₁ ++ "\n\x7d".toList) =
      .ok (.ifThen e [e₁]) := by
  let rest := " (".toList ++ (s ++ '\n' :: ')' :: (" \x7b".toList ++ (s₁ ++ '\n' :: '\x7d' :: [])))
  have hword : Word .conditional ("if".toList ++ rest) rest :=
    ⟨afterLayout_cons (by decide) (by decide) _, endsWord_space _⟩
  have helse : ∃ t, otherwiseOf expression [] = .miss t :=
    keyword_bind_miss _ (stops_of_layout rfl).2
  obtain ⟨t, ht⟩ := helse
  obtain ⟨hcondition, hbody⟩ := condition_and_block_plugged h h₁ []
  have hconditional : conditional ("if".toList ++ rest) = .ok (.ifThen e [e₁]) [] :=
    (bind_ok (keyword_eq_ok_iff.mpr hword)).trans (committed_ok
      ((bind_ok hcondition).trans ((bind_ok hbody).trans (bind_ok (optional_miss ht)))))
  refine parse_eq_ok_iff.mpr ⟨[], ?_, rfl⟩
  rw [← expression_of_conditional hword] at hconditional
  simpa [rest] using hconditional

/-- A conditional with two branches is read of plugged texts. -/
theorem branches_plugged (h : Expr.parse s = .ok e) (h₁ : Expr.parse s₁ = .ok e₁)
    (h₂ : Expr.parse s₂ = .ok e₂) :
    Expr.parse ("if (".toList ++ s ++ "\n) \x7b".toList ++ s₁ ++ "\n\x7d else \x7b".toList ++ s₂ ++
      "\n\x7d".toList) = .ok (.ifElse e [e₁] [e₂]) := by
  let other := " else \x7b".toList ++ (s₂ ++ '\n' :: '\x7d' :: [])
  let rest := " (".toList ++ (s ++ '\n' :: ')' :: (" \x7b".toList ++ (s₁ ++ '\n' :: '\x7d' :: other)))
  have hword : Word .conditional ("if".toList ++ rest) rest :=
    ⟨afterLayout_cons (by decide) (by decide) _, endsWord_space _⟩
  have helse : Word .otherwise other (" \x7b".toList ++ (s₂ ++ '\n' :: '\x7d' :: [])) :=
    ⟨afterLayout_space (afterLayout_cons (by decide) (by decide) _), endsWord_space _⟩
  have hblock : block (" \x7b".toList ++ (s₂ ++ '\n' :: '\x7d' :: [])) = .ok [e₂] [] :=
    single_plugged h₂ (afterLayout_space (afterLayout_cons (by decide) (by decide) _))
  have hotherwise : otherwiseOf expression other = .ok [e₂] [] :=
    (bind_ok (keyword_eq_ok_iff.mpr helse)).trans (committed_ok (orElse_ok hblock))
  obtain ⟨hcondition, hbody⟩ := condition_and_block_plugged h h₁ other
  have hconditional : conditional ("if".toList ++ rest) = .ok (.ifElse e [e₁] [e₂]) [] :=
    (bind_ok (keyword_eq_ok_iff.mpr hword)).trans (committed_ok
      ((bind_ok hcondition).trans ((bind_ok hbody).trans (bind_ok (optional_ok hotherwise)))))
  refine parse_eq_ok_iff.mpr ⟨[], ?_, rfl⟩
  rw [← expression_of_conditional hword] at hconditional
  simpa [rest, other] using hconditional

/-- A loop is read of plugged texts. -/
theorem loop_plugged (h : Expr.parse s = .ok e) (h₁ : Expr.parse s₁ = .ok e₁) :
    Expr.parse ("while (".toList ++ s ++ "\n) \x7b".toList ++ s₁ ++ "\n\x7d".toList) =
      .ok (.whileDo e [e₁]) := by
  let rest := " (".toList ++ (s ++ '\n' :: ')' :: (" \x7b".toList ++ (s₁ ++ '\n' :: '\x7d' :: [])))
  have hword : Word .loop ("while".toList ++ rest) rest :=
    ⟨afterLayout_cons (by decide) (by decide) _, endsWord_space _⟩
  obtain ⟨hcondition, hbody⟩ := condition_and_block_plugged h h₁ []
  have hloop : loop ("while".toList ++ rest) = .ok (.whileDo e [e₁]) [] :=
    (bind_ok (keyword_eq_ok_iff.mpr hword)).trans
      (committed_ok ((bind_ok hcondition).trans (bind_ok hbody)))
  refine parse_eq_ok_iff.mpr ⟨[], ?_, rfl⟩
  rw [← expression_of_loop hword] at hloop
  simpa [rest] using hloop

/-- The parser is compositional: any texts that are read as expressions, put into the places of a
construct with a newline after each of them where the construct goes on, are read as the construct of
their expressions. -/
theorem parse_plugged {ss : List (List Char)} {es : List Expr} {x : String} (op : Operator)
    (h : Expr.parse s = .ok e) (h₁ : Expr.parse s₁ = .ok e₁) (h₂ : Expr.parse s₂ = .ok e₂)
    (hs : List.Forall₂ (fun s e => Expr.parse s = .ok e) ss es) (hx : isName x.toList) :
    Expr.parse ("(".toList ++ s ++ "\n)".toList) = .ok e ∧
    Expr.parse ("println(".toList ++ s ++ "\n)".toList) = .ok (.print e) ∧
    Expr.parse (x.toList ++ "(".toList ++ ",".toList.intercalate (ss.map (· ++ "\n".toList)) ++
      ")".toList) = .ok (.call x es) ∧
    Expr.parse ("\x7b".toList ++ ";".toList.intercalate (ss.map (· ++ "\n".toList)) ++
      "\x7d".toList) = .ok (.block es) ∧
    Expr.parse (x.toList ++ " = ".toList ++ s) = .ok (.assign x e) ∧
    Expr.parse ("(".toList ++ s₁ ++ "\n) ".toList ++ op.symbol.toList ++ " (".toList ++ s₂ ++
      "\n)".toList) = .ok (.binary op e₁ e₂) ∧
    Expr.parse ("if (".toList ++ s ++ "\n) \x7b".toList ++ s₁ ++ "\n\x7d else \x7b".toList ++ s₂ ++
      "\n\x7d".toList) = .ok (.ifElse e [e₁] [e₂]) ∧
    Expr.parse ("if (".toList ++ s ++ "\n) \x7b".toList ++ s₁ ++ "\n\x7d".toList) =
      .ok (.ifThen e [e₁]) ∧
    Expr.parse ("while (".toList ++ s ++ "\n) \x7b".toList ++ s₁ ++ "\n\x7d".toList) =
      .ok (.whileDo e [e₁]) ∧
    Program.parse ("global ".toList ++ x.toList ++ " = ".toList ++ s) = .ok ⟨[.global x e]⟩ := by
  refine ⟨?_, ?_, ?_, ?_, assign_plugged hx h, binary_plugged op h₁ h₂, branches_plugged h h₁ h₂,
    conditional_plugged h h₁, loop_plugged h h₁, global_plugged hx h⟩
  · have hopen : AfterLayout ('(' :: (s ++ '\n' :: ')' :: [])) _ :=
      afterLayout_cons (by decide) (by decide) _
    simpa using parse_of_primary (primary_plugged h hopen)
  · simpa using parse_of_primary (print_plugged h [])
  · simpa using parse_of_primary (call_plugged hs hx [])
  · have hopen : AfterLayout ('\x7b' :: ([';'].intercalate (ss.map (· ++ ['\n'])) ++ '\x7d' :: [])) _ :=
      afterLayout_cons (by decide) (by decide) _
    have hblock : expression _ = .ok (.block es) [] :=
      (expression_of_brace hopen).trans (map_eq_ok_iff.mpr ⟨es, block_plugged hs hopen, rfl⟩)
    simpa using parse_eq_ok_iff.mpr ⟨[], hblock, rfl⟩

/-- A comparison before a comment, a conditional without a second branch and an assignment stay what they
are as a condition, a branch and an argument. -/
theorem parse_plugged_of_open_texts :
    let s := "a < b // )".toList
    let s₁ := "if a \x7b f (1) \x7d".toList
    let s₂ := "x = 1 - 2 - f() // \x7b".toList
    let e : Expr := .binary .lessThan (.var "a") (.var "b")
    let e₁ : Expr := .ifThen (.var "a") [.var "f", .int 1]
    let e₂ : Expr := .assign "x"
      (.binary .subtract (.binary .subtract (.int 1) (.int 2)) (.call "f" []))
    Expr.parse ("if (".toList ++ s ++ "\n) \x7b".toList ++ s₁ ++ "\n\x7d else \x7b".toList ++ s₂ ++
      "\n\x7d".toList) = .ok (.ifElse e [e₁] [e₂]) ∧
    Expr.parse ("g".toList ++ "(".toList ++ ",".toList.intercalate ([s₂, s].map (· ++ "\n".toList)) ++
      ")".toList) = .ok (.call "g" [e₂, e]) := by
  intro s s₁ s₂ e e₁ e₂
  have h : Expr.parse s = .ok e := by decide +kernel
  have h₁ : Expr.parse s₁ = .ok e₁ := by decide +kernel
  have h₂ : Expr.parse s₂ = .ok e₂ := by decide +kernel
  have hs : List.Forall₂ (fun s e => Expr.parse s = .ok e) [s₂, s] [e₂, e] :=
    .cons h₂ (.cons h .nil)
  have hx : isName "g".toList := by decide
  obtain ⟨-, -, hcall, -, -, -, hbranches, -⟩ := parse_plugged .add h h₁ h₂ hs hx
  exact ⟨hbranches, hcall⟩

end Parser

end Scriptlet
