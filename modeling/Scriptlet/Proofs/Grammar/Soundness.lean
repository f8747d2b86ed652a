import Scriptlet.Parser.Source
import Scriptlet.Proofs.Parser.Fixpoint
import Scriptlet.Proofs.Parser.Token

/-!
# What is read is derived

Whenever a parser succeeds, the grammar derives the tree that it gives from the text that it has
read. The constructs over a parser of nested expressions derive what they read if that parser does,
so that the statement for expressions follows by induction on the depth of nesting
(`expression_sound`), and that for programs from it (`program_sound`).
-/

namespace Scriptlet

open Scriptlet.Text

namespace Grammar

/-! ### Where a keyword stands -/

/-- A chain starts with a primary expression. -/
theorem Chain.exists_primary {level : Nat} {s r : List Char} {e : Expr} :
    Chain level s r e → ∃ t f, Primary s t f
  | .primary h => ⟨r, e, h⟩
  | .chain _ h _ => h.exists_primary

/-- No primary expression starts with a keyword other than that of prints. -/
theorem Word.eq_print {k : Keyword} {s t r : List Char} {e : Expr} (hk : Word k s t)
    (h : Primary s r e) : k = .print := by
  cases h with
  | parenthesized hp _ _ => exact absurd (of_first (hp.first rfl) hk.first) (by decide)
  | print hp _ _ _ => exact hk.keyword_eq hp
  | call hf _ _ => exact absurd hf hk.not_name
  | integer hv =>
    obtain ⟨c, hc, hstart⟩ := hk.first
    exact absurd (of_first hc hv.first) (not_number_of_isNameStart hstart)
  | var hx => exact absurd hx hk.not_name

/-- An expression that starts with the keyword of conditionals is one. -/
theorem Expression.conditional_of_word {s t r : List Char} {e : Expr} (h : Expression s r e)
    (hk : Word .conditional s t) : Conditional s r e := by
  cases h with
  | conditional h => exact h
  | loop h =>
    cases h with
    | whileDo hw _ _ => exact absurd (hk.keyword_eq hw) (by decide)
  | block h =>
    cases h with
    | braces hb _ _ => exact absurd (of_first (hb.first rfl) hk.first) (by decide)
  | assignment h =>
    cases h with
    | assign hx _ _ => exact absurd hx hk.not_name
  | comparison h =>
    obtain ⟨_, _, hp⟩ := h.exists_primary
    exact absurd (hk.eq_print hp) (by decide)

end Grammar

namespace Parser

open Scriptlet.Grammar

/-! ### Constructs over the parser of nested expressions -/

section nested

variable {expr : Parser Expr} (he : Advances expr)
  (hs : ∀ {s r : List Char} {e : Expr}, expr s = .ok e r → Expression s r e)

include he hs

/-- The rounds of a block are its items. -/
theorem items_sound {b : List Expr} {s r : List Char} (h : many (itemOf expr) s = .ok b r) :
    Items s r b := by
  refine many_ok_induction (itemOf_advances he) (fun _ => .nil) (fun h ih => ?_) h
  obtain ⟨f, u, hf, h⟩ := bind_eq_ok_iff.mp h
  obtain ⟨o, v, ho, h⟩ := bind_eq_ok_iff.mp h
  obtain ⟨rfl, rfl⟩ := pure_eq_ok_iff.mp h
  rcases optional_eq_ok_iff.mp ho with ⟨_, hsemi, -⟩ | ⟨-, -, rfl⟩
  · exact .consSemicolon (hs hf) (token_eq_ok_iff.mp hsemi) ih
  · exact .cons (hs hf) ih

/-- What is read as a block is one. -/
theorem blockOf_sound {b : Block} {s r : List Char} (h : blockOf expr s = .ok b r) :
    Braces s r b := by
  obtain ⟨_, s₁, hopen, h⟩ := bind_eq_ok_iff.mp h
  obtain ⟨items, s₂, hitems, h⟩ := bind_eq_ok_iff.mp (committed_eq_ok_iff.mp h)
  obtain ⟨_, s₃, hclose, h⟩ := bind_eq_ok_iff.mp h
  obtain ⟨rfl, rfl⟩ := pure_eq_ok_iff.mp h
  exact .braces (token_eq_ok_iff.mp hopen) (items_sound he hs hitems) (token_eq_ok_iff.mp hclose)

/-- What is read as arguments after the first one is a list of them. -/
theorem moreArguments_sound {es : List Expr} {s r : List Char}
    (h : many (moreOf expr) s = .ok es r) : MoreArguments s r es := by
  refine many_ok_induction (moreOf_advances he.trims) (fun _ => .nil) (fun h ih => ?_) h
  obtain ⟨_, u, hcomma, hf⟩ := bind_eq_ok_iff.mp h
  exact .cons (token_eq_ok_iff.mp hcomma) (hs hf) ih

/-- What is read as arguments is a list of them, which may be empty. -/
theorem arguments_sound {es : List Expr} {s r : List Char}
    (h : separated expr (token ",") s = .ok es r) : Arguments s r es := by
  rw [separated_comma] at h
  rcases orElse_eq_ok_iff.mp h with h | ⟨-, h⟩
  · obtain ⟨e, t, ht, h⟩ := bind_eq_ok_iff.mp h
    obtain ⟨more, u, hmore, h⟩ := bind_eq_ok_iff.mp h
    obtain ⟨rfl, rfl⟩ := pure_eq_ok_iff.mp h
    exact .some (hs ht) (moreArguments_sound he hs hmore)
  · obtain ⟨rfl, rfl⟩ := pure_eq_ok_iff.mp h
    exact .none

/-- What is read as a primary expression is one, whichever alternative has read it. -/
theorem primaryOf_sound {e : Expr} {s r : List Char} (h : primaryOf expr s = .ok e r) :
    Primary s r e := by
  rcases orElse_eq_ok_iff.mp h with h | ⟨-, h⟩
  · obtain ⟨_, s₁, hopen, h⟩ := bind_eq_ok_iff.mp h
    obtain ⟨f, s₂, hf, h⟩ := bind_eq_ok_iff.mp (committed_eq_ok_iff.mp h)
    obtain ⟨_, s₃, hclose, h⟩ := bind_eq_ok_iff.mp h
    obtain ⟨rfl, rfl⟩ := pure_eq_ok_iff.mp h
    exact .parenthesized (token_eq_ok_iff.mp hopen) (hs hf) (token_eq_ok_iff.mp hclose)
  rcases orElse_eq_ok_iff.mp h with h | ⟨-, h⟩
  · obtain ⟨_, s₁, hword, h⟩ := bind_eq_ok_iff.mp h
    obtain ⟨_, s₂, hopen, h⟩ := bind_eq_ok_iff.mp (committed_eq_ok_iff.mp h)
    obtain ⟨f, s₃, hf, h⟩ := bind_eq_ok_iff.mp h
    obtain ⟨_, s₄, hclose, h⟩ := bind_eq_ok_iff.mp h
    obtain ⟨rfl, rfl⟩ := pure_eq_ok_iff.mp h
    exact .print (keyword_eq_ok_iff.mp hword) (token_eq_ok_iff.mp hopen) (hs hf)
      (token_eq_ok_iff.mp hclose)
  rcases orElse_eq_ok_iff.mp h with h | ⟨-, h⟩
  · obtain ⟨f, s₁, hname, h⟩ := bind_eq_ok_iff.mp h
    obtain ⟨_, s₂, hopen, h⟩ := bind_eq_ok_iff.mp h
    obtain ⟨es, s₃, hes, h⟩ := bind_eq_ok_iff.mp (committed_eq_ok_iff.mp h)
    obtain ⟨_, s₄, hclose, h⟩ := bind_eq_ok_iff.mp h
    obtain ⟨rfl, rfl⟩ := pure_eq_ok_iff.mp h
    obtain rfl := literal_eq_ok_iff.mp hopen
    exact .call (identifier_eq_ok_iff.mp hname) (arguments_sound he hs hes)
      (token_eq_ok_iff.mp hclose)
  rcases orElse_eq_ok_iff.mp h with h | ⟨-, h⟩
  · obtain ⟨v, hv, rfl⟩ := map_eq_ok_iff.mp h
    exact .integer (integer_eq_ok_iff.mp hv)
  · obtain ⟨x, hx, rfl⟩ := map_eq_ok_iff.mp h
    exact .var (identifier_eq_ok_iff.mp hx)

omit he hs in
/-- The rounds of a chain are its links. -/
theorem links_sound {level : Nat} (hl : level < 3) {operand : Parser Expr} (ho : Advances operand)
    (hos : ∀ {s r : List Char} {e : Expr}, operand s = .ok e r → Chain (level + 1) s r e)
    {links : List (Operator × Expr)} {s r : List Char}
    (h : many (linkOf (operatorsAt level) operand) s = .ok links r) : Links level s r links := by
  refine many_ok_induction (linkOf_advances _ ho.trims) (fun _ => .nil) (fun h ih => ?_) h
  obtain ⟨op, u, hop, h⟩ := bind_eq_ok_iff.mp h
  obtain ⟨e, v, he, h⟩ := bind_eq_ok_iff.mp h
  obtain ⟨rfl, rfl⟩ := pure_eq_ok_iff.mp h
  obtain ⟨hmem, hsymbol⟩ := operatorAmong_eq_ok hop
  exact .cons (level_of_mem_operatorsAt hl hmem) hsymbol (hos he) ih

omit he hs in
/-- What is read as a chain of a level is one, if its operands are chains of the next level. -/
theorem chainOf_sound {level : Nat} (hl : level < 3) {operand : Parser Expr}
    (ho : Advances operand)
    (hos : ∀ {s r : List Char} {e : Expr}, operand s = .ok e r → Chain (level + 1) s r e)
    {s r : List Char} {e : Expr} (h : chainOf (operatorsAt level) operand s = .ok e r) :
    Chain level s r e := by
  obtain ⟨first, s₁, hfirst, h⟩ := bind_eq_ok_iff.mp h
  obtain ⟨links, s₂, hlinks, h⟩ := bind_eq_ok_iff.mp h
  obtain ⟨rfl, rfl⟩ := pure_eq_ok_iff.mp h
  exact .chain hl (hos hfirst) (links_sound hl ho hos hlinks)

/-- What is read as a comparison is a chain of the lowest level. -/
theorem comparisonOf_sound {e : Expr} {s r : List Char} (h : comparisonOf expr s = .ok e r) :
    Chain 0 s r e :=
  have hprimary := primaryOf_advances he.trims
  chainOf_sound (by decide) (sumOf_advances he.trims)
    (chainOf_sound (by decide) (productOf_advances he.trims)
      (chainOf_sound (by decide) hprimary fun h => .primary (primaryOf_sound he hs h))) h

/-- What is read as a conditional is one, with a second branch or without one. -/
theorem conditionalOf_sound {e : Expr} {s r : List Char} (h : conditionalOf expr s = .ok e r) :
    Conditional s r e := by
  obtain ⟨_, s₁, hword, h⟩ := bind_eq_ok_iff.mp h
  obtain ⟨c, s₂, hc, h⟩ := bind_eq_ok_iff.mp (committed_eq_ok_iff.mp h)
  obtain ⟨b, s₃, hb, h⟩ := bind_eq_ok_iff.mp h
  obtain ⟨o, s₄, ho, h⟩ := bind_eq_ok_iff.mp h
  have hword := keyword_eq_ok_iff.mp hword
  have hc := comparisonOf_sound he hs hc
  have hb := blockOf_sound he hs hb
  rcases optional_eq_ok_iff.mp ho with ⟨d, hd, rfl⟩ | ⟨-, rfl, rfl⟩
  · obtain ⟨rfl, rfl⟩ := pure_eq_ok_iff.mp h
    obtain ⟨_, s₅, helse, hd⟩ := bind_eq_ok_iff.mp hd
    have helse := keyword_eq_ok_iff.mp helse
    rcases orElse_eq_ok_iff.mp (committed_eq_ok_iff.mp hd) with hd | ⟨-, hd⟩
    · exact .ifElse hword hc hb helse (blockOf_sound he hs hd)
    · obtain ⟨_, s₆, hahead, hd⟩ := bind_eq_ok_iff.mp hd
      obtain ⟨rfl, _, _, hif⟩ := ahead_eq_ok_iff.mp hahead
      obtain ⟨f, s₇, hf, hd⟩ := bind_eq_ok_iff.mp hd
      obtain ⟨rfl, rfl⟩ := pure_eq_ok_iff.mp hd
      exact .elseIf hword hc hb helse ((hs hf).conditional_of_word (keyword_eq_ok_iff.mp hif))
  · obtain ⟨rfl, rfl⟩ := pure_eq_ok_iff.mp h
    exact .ifThen hword hc hb

/-- What is read as a loop is one. -/
theorem loopOf_sound {e : Expr} {s r : List Char} (h : loopOf expr s = .ok e r) : Loop s r e := by
  obtain ⟨_, s₁, hword, h⟩ := bind_eq_ok_iff.mp h
  obtain ⟨c, s₂, hc, h⟩ := bind_eq_ok_iff.mp (committed_eq_ok_iff.mp h)
  obtain ⟨b, s₃, hb, h⟩ := bind_eq_ok_iff.mp h
  obtain ⟨rfl, rfl⟩ := pure_eq_ok_iff.mp h
  exact .whileDo (keyword_eq_ok_iff.mp hword) (comparisonOf_sound he hs hc) (blockOf_sound he hs hb)

omit he in
/-- What is read as an assignment is one. -/
theorem assignmentOf_sound {e : Expr} {s r : List Char} (h : assignmentOf expr s = .ok e r) :
    Assignment s r e := by
  obtain ⟨x, s₁, hx, h⟩ := bind_eq_ok_iff.mp h
  obtain ⟨_, s₂, hsign, h⟩ := bind_eq_ok_iff.mp h
  obtain ⟨f, s₃, hf, h⟩ := bind_eq_ok_iff.mp h
  obtain ⟨rfl, rfl⟩ := pure_eq_ok_iff.mp h
  exact .assign (identifier_eq_ok_iff.mp hx) (assignSign_eq_ok_iff.mp hsign) (hs hf)

/-- What is read as an expression is one, whichever construct has read it. -/
theorem expressionOf_sound {e : Expr} {s r : List Char} (h : expressionOf expr s = .ok e r) :
    Expression s r e := by
  rcases orElse_eq_ok_iff.mp h with h | ⟨-, h⟩
  · exact .conditional (conditionalOf_sound he hs h)
  rcases orElse_eq_ok_iff.mp h with h | ⟨-, h⟩
  · exact .loop (loopOf_sound he hs h)
  rcases orElse_eq_ok_iff.mp h with h | ⟨-, h⟩
  · obtain ⟨b, hb, rfl⟩ := map_eq_ok_iff.mp h
    exact .block (blockOf_sound he hs hb)
  rcases orElse_eq_ok_iff.mp h with h | ⟨-, h⟩
  · exact .assignment (assignmentOf_sound hs h)
  · exact .comparison (comparisonOf_sound he hs h)

end nested

/-! ### Expressions and programs -/

/-- What is read as an expression is one, to whatever depth it is followed. -/
theorem expressionWithin_sound {depth : Nat} {s r : List Char} {e : Expr}
    (h : expressionWithin depth s = .ok e r) : Expression s r e := by
  induction depth generalizing s r e with
  | zero => cases h
  | succ depth ih => exact expressionOf_sound (expressionWithin_advances depth) ih h

/-- The expression that is read is derived. -/
theorem expression_sound {s r : List Char} {e : Expr} (h : expression s = .ok e r) :
    Expression s r e :=
  expressionWithin_sound h

/-- What is read as a block of expressions is one. -/
theorem block_sound {s r : List Char} {b : Block} (h : block s = .ok b r) : Braces s r b :=
  blockOf_sound expression_advances expression_sound h

/-- What is read as parameters after the first one is a list of them. -/
theorem moreNames_sound {xs : List String} {s r : List Char}
    (h : many (moreOf identifier) s = .ok xs r) : MoreNames s r xs := by
  refine many_ok_induction (moreOf_advances identifier_advances.trims) (fun _ => .nil)
    (fun h ih => ?_) h
  obtain ⟨_, u, hcomma, hx⟩ := bind_eq_ok_iff.mp h
  exact .cons (token_eq_ok_iff.mp hcomma) (identifier_eq_ok_iff.mp hx) ih

/-- What is read as parameters is a list of them, which may be empty. -/
theorem names_sound {xs : List String} {s r : List Char}
    (h : separated identifier (token ",") s = .ok xs r) : Names s r xs := by
  rw [separated_comma] at h
  rcases orElse_eq_ok_iff.mp h with h | ⟨-, h⟩
  · obtain ⟨x, t, hx, h⟩ := bind_eq_ok_iff.mp h
    obtain ⟨more, u, hmore, h⟩ := bind_eq_ok_iff.mp h
    obtain ⟨rfl, rfl⟩ := pure_eq_ok_iff.mp h
    exact .some (identifier_eq_ok_iff.mp hx) (moreNames_sound hmore)
  · obtain ⟨rfl, rfl⟩ := pure_eq_ok_iff.mp h
    exact .none

/-- What is read as a definition is one. -/
theorem definition_sound {d : Definition} {s r : List Char} (h : definition s = .ok d r) :
    TopLevel s r d := by
  rcases orElse_eq_ok_iff.mp h with h | ⟨-, h⟩
  · obtain ⟨_, s₁, hword, h⟩ := bind_eq_ok_iff.mp h
    obtain ⟨f, s₂, hname, h⟩ := bind_eq_ok_iff.mp (committed_eq_ok_iff.mp h)
    obtain ⟨xs, s₃, hparams, h⟩ := bind_eq_ok_iff.mp h
    obtain ⟨b, s₄, hb, h⟩ := bind_eq_ok_iff.mp h
    obtain ⟨rfl, rfl⟩ := pure_eq_ok_iff.mp h
    obtain ⟨_, s₅, hopen, h⟩ := bind_eq_ok_iff.mp hparams
    obtain ⟨names, s₆, hnames, h⟩ := bind_eq_ok_iff.mp h
    obtain ⟨_, s₇, hclose, h⟩ := bind_eq_ok_iff.mp h
    obtain ⟨rfl, rfl⟩ := pure_eq_ok_iff.mp h
    exact .function (keyword_eq_ok_iff.mp hword) (identifier_eq_ok_iff.mp hname)
      (token_eq_ok_iff.mp hopen) (names_sound hnames) (token_eq_ok_iff.mp hclose) (block_sound hb)
  · obtain ⟨_, s₁, hword, h⟩ := bind_eq_ok_iff.mp h
    obtain ⟨x, s₂, hx, h⟩ := bind_eq_ok_iff.mp (committed_eq_ok_iff.mp h)
    obtain ⟨_, s₃, hsign, h⟩ := bind_eq_ok_iff.mp h
    obtain ⟨e, s₄, he, h⟩ := bind_eq_ok_iff.mp h
    obtain ⟨rfl, rfl⟩ := pure_eq_ok_iff.mp h
    exact .global (keyword_eq_ok_iff.mp hword) (identifier_eq_ok_iff.mp hx)
      (assignSign_eq_ok_iff.mp hsign) (expression_sound he)

/-- What is read as definitions is a list of them. -/
theorem definitions_sound {ds : List Definition} {s r : List Char}
    (h : many definition s = .ok ds r) : Definitions s r ds :=
  many_ok_induction definition_advances (fun _ => .nil) (fun h ih => .cons (definition_sound h) ih) h

/-- A whole text is read only if nothing is left of it. -/
theorem readAll_eq_ok_iff {α : Type} {p : Parser α} {leftOver : List Char → ParseError}
    {source : List Char} {a : α} :
    p.readAll leftOver source = .ok a ↔ p source = .ok a [] := by
  unfold readAll
  split <;> simp_all

/-- Layout is read up to the end of a text exactly if the rest of the text is layout. -/
theorem layout_eq_ok_nil {s : List Char} {u : Unit} (h : layout s = .ok u []) : Layout s [] := by
  have hskip : skip s = [] := (Reply.ok.inj h).2
  exact hskip ▸ layout_skip s

/-- A whole text is an expression if one is read from it and nothing but layout is left. -/
theorem parse_eq_ok_iff {s : List Char} {e : Expr} :
    Expr.parse s = .ok e ↔ ∃ t, expression s = .ok e t ∧ skip t = [] := by
  rw [Expr.parse, readAll_eq_ok_iff, bind_eq_ok_iff]
  constructor
  · rintro ⟨f, t, hf, hrest⟩
    obtain ⟨_, u, hlayout, hpure⟩ := bind_eq_ok_iff.mp hrest
    obtain ⟨rfl, rfl⟩ := pure_eq_ok_iff.mp hpure
    exact ⟨t, hf, (Reply.ok.inj hlayout).2⟩
  · rintro ⟨t, ht, hskip⟩
    have hlayout : layout t = .ok () [] := congrArg (Reply.ok ()) hskip
    exact ⟨e, t, ht, bind_ok hlayout⟩

/-- The program that is read from a whole text is derived from it. -/
theorem program_sound {source : List Char} {p : Program} (h : Program.parse source = .ok p) :
    DerivesProgram source p := by
  obtain ⟨ds, t, hds, h⟩ := bind_eq_ok_iff.mp (readAll_eq_ok_iff.mp h)
  obtain ⟨_, u, hu, h⟩ := bind_eq_ok_iff.mp h
  obtain ⟨rfl, rfl⟩ := pure_eq_ok_iff.mp h
  exact ⟨t, definitions_sound hds, layout_eq_ok_nil hu⟩

/-- The expression that is read from a whole text is derived from it. -/
theorem expr_sound {source : List Char} {e : Expr} (h : Expr.parse source = .ok e) :
    DerivesExpr source e := by
  obtain ⟨t, ht, hskip⟩ := parse_eq_ok_iff.mp h
  exact ⟨t, expression_sound ht, hskip ▸ layout_skip t⟩

end Parser

end Scriptlet
