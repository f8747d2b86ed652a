import Scriptlet.Proofs.Parser.Fixpoint
import Scriptlet.Proofs.Parser.Token

/-!
# Which construct a text is read as

An expression is tried as a conditional, a loop, a block, an assignment and a comparison, a primary
expression as one in parentheses, a print, a call, an integer and a variable. Each lemma here names
the first tokens of a text that decide between them: the alternatives before the right one miss, and
from the tokens on it commits itself (`expression_of_…`, `primary_of_…`). Where no expression can
start, all of them miss (`expression_miss`).
-/

namespace Scriptlet

open Scriptlet.Text
open Scriptlet.Grammar

namespace Parser

variable {α β : Type}

/-- A construct that is committed to does not miss. -/
theorem committed_ne_miss (p : Parser α) (s t : List Char) : committed p s ≠ .miss t := by
  cases h : p s with
  | ok a r => rw [committed_ok h]; nofun
  | miss r => rw [committed_miss h]; nofun
  | fail fault r => rw [committed_fail h]; nofun

/-- After a keyword or an opening token, a construct is committed to. -/
theorem bind_committed_ne_miss {p : Parser α} {f : α → Parser β} {s r : List Char} {a : α}
    (h : p s = .ok a r) (t : List Char) : (p >>= fun a => committed (f a)) s ≠ .miss t := by
  rw [bind_ok h]
  exact committed_ne_miss _ _ _

/-- Where the first side of a choice does not miss, the second one is not tried. -/
theorem orElse_of_ne_miss {p q : Parser α} {s : List Char} (h : ∀ t, p s ≠ .miss t) :
    (p <|> q) s = p s := by
  cases hp : p s with
  | ok a r => exact orElse_ok hp
  | miss r => exact absurd hp (h r)
  | fail fault r => exact orElse_fail hp

section tokens

variable {s : List Char}

/-- A parser misses where its first token does not stand. -/
theorem token_bind_miss {text : String} (f : Unit → Parser α) (h : ∀ t, ¬ Symbol text s t) :
    ∃ t, (token text >>= f) s = .miss t := by
  obtain ⟨t, ht⟩ := (token_neverFails text).exists_miss
    fun _ r hok => h r (token_eq_ok_iff.mp hok)
  exact ⟨t, bind_miss ht⟩

/-- A parser misses where its keyword does not stand. -/
theorem keyword_bind_miss {k : Keyword} (f : Unit → Parser α) (h : ∀ t, ¬ Word k s t) :
    ∃ t, (keyword k >>= f) s = .miss t := by
  obtain ⟨t, ht⟩ := (keyword_neverFails k).exists_miss
    fun _ r hok => h r (keyword_eq_ok_iff.mp hok)
  exact ⟨t, bind_miss ht⟩

/-- A parser misses where its name does not stand. -/
theorem identifier_bind_miss (f : String → Parser α) (h : ∀ t x, ¬ Name s t x) :
    ∃ t, (identifier >>= f) s = .miss t := by
  obtain ⟨t, ht⟩ := identifier_neverFails.exists_miss
    fun x r hok => h r x (identifier_eq_ok_iff.mp hok)
  exact ⟨t, bind_miss ht⟩

end tokens

/-! ### Misses of constructs -/

section nested

variable {s : List Char}

/-- What is no name before the sign of an assignment is no assignment. -/
theorem assignmentOf_miss (expr : Parser Expr) (h : ∀ t x, Name s t x → ∀ u, ¬ Sign t u) :
    ∃ t, assignmentOf expr s = .miss t := by
  by_cases hname : ∃ t x, Name s t x
  · obtain ⟨t, x, hx⟩ := hname
    obtain ⟨u, hu⟩ := assignSign_neverFails.exists_miss
      fun _ r hok => h t x hx r (assignSign_eq_ok_iff.mp hok)
    exact ⟨u, (bind_ok (identifier_eq_ok_iff.mpr hx)).trans (bind_miss hu)⟩
  · push Not at hname
    exact identifier_bind_miss _ hname

/-- What is no name right before a parenthesis is no call. -/
theorem callOf_miss (expr : Parser Expr) (h : ∀ t x, ¬ Name s ('(' :: t) x) :
    ∃ t, callOf expr s = .miss t := by
  by_cases hname : ∃ t x, Name s t x
  · obtain ⟨t, x, hx⟩ := hname
    obtain ⟨u, hu⟩ := (literal_neverFails ['(']).exists_miss (s := t) fun _ r hok => by
      obtain rfl := literal_eq_ok_iff.mp hok
      exact h r x hx
    exact ⟨u, (bind_ok (identifier_eq_ok_iff.mpr hx)).trans (bind_miss hu)⟩
  · push Not at hname
    exact identifier_bind_miss _ hname

end nested

/-! ### Primary expressions -/

section primary

variable {s r t : List Char}

/-- A parenthesis opens an expression in parentheses, since no other primary expression starts with
one. -/
theorem primary_of_parenthesis (h : Symbol "(" s t) :
    primary s = parenthesizedOf expression s :=
  orElse_of_ne_miss (bind_committed_ne_miss (token_eq_ok_iff.mpr h))

/-- The word of a print starts one. -/
theorem primary_of_print (h : Word .print s t) : primary s = print s := by
  have hparen := not_symbol_of_isNameStart "(" h.first rfl (by decide)
  obtain ⟨u, hu⟩ := token_bind_miss (fun _ => _) hparen
  exact (orElse_miss hu).trans
    (orElse_of_ne_miss (bind_committed_ne_miss (keyword_eq_ok_iff.mpr h)))

/-- A name with a parenthesis right after it starts a call. -/
theorem primary_of_call {x : String} (h : Name s ('(' :: t) x) : primary s = call s := by
  have hparen := not_symbol_of_isNameStart "(" h.first rfl (by decide)
  obtain ⟨u, hu⟩ := token_bind_miss (fun _ => _) hparen
  obtain ⟨v, hv⟩ := keyword_bind_miss (fun _ => _) fun w (hw : Word .print s w) => hw.not_name h
  refine (orElse_miss hu).trans ((orElse_miss hv).trans (orElse_of_ne_miss fun w => ?_))
  have hopen : literal ['('] ('(' :: t) = .ok () t := literal_eq_ok_iff.mpr rfl
  rw [callOf, bind_ok (identifier_eq_ok_iff.mpr h)]
  exact bind_committed_ne_miss hopen w

/-- What is read in parentheses, as a print or as a call is read as an operand. -/
theorem primary_of_parenthesized_ok {e : Expr} (h : parenthesizedOf expression s = .ok e r) :
    primary s = .ok e r := by
  obtain ⟨_, t, hopen, -⟩ := bind_eq_ok_iff.mp h
  rwa [primary_of_parenthesis (token_eq_ok_iff.mp hopen)]

/-- What is read as a print is no expression in parentheses. -/
theorem primary_of_print_ok {e : Expr} (h : print s = .ok e r) : primary s = .ok e r := by
  obtain ⟨_, t, hword, -⟩ := bind_eq_ok_iff.mp h
  rwa [primary_of_print (keyword_eq_ok_iff.mp hword)]

/-- What is read as a call is neither of the two before it. -/
theorem primary_of_call_ok {e : Expr} (h : call s = .ok e r) : primary s = .ok e r := by
  obtain ⟨f, t, hname, hrest⟩ := bind_eq_ok_iff.mp h
  obtain ⟨_, u, hopen, -⟩ := bind_eq_ok_iff.mp hrest
  obtain rfl := literal_eq_ok_iff.mp hopen
  rwa [primary_of_call (identifier_eq_ok_iff.mp hname)]

/-- A number is no name and starts with no other token. -/
theorem primary_of_number (h : ∃ c, first s = some c ∧ (c.isDigit ∨ c = '-')) :
    primary s = ((Expr.int <$> integer) <|> (Expr.var <$> identifier) : Parser Expr) s := by
  have hstart : ∀ d ∈ first s, ¬ isNameStart d := by
    intro d hd hstart
    exact not_number_of_isNameStart hstart (of_first hd h)
  have hparen : first s ≠ some '(' := by
    intro hparen
    exact absurd (of_first hparen h) (by decide)
  obtain ⟨u, hu⟩ := token_miss "(" rfl hparen
  obtain ⟨v, hv⟩ := keyword_miss .print hstart
  obtain ⟨w, hw⟩ := identifier_miss hstart
  exact (orElse_miss (bind_miss hu)).trans
    ((orElse_miss (bind_miss hv)).trans (orElse_miss (bind_miss hw)))

/-- A name without a parenthesis right after it is a variable. -/
theorem primary_of_name {x : String} (h : Name s r x) (hr : r.head? ≠ some '(') :
    primary s = .ok (.var x) r := by
  have hname : identifier s = .ok x r := identifier_eq_ok_iff.mpr h
  have hparen := not_symbol_of_isNameStart "(" h.first rfl (by decide)
  obtain ⟨u, hu⟩ := token_bind_miss (fun _ => _) hparen
  obtain ⟨v, hv⟩ := keyword_bind_miss (fun _ => _) fun w (hw : Word .print s w) => hw.not_name h
  obtain ⟨w, hw⟩ := callOf_miss expression (s := s) fun t y hy => by
    rw [(h.unique hy).2] at hr
    exact hr rfl
  obtain ⟨z, hz⟩ := integer_miss (s := s) fun d hd =>
    not_or.mp (not_number_of_isNameStart (of_first hd h.first))
  exact (orElse_miss hu).trans ((orElse_miss hv).trans ((orElse_miss hw).trans
    ((orElse_miss (bind_miss hz)).trans (bind_ok hname))))

end primary

/-! ### Expressions -/

section expression

variable {s r t : List Char}

/-- The keyword of a conditional starts one. -/
theorem expression_of_conditional (h : Word .conditional s t) : expression s = conditional s := by
  rw [expression_eq]
  exact orElse_of_ne_miss (bind_committed_ne_miss (keyword_eq_ok_iff.mpr h))

/-- The keyword of a loop starts one. -/
theorem expression_of_loop (h : Word .loop s t) : expression s = loop s := by
  rw [expression_eq]
  obtain ⟨u, hu⟩ := keyword_bind_miss (fun _ => _)
    fun w (hw : Word .conditional s w) => absurd (hw.keyword_eq h) (by decide)
  exact (orElse_miss hu).trans
    (orElse_of_ne_miss (bind_committed_ne_miss (keyword_eq_ok_iff.mpr h)))

/-- Where no keyword of a construct stands, an expression is a block, an assignment or a
comparison. -/
theorem expression_of_not_word (hif : ∀ t, ¬ Word .conditional s t) (hwhile : ∀ t, ¬ Word .loop s t) :
    expression s = ((Expr.block <$> block) <|> assignment <|> comparison : Parser Expr) s := by
  rw [expression_eq]
  obtain ⟨u, hu⟩ := keyword_bind_miss (fun _ => _) hif
  obtain ⟨v, hv⟩ := keyword_bind_miss (fun _ => _) hwhile
  exact (orElse_miss hu).trans (orElse_miss hv)

/-- A brace opens a block, since neither a conditional nor a loop starts with one. -/
theorem expression_of_brace (h : Symbol "\x7b" s t) :
    expression s = (Expr.block <$> block : Parser Expr) s := by
  rw [expression_of_not_word (fun _ hw => not_symbol_of_isNameStart "\x7b" hw.first rfl (by decide) t h)
    fun _ hw => not_symbol_of_isNameStart "\x7b" hw.first rfl (by decide) t h]
  refine orElse_of_ne_miss fun u hu => ?_
  cases hb : block s with
  | ok b v => rw [map_eq_pure_bind, bind_ok hb] at hu; cases hu
  | miss v => exact bind_committed_ne_miss (token_eq_ok_iff.mpr h) v hb
  | fail fault v => rw [map_eq_pure_bind, bind_fail hb] at hu; cases hu

/-- A name starts an assignment or a comparison. -/
theorem expression_of_name {x : String} (h : Name s t x) :
    expression s = (assignment <|> comparison : Parser Expr) s := by
  rw [expression_of_not_word (fun _ hw => hw.not_name h) fun _ hw => hw.not_name h]
  have hbrace := not_symbol_of_isNameStart "\x7b" h.first rfl (by decide)
  obtain ⟨u, hu⟩ := token_bind_miss (fun _ => _) hbrace
  exact orElse_miss (bind_miss hu)

/-- What is read as a conditional, a loop, a block or an assignment is read as an expression. -/
theorem expression_of_conditional_ok {e : Expr} (h : conditional s = .ok e r) :
    expression s = .ok e r := by
  obtain ⟨_, t, hword, -⟩ := bind_eq_ok_iff.mp h
  rwa [expression_of_conditional (keyword_eq_ok_iff.mp hword)]

/-- What is read as a loop is no conditional. -/
theorem expression_of_loop_ok {e : Expr} (h : loop s = .ok e r) : expression s = .ok e r := by
  obtain ⟨_, t, hword, -⟩ := bind_eq_ok_iff.mp h
  rwa [expression_of_loop (keyword_eq_ok_iff.mp hword)]

/-- What is read as a block starts with a brace, and so with no keyword. -/
theorem expression_of_block_ok {b : Block} (h : block s = .ok b r) :
    expression s = .ok (.block b) r := by
  obtain ⟨_, t, hopen, -⟩ := bind_eq_ok_iff.mp h
  rw [expression_of_brace (token_eq_ok_iff.mp hopen)]
  exact map_eq_ok_iff.mpr ⟨b, h, rfl⟩

/-- What is read as an assignment starts with a name, and so with neither a keyword nor a brace. -/
theorem expression_of_assignment_ok {e : Expr} (h : assignment s = .ok e r) :
    expression s = .ok e r := by
  obtain ⟨x, t, hx, -⟩ := bind_eq_ok_iff.mp h
  rw [expression_of_name (identifier_eq_ok_iff.mp hx)]
  exact orElse_ok h

/-- Where a conditional is read, the second branch of another one consists of it. -/
theorem branch_of_conditional_ok {e : Expr} (h : conditional s = .ok e r) :
    (blockOf expression <|> elseIfOf expression : Parser Block) s = .ok [e] r := by
  obtain ⟨_, t, hword, -⟩ := bind_eq_ok_iff.mp h
  have hno := not_symbol_of_isNameStart "\x7b" (keyword_eq_ok_iff.mp hword).first rfl (by decide)
  obtain ⟨u, hu⟩ := token_bind_miss (fun _ => _) hno
  exact (orElse_miss hu).trans
    ((bind_ok (ahead_ok hword)).trans (bind_ok (expression_of_conditional_ok h)))

/-- What is none of the other constructs is a comparison. -/
theorem expression_of_comparison (hif : ∀ t, ¬ Word .conditional s t)
    (hwhile : ∀ t, ¬ Word .loop s t) (hbrace : first s ≠ some '\x7b')
    (hassign : ∀ t x, Name s t x → ∀ u, ¬ Sign t u) : expression s = comparison s := by
  rw [expression_of_not_word hif hwhile]
  obtain ⟨u, hu⟩ := token_miss "\x7b" rfl hbrace
  obtain ⟨v, hv⟩ := assignmentOf_miss expression hassign
  exact (orElse_miss (bind_miss (bind_miss hu))).trans (orElse_miss hv)

end expression

/-! ### Where nothing starts -/

/-- The characters that operands start with. -/
def startsOperand (c : Char) : Bool :=
  isNameStart c || c.isDigit || c == '-' || c == '('

/-- The characters that expressions start with. -/
def startsExpression (c : Char) : Bool :=
  startsOperand c || c == '\x7b'

/-- What is read as a global variable is read as a definition. -/
theorem definition_of_global_ok {d : Definition} {s r : List Char} (h : global s = .ok d r) :
    definition s = .ok d r := by
  obtain ⟨_, t, hword, -⟩ := bind_eq_ok_iff.mp h
  obtain ⟨u, hu⟩ := keyword_bind_miss (fun _ => _) fun v (hv : Word .function s v) =>
    absurd (hv.keyword_eq (keyword_eq_ok_iff.mp hword)) (by decide)
  exact (orElse_miss hu).trans h

section misses

variable {s : List Char}

/-- No primary expression starts with a character that starts no operand. -/
theorem primaryOf_miss (expr : Parser Expr) (h : ∀ c ∈ first s, startsOperand c = false) :
    ∃ t, primaryOf expr s = .miss t := by
  have hname : ∀ c ∈ first s, ¬ isNameStart c := fun c hc => by grind [startsOperand]
  have hparen : first s ≠ some '(' := fun heq => absurd (h '(' heq) (by decide)
  obtain ⟨t, ht⟩ := token_miss "(" rfl hparen
  obtain ⟨u, hu⟩ := keyword_miss .print hname
  obtain ⟨v, hv⟩ := identifier_miss hname
  obtain ⟨w, hw⟩ := integer_miss (s := s) fun c hc => by grind [startsOperand]
  exact ⟨v, (orElse_miss (bind_miss ht)).trans ((orElse_miss (bind_miss hu)).trans
    ((orElse_miss (bind_miss hv)).trans ((orElse_miss (bind_miss hw)).trans (bind_miss hv))))⟩

/-- A comparison misses where no operand can start. -/
theorem comparison_miss (h : ∀ c ∈ first s, startsOperand c = false) :
    ∃ t, comparison s = .miss t := by
  obtain ⟨t, ht⟩ := primaryOf_miss expression h
  exact ⟨t, bind_miss (bind_miss (bind_miss ht))⟩

/-- Where no expression can start, none is read. -/
theorem expression_miss (h : ∀ c ∈ first s, startsExpression c = false) :
    ∃ t, expression s = .miss t := by
  have hoperand : ∀ c ∈ first s, startsOperand c = false := fun c hc => by
    grind [startsExpression]
  have hname : ∀ c ∈ first s, ¬ isNameStart c := fun c hc => by
    grind [startsExpression, startsOperand]
  obtain ⟨t, ht⟩ := comparison_miss hoperand
  refine ⟨t, ?_⟩
  rw [expression_of_comparison _ _ _ _, ht]
  · rintro u hu
    obtain ⟨c, hc, hstart⟩ := hu.first
    exact hname c hc hstart
  · rintro u hu
    obtain ⟨c, hc, hstart⟩ := hu.first
    exact hname c hc hstart
  · exact fun heq => absurd (h '\x7b' heq) (by decide)
  · rintro u x hx
    obtain ⟨c, hc, hstart⟩ := hx.first
    exact absurd hstart (hname c hc)

/-- No expression starts with a character that starts none. -/
theorem expression_miss_of_first {c : Char} (h : first s = some c)
    (hc : startsExpression c = false) : ∃ t, expression s = .miss t := by
  refine expression_miss fun d hd => ?_
  rwa [Option.some.inj (hd.symm.trans h)]

/-- After the end of a text, no definition is read. -/
theorem definition_miss (h : skip s = []) : ∃ t, definition s = .miss t := by
  have hno : ∀ c ∈ first s, ¬ isNameStart c := by
    intro c hc
    rw [first, h] at hc
    cases hc
  obtain ⟨t, ht⟩ := keyword_miss .function hno
  obtain ⟨u, hu⟩ := keyword_miss .global hno
  exact ⟨u, (orElse_miss (bind_miss ht)).trans (bind_miss hu)⟩

end misses

end Parser

end Scriptlet
