import Scriptlet.Proofs.Errors.Located
import Scriptlet.Proofs.Precedence.Grouped
import Scriptlet.Proofs.Printer.RoundTrip

/-!
# Chains of operators are read as grouped trees

Literals and names with operators between them, all with single spaces, are read as the grouped tree
of their sequence. The parser of a level reads such a chain up to the first operator of a lower level
and gives a tree of its level (`ReadsLevel`). A level is read if the next higher one is
(`ReadsLevel.chainOf`): each operator of the level takes what the parser of the next level reads after
it as its right operand, and everything read before it as its left one.

* `chain_parses_grouped`: the whole chain is read as the one grouped tree of its sequence.
-/

namespace Scriptlet

open Scriptlet.Text
open Scriptlet.Grammar

/-- The text of a literal or a name, and the expression that it is read as. -/
inductive LeafText : List Char → Expr → Prop where
  | literal {text : List Char} {n : Int} {v : Value} :
      IntegerText text n → v.toInt = n → LeafText text (.int v)
  | name {x : String} : isName x.toList → LeafText x.toList (.var x)

/-- A literal or a name: how it is written, and the expression that it is. -/
structure Leaf where
  text : List Char
  tree : Expr
  reads : LeafText text tree

namespace Leaf

/-- An operator and the leaf after it. -/
abbrev Link := Operator × Leaf

/-- A leaf and the links after it, with single spaces between operators and leaves. -/
def chainText (q : Leaf) (links : List Link) : List Char :=
  [' '].intercalate (q.text :: links.flatMap fun link => [link.1.symbol.toList, link.2.text])

/-- The operators and leaves of links, from left to right. -/
def linksInOrder (links : List Link) : List (Operator ⊕ Expr) :=
  links.flatMap fun link => [.inl link.1, .inr link.2.tree]

/-- The operators and leaves of a chain, from left to right. -/
def inOrder (q : Leaf) (links : List Link) : List (Operator ⊕ Expr) :=
  .inr q.tree :: linksInOrder links

/-- What follows a leaf: links, each after a space. -/
def linksText (links : List Link) : List Char :=
  links.flatMap fun link => ' ' :: (link.1.symbol.toList ++ ' ' :: link.2.text)

/-- The text of a chain is that of its first leaf and that of the links after it. -/
theorem chainText_eq (q : Leaf) (links : List Link) : q.chainText links = q.text ++ linksText links := by
  rw [chainText, Parser.intercalate_cons, List.flatMap_assoc, linksText]
  simp

/-- The text of a link is its operator between spaces, and the chain after it. -/
theorem linksText_cons (op : Operator) (q : Leaf) (links : List Link) :
    linksText ((op, q) :: links) = ' ' :: (op.symbol.toList ++ ' ' :: q.chainText links) := by
  rw [chainText_eq, linksText, List.flatMap_cons]
  simp [linksText]

/-- A leaf has no operator. -/
theorem level?_tree (q : Leaf) : q.tree.level? = none := by
  obtain ⟨text, tree, h⟩ := q
  cases h <;> rfl

/-- A leaf starts with a character that is no layout. -/
theorem solid_text (q : Leaf) : Solid q.text := by
  obtain ⟨text, tree, h⟩ := q
  cases h with
  | literal h _ =>
    cases h with
    | plain hne hdigits =>
      obtain ⟨d, ds, rfl⟩ := List.exists_cons_of_ne_nil hne
      exact solid_of_isDigit (hdigits d List.mem_cons_self) ds
    | negative _ _ => exact solid_cons (by decide) (by decide) _
  | name h => exact solid_of_isName h

/-- A chain starts with no layout. -/
theorem afterLayout_chainText (q : Leaf) (links : List Link) :
    AfterLayout (q.chainText links) (q.chainText links) := by
  rw [chainText_eq]
  exact (q.solid_text.append _).afterLayout

end Leaf

namespace Parser

open Leaf

/-- A leaf is read as an operand before what ends its word and is no parenthesis. -/
theorem primary_leaf (q : Leaf) {y r : List Char} (hy : AfterLayout y (q.text ++ r))
    (hr : EndsWord r) (hparen : r.head? ≠ some '(') : primary y = .ok q.tree r := by
  obtain ⟨text, tree, h⟩ := q
  cases h with
  | @literal _ _ v h hv =>
    have hnumber : Number y r v := by
      cases h with
      | plain hne hdigits => exact .plain hy ⟨rfl, hne, hdigits, endsDigits_of_endsWord hr⟩ hv
      | negative hne hdigits => exact .negative hy ⟨rfl, hne, hdigits, endsDigits_of_endsWord hr⟩ hv
    rw [primary_of_number hnumber.first]
    exact orElse_ok (map_eq_ok_iff.mpr ⟨v, integer_eq_ok_iff.mpr hnumber, rfl⟩)
  | name hx => exact primary_of_name (name_text hx hy hr) hparen

/-- The parser of a level reads every chain up to the first operator of a lower level, as a tree of its
level. -/
def ReadsLevel (level : Nat) (p : Parser Expr) : Prop :=
  ∀ (q : Leaf) (links : List Link) {y : List Char}, AfterLayout y (q.chainText links) →
    ∃ e taken rest, links = taken ++ rest ∧ (∀ link ∈ rest.head?, link.1.level < level) ∧
      p y = .ok e (linksText rest) ∧ Expr.Groups level (inOrder q taken) e

/-- Every operator is of a lower level than operands. -/
theorem primary_readsLevel : ReadsLevel 3 primary := by
  intro q links y hy
  rw [chainText_eq] at hy
  have hlevel : ∀ op : Operator, op.level < 3 := by
    intro op
    cases op <;> decide
  have hspace : linksText links = [] ∨ ∃ t, linksText links = ' ' :: t := by
    cases links with
    | nil => exact .inl rfl
    | cons link links => exact .inr ⟨_, linksText_cons link.1 link.2 links⟩
  refine ⟨q.tree, [], links, rfl, fun link _ => hlevel link.1, ?_, Expr.Groups.leaf q.level?_tree⟩
  rcases hspace with hnil | ⟨t, ht⟩
  · rw [hnil] at hy ⊢
    exact primary_leaf q hy nofun nofun
  · rw [ht] at hy ⊢
    exact primary_leaf q hy (endsWord_space t) (by simp)

section chains

variable {level : Nat} {p : Parser Expr} (hl : level < 3) (ha : Advances p)
  (hp : ReadsLevel (level + 1) p)

include hl ha hp

/-- The operators of a level are read one after the other, each with what the next level reads after
it, and put on top of what was read before. -/
theorem links_read (links : List Link) (hlinks : ∀ link ∈ links.head?, link.1.level ≤ level)
    {s : List (Operator ⊕ Expr)} {first : Expr} (hfirst : Expr.Groups level s first) :
    ∃ pairs taken rest, links = taken ++ rest ∧ (∀ link ∈ rest.head?, link.1.level < level) ∧
      many (linkOf (operatorsAt level) p) (linksText links) = .ok pairs (linksText rest) ∧
      Expr.Groups level (s ++ linksInOrder taken) (chained first pairs) := by
  match links with
  | [] =>
    have hnone : ∀ op ∈ operatorsAt level, ∀ r, ¬ Symbol op.symbol (linksText []) r :=
      fun op _ => no_operator_of_stops (stops_of_layout (r := []) rfl) op
    obtain ⟨t, ht⟩ := operatorAmong_miss hnone
    refine ⟨[], [], [], rfl, nofun, many_miss (bind_miss ht), ?_⟩
    simpa [linksInOrder, chained] using hfirst
  | (op, q) :: links =>
    have hsymbol : Symbol op.symbol (linksText ((op, q) :: links)) (' ' :: q.chainText links) := by
      rw [linksText_cons]
      exact symbol_text op _
    by_cases hop : op.level = level
    · obtain ⟨e, taken, rest, rfl, hrest, he, hgroups⟩ :=
        hp q links (afterLayout_space (q.afterLayout_chainText links))
      have hread := operatorAmong_of_symbol hsymbol (by simp)
      rw [hop] at hread
      have hlink : linkOf (operatorsAt level) p (linksText ((op, q) :: (taken ++ rest))) =
          .ok (op, e) (linksText rest) := (bind_ok hread).trans (bind_ok he)
      have hlength : rest.length < ((op, q) :: (taken ++ rest)).length := by
        rw [List.length_cons, List.length_append]
        omega
      obtain ⟨pairs, taken', rest', rfl, hrest', hmany, hgroups'⟩ :=
        links_read rest (fun link h => Nat.le_of_lt_succ (hrest link h)) (.binary hop hfirst hgroups)
      refine ⟨(op, e) :: pairs, (op, q) :: (taken ++ taken'), rest', by simp, hrest',
        many_ok (linkOf_advances _ ha.trims) hlink hmany, ?_⟩
      simpa [linksInOrder, inOrder, chained] using hgroups'
    · -- an operator of a lower level ends the chain of this one
      have hlower : op.level < level := Nat.lt_of_le_of_ne (hlinks (op, q) rfl) hop
      have hnone : ∀ op' ∈ operatorsAt level, ∀ r,
          ¬ Symbol op'.symbol (linksText ((op, q) :: links)) r := fun op' hmem u hop' =>
        hop ((level_eq_of_symbol hsymbol hop').trans (level_of_mem_operatorsAt hl hmem))
      obtain ⟨t, ht⟩ := operatorAmong_miss hnone
      refine ⟨[], [], (op, q) :: links, rfl, ?_, many_miss (bind_miss ht), ?_⟩
      · intro link h
        obtain rfl := Option.some.inj h
        exact hlower
      · simpa [linksInOrder, chained] using hfirst
  termination_by links.length

/-- A level is read if the next higher one is. -/
theorem chainOf_readsLevel : ReadsLevel level (chainOf (operatorsAt level) p) := by
  intro q links y hy
  obtain ⟨e, taken, rest, rfl, hrest, he, hgroups⟩ := hp q links hy
  obtain ⟨pairs, taken', rest', rfl, hrest', hmany, hgroups'⟩ :=
    links_read hl ha hp rest (fun link h => Nat.le_of_lt_succ (hrest link h))
      (hgroups.mono (Nat.le_succ level))
  refine ⟨chained e pairs, taken ++ taken', rest', by simp, hrest',
    (bind_ok he).trans (bind_ok hmany), ?_⟩
  simpa [inOrder, linksInOrder] using hgroups'

end chains

/-- Comparisons are of the lowest level. -/
theorem comparison_readsLevel : ReadsLevel 0 comparison := by
  have hprimary := primaryOf_advances expression_advances.trims
  have hproduct := productOf_advances expression_advances.trims
  have hsum := sumOf_advances expression_advances.trims
  have product : ReadsLevel 2 Parser.product := chainOf_readsLevel (by decide) hprimary primary_readsLevel
  have sum : ReadsLevel 1 Parser.sum := chainOf_readsLevel (by decide) hproduct product
  exact chainOf_readsLevel (by decide) hsum sum

/-- Literals and names with operators between them and single spaces are read as a grouped tree of
their sequence, and there is no other: below each operator, the operators on its left are of its level
or a higher one and those on its right of a higher level. -/
theorem chain_parses_grouped (q : Leaf) (links : List Link) :
    ∃ e, Expr.parse (q.chainText links) = .ok e ∧ e.inOrder = inOrder q links ∧ e.Grouped ∧
      ∀ f : Expr, f.inOrder = inOrder q links → f.Grouped → f = e := by
  obtain ⟨e, taken, rest, rfl, hrest, he, hgroups⟩ :=
    comparison_readsLevel q links (q.afterLayout_chainText links)
  obtain rfl : rest = [] := by
    cases rest with
    | nil => rfl
    | cons link rest => exact absurd (hrest link rfl) (Nat.not_lt_zero _)
  rw [List.append_nil] at he ⊢
  have hparse : Expr.parse (q.chainText taken) = .ok e :=
    parse_eq_ok_iff.mpr ⟨[], expression_of_comparison_ok he (stops_of_layout rfl), rfl⟩
  refine ⟨e, hparse, hgroups.inOrder, hgroups.grouped, fun f hf hgrouped => ?_⟩
  exact hgrouped.unique hgroups.grouped (hf.trans hgroups.inOrder.symm)

end Parser

end Scriptlet
