import Mathlib.Data.List.Basic
import Scriptlet.Program

/-!
# Operators and operands in order

A tree of binary operators is written down from left to right as a sequence of operators with other
expressions between them, `Expr.inOrder`. Of the many trees with the same sequence, precedence and
associativity to the left allow one: below an operator, the operators to its left are of its level or
a higher one, and those to its right are of a higher level (`Expr.Grouped`).

* `Expr.Grouped.unique`: a grouped tree is determined by its sequence. The operator at the root of one
  tree cannot come before that at the root of the other (`Expr.root_not_before`).
* `Expr.Groups`: a grouped tree of a sequence whose operators are of a level or above, which is what a
  parser of this level gives; `Expr.Groups.binary` puts two of them together.
-/

namespace Scriptlet

namespace Expr

/-- The operators of a tree and the expressions between them, from left to right. -/
def inOrder : Expr → List (Operator ⊕ Expr)
  | .binary op l r => l.inOrder ++ .inl op :: r.inOrder
  | e => [.inr e]

/-- The level of the operator at the root, if there is one. -/
def level? : Expr → Option Nat
  | .binary op _ _ => some op.level
  | _ => none

/-- At every operator, a binary left operand has an operator of at least its level, and a binary right
operand one of a higher level. -/
def Grouped : Expr → Prop
  | .binary op l r =>
    (∀ m ∈ l.level?, op.level ≤ m) ∧ (∀ m ∈ r.level?, op.level < m) ∧ l.Grouped ∧ r.Grouped
  | _ => True

/-- What holds of the expressions between operators, and of two operands with an operator between
them, holds of every expression. -/
@[elab_as_elim]
theorem operator_induction {motive : Expr → Prop} (leaf : ∀ e, e.level? = none → motive e)
    (binary : ∀ op l r, motive l → motive r → motive (.binary op l r)) : (e : Expr) → motive e
  | .binary op l r =>
    binary op l r (operator_induction leaf binary l) (operator_induction leaf binary r)
  | .int _ | .var _ | .assign _ _ | .block _ | .whileDo _ _ | .ifThen _ _ | .ifElse _ _ _ | .print _
  | .call _ _ => leaf _ rfl

/-- An operator stands between what its sides hold in order. -/
theorem inOrder_binary (op : Operator) (l r : Expr) :
    (binary op l r).inOrder = l.inOrder ++ .inl op :: r.inOrder := by
  rw [inOrder]

/-- A leaf stands for itself. -/
theorem inOrder_leaf {e : Expr} (h : e.level? = none) : e.inOrder = [.inr e] := by
  cases e with
  | binary => cases h
  | _ => rw [inOrder]; nofun

/-- A tree is grouped if its sides are, and hold no operator at their roots that should have been
read later. -/
theorem grouped_binary {op : Operator} {l r : Expr} :
    (binary op l r).Grouped ↔ (∀ m ∈ l.level?, op.level ≤ m) ∧ (∀ m ∈ r.level?, op.level < m) ∧
      l.Grouped ∧ r.Grouped := by
  rw [Grouped]

/-- A leaf is grouped. -/
theorem grouped_leaf {e : Expr} (h : e.level? = none) : e.Grouped := by
  cases e with
  | binary => cases h
  | _ => trivial

/-! ### One tree for a sequence -/

variable {e f l r l' r' : Expr} {op op' : Operator}

/-- In a grouped tree no operator is of a lower level than the one at the root. -/
theorem Grouped.le_level (h : e.Grouped) {k : Nat} (hk : ∀ m ∈ e.level?, k ≤ m)
    (hop : .inl op ∈ e.inOrder) : k ≤ op.level := by
  induction e using operator_induction with
  | leaf e hleaf =>
    rw [inOrder_leaf hleaf] at hop
    simp at hop
  | binary o l r ihl ihr =>
    obtain ⟨hl, hr, hgl, hgr⟩ := grouped_binary.mp h
    have ho : k ≤ o.level := hk o.level rfl
    rw [inOrder_binary, List.mem_append, List.mem_cons] at hop
    rcases hop with hop | hop | hop
    · exact ihl hgl (fun m hm => Nat.le_trans ho (hl m hm)) hop
    · cases hop
      exact ho
    · exact ihr hgr (fun m hm => Nat.le_trans ho (Nat.le_of_lt (hr m hm))) hop

/-- The operator at the root of one grouped tree does not come before the one at the root of another
grouped tree of the same sequence: it would be of a higher level on one side of it, and of a lower or
the same level on the other. -/
theorem root_not_before (he : (binary op l r).Grouped) (hf : (binary op' l' r').Grouped)
    {x : List (Operator ⊕ Expr)} (hl : l'.inOrder = l.inOrder ++ .inl op :: x)
    (hr : r.inOrder = x ++ .inl op' :: r'.inOrder) : False := by
  obtain ⟨-, hright, -, hgr⟩ := grouped_binary.mp he
  obtain ⟨hleft, -, hgl, -⟩ := grouped_binary.mp hf
  have hlt : op.level + 1 ≤ op'.level := by
    refine hgr.le_level hright ?_
    rw [hr]
    exact List.mem_append_right x List.mem_cons_self
  have hle : op'.level ≤ op.level := by
    refine hgl.le_level hleft ?_
    rw [hl]
    exact List.mem_append_right _ List.mem_cons_self
  omega

/-- The sequence of a tree with an operator is not that of an expression without one. -/
theorem inOrder_binary_ne (hleaf : e.level? = none) : (binary op l r).inOrder ≠ e.inOrder := by
  intro h
  have hmem : Sum.inl op ∈ (binary op l r).inOrder := by
    rw [inOrder_binary]
    exact List.mem_append_right _ List.mem_cons_self
  rw [h, inOrder_leaf hleaf] at hmem
  simp at hmem

/-- The operators at the roots of two grouped trees of one sequence stand in the same place of it. -/
theorem same_root (he : (binary op l r).Grouped) (hf : (binary op' l' r').Grouped)
    (h : (binary op l r).inOrder = (binary op' l' r').inOrder) :
    op = op' ∧ l.inOrder = l'.inOrder ∧ r.inOrder = r'.inOrder := by
  rw [inOrder_binary, inOrder_binary, List.append_eq_append_iff] at h
  rcases h with ⟨x, hl, hr⟩ | ⟨x, hl, hr⟩
  · cases x with
    | nil =>
      obtain ⟨hop, htail⟩ := List.cons.inj hr
      exact ⟨Sum.inl.inj hop, by rw [hl, List.append_nil], htail⟩
    | cons o x =>
      obtain ⟨rfl, htail⟩ := List.cons.inj hr
      exact (root_not_before he hf hl htail).elim
  · cases x with
    | nil =>
      obtain ⟨hop, htail⟩ := List.cons.inj hr
      exact ⟨(Sum.inl.inj hop).symm, by rw [hl, List.append_nil], htail.symm⟩
    | cons o x =>
      obtain ⟨rfl, htail⟩ := List.cons.inj hr
      exact (root_not_before hf he hl htail).elim

/-- There is one grouped tree for a sequence. -/
theorem Grouped.unique (he : e.Grouped) (hf : f.Grouped) (h : e.inOrder = f.inOrder) : e = f := by
  induction e using operator_induction generalizing f with
  | leaf e hleaf =>
    cases f using operator_induction with
    | leaf f hleaf' =>
      rw [inOrder_leaf hleaf, inOrder_leaf hleaf'] at h
      simpa using h
    | binary op l r => exact absurd h.symm (inOrder_binary_ne hleaf)
  | binary op l r ihl ihr =>
    cases f using operator_induction with
    | leaf f hleaf' => exact absurd h (inOrder_binary_ne hleaf')
    | binary op' l' r' =>
      obtain ⟨-, -, hgl, hgr⟩ := grouped_binary.mp he
      obtain ⟨-, -, hgl', hgr'⟩ := grouped_binary.mp hf
      obtain ⟨rfl, hl, hr⟩ := same_root he hf h
      rw [ihl hgl hgl' hl, ihr hgr hgr' hr]

/-! ### Trees of a level -/

/-- A grouped tree of a sequence, whose root is of a level or above it. -/
structure Groups (level : Nat) (s : List (Operator ⊕ Expr)) (e : Expr) : Prop where
  inOrder : e.inOrder = s
  grouped : e.Grouped
  level_le : ∀ m ∈ e.level?, level ≤ m

namespace Groups

variable {level : Nat} {s t : List (Operator ⊕ Expr)}

/-- A leaf is a tree of every level. -/
theorem leaf (h : e.level? = none) : Groups level [.inr e] e where
  inOrder := inOrder_leaf h
  grouped := grouped_leaf h
  level_le m hm := by
    rw [h] at hm
    cases hm

/-- A tree of a level is one of each level below it. -/
theorem mono (h : Groups level s e) {level' : Nat} (hl : level' ≤ level) : Groups level' s e :=
  ⟨h.inOrder, h.grouped, fun m hm => Nat.le_trans hl (h.level_le m hm)⟩

/-- An operator goes between a tree of its level and one of a higher level. -/
theorem binary (hop : op.level = level) (hl : Groups level s l) (hr : Groups (level + 1) t r) :
    Groups level (s ++ .inl op :: t) (.binary op l r) where
  inOrder := by rw [inOrder_binary, hl.inOrder, hr.inOrder]
  grouped := by
    subst hop
    exact grouped_binary.mpr ⟨hl.level_le, hr.level_le, hl.grouped, hr.grouped⟩
  level_le m hm := by
    obtain rfl : op.level = m := Option.some.inj hm
    exact Nat.le_of_eq hop.symm

end Groups

end Expr

end Scriptlet
