import Scriptlet.Eval.Arithmetic

/-!
# Overflows

An operator overflows if its operands are values and its exact result is none (`Operator.Overflows`).
Comparisons never do (`Overflows.mem`), and of all quotients only one does (`Overflows.of_divide`). An
operator on values fails for an overflow exactly then, and otherwise has its exact result, which is a
value, or is to divide by zero (`apply_cases`).
-/

namespace Scriptlet

/-- Whether an operator has failed because it overflows. -/
def EvalError.isOverflow : EvalError → Bool
  | .overflow _ => true
  | .divisionByZero | .unboundVariable _ | .undefinedFunction _ | .arityMismatch _ _ _ |
    .missingEntryPoint | .malformed _ | .output _ => false

/-- The operands of an operator are in range, and its exact result is not. -/
structure Operator.Overflows (op : Operator) (l r : Int) : Prop where
  left : Value.InRange l
  right : Value.InRange r
  result : ¬ Value.InRange (op.exact l r)

namespace Operator

variable {op : Operator} {l r : Int}

/-- Comparisons do not overflow. -/
theorem Overflows.mem (h : op.Overflows l r) : op ∈ [add, subtract, multiply, divide] := by
  have hbit : ∀ (c : Prop) [Decidable c], Value.InRange (if c then 1 else 0) := by
    intro c _
    split <;> decide
  cases op with
  | add | subtract | multiply | divide => decide
  | lessThan | lessOrEqual | greaterThan | greaterOrEqual | equal | notEqual =>
    exact absurd (hbit _) h.result

/-- Only one quotient overflows. -/
theorem Overflows.of_divide (h : Overflows .divide l r) : l = Value.least ∧ r = -1 := by
  have hl := h.left
  have hresult : ¬ Value.InRange (l.tdiv r) := h.result
  unfold Value.InRange Value.least Value.greatest at *
  -- a divisor of at least two halves the dividend, and the others are few
  by_cases hr : 2 ≤ r.natAbs
  · have hquotient : (l.tdiv r).natAbs = l.natAbs / r.natAbs := Int.natAbs_tdiv ..
    have hhalf : l.natAbs / r.natAbs ≤ l.natAbs / 2 := Nat.div_le_div_left hr (by decide)
    omega
  · obtain rfl | rfl | rfl : r = 0 ∨ r = 1 ∨ r = -1 := by omega
    · rw [Int.tdiv_zero] at hresult
      omega
    · rw [Int.tdiv_one] at hresult
      omega
    · rw [Int.tdiv_neg, Int.tdiv_one] at hresult
      omega

/-- An operator whose exact result is in range has that result, unless it is to divide by zero; an
operator whose exact result is not in range overflows. -/
theorem apply_cases (op : Operator) (v w : Value) :
    Value.InRange (op.exact v.toInt w.toInt) ∧
        ((op = .divide ∧ w.toInt = 0) ∧ op.apply v w = .error .divisionByZero ∨
          ¬(op = .divide ∧ w.toInt = 0) ∧
            ∃ u, op.apply v w = .ok u ∧ u.toInt = op.exact v.toInt w.toInt) ∨
      op.apply v w = .error (.overflow op) ∧ op.Overflows v.toInt w.toInt := by
  have hzero : w = 0 ↔ w.toInt = 0 := Int64.toInt_inj.symm
  unfold apply
  rw [← hzero]
  by_cases hdivisor : op = .divide ∧ w = 0
  · have hquotient : op.exact v.toInt w.toInt = 0 := by
      rw [hdivisor.1, hzero.mp hdivisor.2]
      exact Int.tdiv_zero _
    rw [hquotient]
    exact .inl ⟨by decide, .inl ⟨hdivisor, if_pos hdivisor⟩⟩
  · rw [if_neg hdivisor]
    cases hu : Value.ofInt? (op.exact v.toInt w.toInt) with
    | some u =>
      have hexact := Value.ofInt?_eq_some_iff.mp hu
      rw [← hexact]
      exact .inl ⟨Value.inRange_toInt u, .inr ⟨hdivisor, u, rfl, rfl⟩⟩
    | none =>
      have hresult := Value.ofInt?_eq_none_iff.mp hu
      exact .inr ⟨rfl, Value.inRange_toInt v, Value.inRange_toInt w, hresult⟩

end Operator

end Scriptlet
