import Scriptlet.Eval.Error
import Scriptlet.Value

/-!
# Arithmetic

An operator is applied to two values by computing with their integers and asking whether the result
is a value again. Quotients are rounded toward zero. Comparisons give one or zero.
-/

namespace Scriptlet

namespace Operator

/-- The integer that an operator gives, whatever its size. A quotient by zero has no meaning. -/
def exact : Operator → Int → Int → Int
  | add, l, r => l + r
  | subtract, l, r => l - r
  | multiply, l, r => l * r
  | divide, l, r => l.tdiv r
  | lessThan, l, r => if l < r then 1 else 0
  | lessOrEqual, l, r => if l ≤ r then 1 else 0
  | greaterThan, l, r => if l > r then 1 else 0
  | greaterOrEqual, l, r => if l ≥ r then 1 else 0
  | equal, l, r => if l = r then 1 else 0
  | notEqual, l, r => if l ≠ r then 1 else 0

/-- The value that an operator gives. A zero divisor is an error before an overflow is. -/
def apply (op : Operator) (l r : Value) : Except EvalError Value :=
  if op = .divide ∧ r = 0 then .error .divisionByZero
  else match Value.ofInt? (op.exact l.toInt r.toInt) with
    | some v => .ok v
    | none => .error (.overflow op)

/-- An operator gives a value exactly if there is no zero divisor and the integers give that value's
integer. -/
theorem apply_eq_ok_iff {op : Operator} {l r v : Value} :
    op.apply l r = .ok v ↔
      ¬(op = .divide ∧ r = 0) ∧ v.toInt = op.exact l.toInt r.toInt := by
  unfold apply
  split
  case isTrue h => simp [h]
  case isFalse h =>
    rw [← Value.ofInt?_eq_some_iff]
    split <;> simp_all

end Operator

end Scriptlet
