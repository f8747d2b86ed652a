/-!
# Values

The language computes with signed 64-bit integers. This file holds the range of a value, the
partial passage from the integers into it, and its decimal text.

`ofInt?_eq_some_iff` says that the passage succeeds exactly inside the range and then keeps the
integer.
-/

namespace Scriptlet

/-- A value of the language: a signed 64-bit integer. -/
abbrev Value := Int64

namespace Value

/-- The least value. -/
def least : Int := -9223372036854775808

/-- The greatest value. -/
def greatest : Int := 9223372036854775807

/-- An integer lies in the range of values. -/
def InRange (n : Int) : Prop := least ≤ n ∧ n ≤ greatest

/-- Whether an integer is in range can be decided. -/
instance (n : Int) : Decidable (InRange n) := inferInstanceAs (Decidable (_ ∧ _))

/-- The value of an integer, if the integer is in range. -/
def ofInt? (n : Int) : Option Value :=
  if InRange n then some (Int64.ofInt n) else none

/-- Every value is in range. -/
theorem inRange_toInt (v : Value) : InRange v.toInt := by
  have hlow := Int64.le_toInt v
  have hhigh := Int64.toInt_lt v
  unfold InRange least greatest
  omega

/-- An integer in range survives the passage to a value and back. -/
theorem toInt_ofInt {n : Int} (h : InRange n) : (Int64.ofInt n).toInt = n := by
  unfold InRange least greatest at h
  exact Int64.toInt_ofInt_of_le (by omega) (by omega)

/-- An integer has a value exactly when it is that value's own integer. -/
theorem ofInt?_eq_some_iff {n : Int} {v : Value} : ofInt? n = some v ↔ v.toInt = n := by
  unfold ofInt?
  split
  case isTrue h =>
    constructor
    · intro hv
      rw [← Option.some.inj hv, toInt_ofInt h]
    · rintro rfl
      rw [Int64.ofInt_toInt]
  case isFalse h =>
    constructor
    · nofun
    · rintro rfl
      exact absurd (inRange_toInt v) h

/-- An integer has no value exactly when it is out of range. -/
theorem ofInt?_eq_none_iff {n : Int} : ofInt? n = none ↔ ¬ InRange n := by
  unfold ofInt?
  split <;> simp_all

/-- The decimal text of an integer: its digits without leading zeros, after a minus sign if it is
negative. -/
def decimal : Int → List Char
  | .ofNat n => Nat.toDigits 10 n
  | .negSucc n => '-' :: Nat.toDigits 10 (n + 1)

/-- The decimal text of a value. -/
def text (v : Value) : List Char :=
  decimal v.toInt

end Value

end Scriptlet
