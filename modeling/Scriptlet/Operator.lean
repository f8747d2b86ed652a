/-!
# Binary operators

The ten binary operators of the language, the symbol that stands for each one in source text, and
the three levels at which they bind.

`ofSymbol?_symbol` and `symbol_of_ofSymbol?` say that a symbol names one operator and that no
other text names any.
-/

namespace Scriptlet

/-- A binary operator: four that compute and six that compare. -/
inductive Operator where
  | add
  | subtract
  | multiply
  | divide
  | lessThan
  | lessOrEqual
  | greaterThan
  | greaterOrEqual
  | equal
  | notEqual
  deriving DecidableEq, Repr, Inhabited

namespace Operator

/-- The symbol of an operator in source text. -/
def symbol : Operator → String
  | add => "+"
  | subtract => "-"
  | multiply => "*"
  | divide => "/"
  | lessThan => "<"
  | lessOrEqual => "<="
  | greaterThan => ">"
  | greaterOrEqual => ">="
  | equal => "=="
  | notEqual => "!="

/-- The operators that compare their operands instead of computing with them. -/
def isComparison : Operator → Bool
  | add | subtract | multiply | divide => false
  | lessThan | lessOrEqual | greaterThan | greaterOrEqual | equal | notEqual => true

/-- How tightly an operator binds: comparisons least, then sums, then products. -/
def level : Operator → Nat
  | lessThan | lessOrEqual | greaterThan | greaterOrEqual | equal | notEqual => 0
  | add | subtract => 1
  | multiply | divide => 2

/-- Every operator. -/
def all : List Operator :=
  [add, subtract, multiply, divide, lessThan, lessOrEqual, greaterThan, greaterOrEqual, equal,
    notEqual]

/-- The operator that a symbol stands for. -/
def ofSymbol? (text : String) : Option Operator :=
  all.find? fun op => op.symbol == text

/-- `all` leaves no operator out. -/
theorem mem_all (op : Operator) : op ∈ all := by
  cases op <;> decide

/-- The symbol of an operator names that operator. -/
theorem ofSymbol?_symbol (op : Operator) : ofSymbol? op.symbol = some op := by
  cases op <;> decide

/-- A text names an operator only by being its symbol. -/
theorem symbol_of_ofSymbol? {text : String} {op : Operator} (h : ofSymbol? text = some op) :
    op.symbol = text := by
  simpa using List.find?_some h

/-- Comparisons are the operators of the lowest level. -/
theorem isComparison_iff_level_eq_zero (op : Operator) : op.isComparison ↔ op.level = 0 := by
  cases op <;> decide

end Operator

end Scriptlet
