import Scriptlet.Operator
import Scriptlet.Value

/-!
# Programs

The trees of the language: expressions, function and global definitions, and programs, with a
decision procedure for their equality. Names are arbitrary texts here; which of them can be
written in source text is a question for the reader of source text.

`Expr.same_iff` says that the comparison of trees decides equality.
-/

namespace Scriptlet

/-- An expression. Every construct of the language is one, and every one has a value. -/
inductive Expr where
  /-- A literal. -/
  | int (value : Value)
  /-- The value of a variable. -/
  | var (name : String)
  /-- Gives a variable the value of an expression. -/
  | assign (name : String) (expr : Expr)
  /-- An operator between two operands. -/
  | binary (op : Operator) (left right : Expr)
  /-- Expressions one after the other. -/
  | block (body : List Expr)
  /-- Repeats the body while the condition is not zero. -/
  | whileDo (condition : Expr) (body : List Expr)
  /-- The body, if the condition is not zero. -/
  | ifThen (condition : Expr) (body : List Expr)
  /-- The first body if the condition is not zero, otherwise the second. -/
  | ifElse (condition : Expr) (body otherwise : List Expr)
  /-- Prints the value of its argument. -/
  | print (argument : Expr)
  /-- Calls a function by name. -/
  | call (function : String) (arguments : List Expr)
  deriving Repr, Inhabited

/-- A block: expressions that are evaluated one after the other. -/
abbrev Block := List Expr

/-- A function: its name, its parameters and its body. -/
structure Function where
  name : String
  parameters : List String
  body : Block
  deriving Repr, Inhabited

/-- A definition at the top level of a program. -/
inductive Definition where
  | function (definition : Function)
  | global (name : String) (initial : Expr)
  deriving Repr, Inhabited

/-- A program: its definitions in the order of their declaration. -/
structure Program where
  definitions : List Definition
  deriving Repr, Inhabited

/-- Literals, variables, prints and calls: the expressions that need no parentheses as operands. -/
def Expr.isPrimary : Expr → Bool
  | .int _ | .var _ | .print _ | .call _ _ => true
  | .assign _ _ | .binary _ _ _ | .block _ | .whileDo _ _ | .ifThen _ _ | .ifElse _ _ _ => false

/-! ### Equality of trees -/

mutual

/-- Whether two expressions are the same tree. -/
def Expr.same : Expr → Expr → Bool
  | .int v, .int w => v == w
  | .var x, .var y => x == y
  | .assign x e, .assign y f => x == y && e.same f
  | .binary o l r, .binary p m s => o == p && l.same m && r.same s
  | .block b, .block c => Expr.sameAll b c
  | .whileDo e b, .whileDo f c => e.same f && Expr.sameAll b c
  | .ifThen e b, .ifThen f c => e.same f && Expr.sameAll b c
  | .ifElse e b d, .ifElse f c g => e.same f && Expr.sameAll b c && Expr.sameAll d g
  | .print e, .print f => e.same f
  | .call x a, .call y b => x == y && Expr.sameAll a b
  | _, _ => false

/-- Whether two lists of expressions are the same trees in the same order. -/
def Expr.sameAll : List Expr → List Expr → Bool
  | [], [] => true
  | e :: es, f :: fs => e.same f && Expr.sameAll es fs
  | _, _ => false

end

mutual

/-- `Expr.same` decides equality. -/
theorem Expr.same_iff : (e f : Expr) → (e.same f = true ↔ e = f)
  | .int _, f => by cases f <;> simp [Expr.same]
  | .var _, f => by cases f <;> simp [Expr.same]
  | .assign _ e, f => by cases f <;> simp [Expr.same, Expr.same_iff e]
  | .binary _ l r, f => by
    cases f <;> simp [Expr.same, Expr.same_iff l, Expr.same_iff r, and_assoc]
  | .block b, f => by cases f <;> simp [Expr.same, Expr.sameAll_iff b]
  | .whileDo e b, f => by cases f <;> simp [Expr.same, Expr.same_iff e, Expr.sameAll_iff b]
  | .ifThen e b, f => by cases f <;> simp [Expr.same, Expr.same_iff e, Expr.sameAll_iff b]
  | .ifElse e b d, f => by
    cases f <;> simp [Expr.same, Expr.same_iff e, Expr.sameAll_iff b, Expr.sameAll_iff d, and_assoc]
  | .print e, f => by cases f <;> simp [Expr.same, Expr.same_iff e]
  | .call _ a, f => by cases f <;> simp [Expr.same, Expr.sameAll_iff a]

/-- `Expr.sameAll` decides equality of lists. -/
theorem Expr.sameAll_iff : (es fs : List Expr) → (Expr.sameAll es fs = true ↔ es = fs)
  | [], fs => by cases fs <;> simp [Expr.sameAll]
  | e :: es, fs => by cases fs <;> simp [Expr.sameAll, Expr.same_iff e, Expr.sameAll_iff es]

end

/-- Equality of expressions can be decided, though they are a nested type. -/
instance : DecidableEq Expr := fun e f =>
  decidable_of_iff (e.same f = true) (Expr.same_iff e f)

deriving instance DecidableEq for Function

deriving instance DecidableEq for Definition

deriving instance DecidableEq for Program

end Scriptlet
