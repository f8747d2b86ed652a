import Scriptlet.Program

/-!
# The text of a program

Trees are written in one canonical form: one space around an operator, parentheses around every
operand that is not primary, `; ` between the expressions of a block, and each definition on a line
of its own.
-/

namespace Scriptlet

/-- An operand: the text itself if it is that of a primary expression, otherwise in parentheses. -/
def operand (primary : Bool) (text : List Char) : List Char :=
  if primary then text else '(' :: (text ++ [')'])

/-- A block of the given texts. -/
def braced : List (List Char) → List Char
  | [] => ['\x7b', '\x7d']
  | texts => "\x7b ".toList ++ "; ".toList.intercalate texts ++ " \x7d".toList

/-- A list of the given texts in parentheses. -/
def listed (texts : List (List Char)) : List Char :=
  '(' :: (", ".toList.intercalate texts ++ [')'])

mutual

/-- The text of an expression. -/
def Expr.text : Expr → List Char
  | .int v => Value.text v
  | .var x => x.toList
  | .assign x e => x.toList ++ " = ".toList ++ e.text
  | .binary o l r =>
    operand l.isPrimary l.text ++ ' ' :: (o.symbol.toList ++ ' ' :: operand r.isPrimary r.text)
  | .block b => braced (Expr.texts b)
  | .whileDo e b => "while ".toList ++ operand e.isPrimary e.text ++ ' ' :: braced (Expr.texts b)
  | .ifThen e b => "if ".toList ++ operand e.isPrimary e.text ++ ' ' :: braced (Expr.texts b)
  | .ifElse e b d =>
    "if ".toList ++ operand e.isPrimary e.text ++ ' ' :: braced (Expr.texts b) ++
      " else ".toList ++ braced (Expr.texts d)
  | .print e => "println(".toList ++ e.text ++ [')']
  | .call f a => f.toList ++ listed (Expr.texts a)

/-- The texts of several expressions. -/
def Expr.texts : List Expr → List (List Char)
  | [] => []
  | e :: es => e.text :: Expr.texts es

end

section text

variable (e l r : Expr) (b d : Block) (x : String)

/-- An integer is printed as its decimal text. -/
@[simp] theorem Expr.text_int (v : Value) : (Expr.int v).text = Value.text v := rfl

/-- A variable is printed as its name. -/
@[simp] theorem Expr.text_var : (Expr.var x).text = x.toList := rfl

/-- An assignment is printed with its target first. -/
@[simp] theorem Expr.text_assign :
    (Expr.assign x e).text = x.toList ++ " = ".toList ++ e.text := rfl

/-- An operator is printed between its operands, with spaces around it. -/
@[simp] theorem Expr.text_binary (o : Operator) :
    (Expr.binary o l r).text =
      operand l.isPrimary l.text ++ ' ' :: (o.symbol.toList ++ ' ' :: operand r.isPrimary r.text) :=
  rfl

/-- A block is printed in braces. -/
@[simp] theorem Expr.text_block : (Expr.block b).text = braced (Expr.texts b) := rfl

/-- A loop is printed with its condition and its body. -/
@[simp] theorem Expr.text_whileDo :
    (Expr.whileDo e b).text =
      "while ".toList ++ operand e.isPrimary e.text ++ ' ' :: braced (Expr.texts b) := rfl

/-- A conditional with one branch is printed without an `else`. -/
@[simp] theorem Expr.text_ifThen :
    (Expr.ifThen e b).text =
      "if ".toList ++ operand e.isPrimary e.text ++ ' ' :: braced (Expr.texts b) := rfl

/-- One with two branches is printed with an `else` between them. -/
@[simp] theorem Expr.text_ifElse :
    (Expr.ifElse e b d).text =
      "if ".toList ++ operand e.isPrimary e.text ++ ' ' :: braced (Expr.texts b) ++
        " else ".toList ++ braced (Expr.texts d) := rfl

/-- A print is printed with its expression in parentheses. -/
@[simp] theorem Expr.text_print : (Expr.print e).text = "println(".toList ++ e.text ++ [')'] := rfl

/-- A call is printed with its arguments in parentheses. -/
@[simp] theorem Expr.text_call : (Expr.call x b).text = x.toList ++ listed (Expr.texts b) := rfl

end text

/-- The texts of several expressions are the text of each. -/
theorem Expr.texts_eq_map (es : List Expr) : Expr.texts es = es.map Expr.text := by
  induction es with
  | nil => rfl
  | cons e es ih => rw [Expr.texts, ih, List.map_cons]

/-- The text of a definition. -/
def Definition.text : Definition → List Char
  | .function f =>
    "define ".toList ++ f.name.toList ++ listed (f.parameters.map String.toList) ++
      ' ' :: braced (Expr.texts f.body)
  | .global x e => "global ".toList ++ x.toList ++ " = ".toList ++ e.text

/-- A function definition is printed with its parameters and its body. -/
@[simp] theorem Definition.text_function (f : Function) :
    (Definition.function f).text =
      "define ".toList ++ f.name.toList ++ listed (f.parameters.map String.toList) ++
        ' ' :: braced (Expr.texts f.body) := rfl

/-- A definition of a global variable is printed with its initial value. -/
@[simp] theorem Definition.text_global (x : String) (e : Expr) :
    (Definition.global x e).text = "global ".toList ++ x.toList ++ " = ".toList ++ e.text := rfl

/-- The text of a program: every definition, each followed by a newline. -/
def Program.text (p : Program) : List Char :=
  p.definitions.flatMap fun d => d.text ++ ['\n']

/-- The text of an expression as a string. -/
def Expr.display (e : Expr) : String := String.ofList e.text

/-- The text of a program as a string. -/
def Program.display (p : Program) : String := String.ofList p.text

end Scriptlet
