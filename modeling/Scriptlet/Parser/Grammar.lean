import Scriptlet.Parser.Token

/-!
# The grammar of programs

A parser for each construct of the language. Expressions nest, so the parsers of the constructs
inside an expression are written first over any parser `expr` of the nested ones (`blockOf expr`,
`sumOf expr`, …). `expressionOf` then closes the circle: `expressionWithin` follows the nesting to a
given depth, and `expression` allows a depth that no text of its length exceeds, since each level of
nesting reads at least one character first.
-/

namespace Scriptlet

namespace Parser

open Scriptlet.Text

/-! ### Constructs over the parser of nested expressions -/

section nested

variable (expr : Parser Expr)

/-- Expressions in braces, each followed by a semicolon or not. -/
def blockOf : Parser Block := do
  token "\x7b"
  committed do
    let body ← many do
      let e ← expr
      let _ ← optional (token ";")
      return e
    token "\x7d"
    return body

/-- A print. -/
def printOf : Parser Expr := do
  keyword .print
  committed do
    token "("
    let e ← expr
    token ")"
    return .print e

/-- A call. Its opening parenthesis follows the name directly. -/
def callOf : Parser Expr := do
  let f ← identifier
  literal ['(']
  committed do
    let args ← separated expr (token ",")
    token ")"
    return .call f args

/-- An expression in parentheses. -/
def parenthesizedOf : Parser Expr := do
  token "("
  committed do
    let e ← expr
    token ")"
    return e

/-- An operand of the tightest operators. -/
def primaryOf : Parser Expr :=
  parenthesizedOf expr <|> printOf expr <|> callOf expr <|>
    (Expr.int <$> integer) <|> (Expr.var <$> identifier)

/-- Operands with operators between them, which associate to the left. An operator without an
operand after it is left unread. -/
def chainOf (ops : List Operator) (operand : Parser Expr) : Parser Expr := do
  let first ← operand
  let rest ← many do
    let op ← operatorAmong ops
    let e ← operand
    return (op, e)
  return rest.foldl (fun left (op, right) => .binary op left right) first

/-- Products and quotients. -/
def productOf : Parser Expr :=
  chainOf [.multiply, .divide] (primaryOf expr)

/-- Sums and differences. -/
def sumOf : Parser Expr :=
  chainOf [.add, .subtract] (productOf expr)

/-- Comparisons. The longer symbols are tried first, so that `<=` is not read as `<`. -/
def comparisonOf : Parser Expr :=
  chainOf [.lessOrEqual, .greaterOrEqual, .equal, .notEqual, .lessThan, .greaterThan] (sumOf expr)

/-- A conditional as the only expression of a block. -/
def elseIfOf : Parser Block := do
  ahead (keyword .conditional)
  let e ← expr
  return [e]

/-- The second branch of a conditional: a block, or another conditional without braces. -/
def otherwiseOf : Parser Block := do
  keyword .otherwise
  committed (blockOf expr <|> elseIfOf expr)

/-- A conditional with one branch or two. -/
def conditionalOf : Parser Expr := do
  keyword .conditional
  committed do
    let condition ← comparisonOf expr
    let body ← blockOf expr
    match ← optional (otherwiseOf expr) with
    | none => return .ifThen condition body
    | some otherwise => return .ifElse condition body otherwise

/-- A loop. -/
def loopOf : Parser Expr := do
  keyword .loop
  committed do
    let condition ← comparisonOf expr
    let body ← blockOf expr
    return .whileDo condition body

/-- An assignment. It never commits, since what looks like one may be the start of a comparison. -/
def assignmentOf : Parser Expr := do
  let x ← identifier
  assignSign
  let e ← expr
  return .assign x e

/-- Any expression. -/
def expressionOf : Parser Expr :=
  conditionalOf expr <|> loopOf expr <|> (Expr.block <$> blockOf expr) <|> assignmentOf expr <|>
    comparisonOf expr

end nested

/-! ### Expressions -/

/-- An expression whose nesting stays below a given depth. -/
def expressionWithin : Nat → Parser Expr
  | 0 => failing .stuck
  | depth + 1 => expressionOf (expressionWithin depth)

/-- An expression. -/
def expression : Parser Expr := fun s =>
  expressionWithin (s.length + 1) s

/-- A block. -/
def block : Parser Block := blockOf expression

/-- A print. -/
def print : Parser Expr := printOf expression

/-- A call. -/
def call : Parser Expr := callOf expression

/-- An operand of the tightest operators. -/
def primary : Parser Expr := primaryOf expression

/-- Products and quotients. -/
def product : Parser Expr := productOf expression

/-- Sums and differences. -/
def sum : Parser Expr := sumOf expression

/-- Comparisons. -/
def comparison : Parser Expr := comparisonOf expression

/-- A conditional. -/
def conditional : Parser Expr := conditionalOf expression

/-- A loop. -/
def loop : Parser Expr := loopOf expression

/-- An assignment. -/
def assignment : Parser Expr := assignmentOf expression

/-! ### Definitions and programs -/

/-- Parameters in parentheses. -/
def parameters : Parser (List String) := do
  token "("
  let names ← separated identifier (token ",")
  token ")"
  return names

/-- The definition of a function. -/
def function : Parser Definition := do
  keyword .function
  committed do
    let name ← identifier
    let params ← parameters
    let body ← block
    return .function ⟨name, params, body⟩

/-- The definition of a global variable. -/
def global : Parser Definition := do
  keyword .global
  committed do
    let name ← identifier
    assignSign
    let initial ← expression
    return .global name initial

/-- A definition at the top level. -/
def definition : Parser Definition :=
  function <|> global

/-- As many definitions as there are, and the layout after them. -/
def program : Parser Program := do
  let definitions ← many definition
  layout
  return ⟨definitions⟩

end Parser

end Scriptlet
