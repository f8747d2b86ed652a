import Scriptlet.Proofs.Grammar.Layout
import Scriptlet.Proofs.Parser.Fixpoint

/-!
# Properties that pass from characters to constructs

The parsers of the language are put together, by a few combinators, from five that look at characters:
layout, a given text, a look at the next character, a word and a numeral. A property of parsers that
these have and that the combinators pass on (`Combining`) therefore holds of every construct, if it
holds of the expressions in it. If it also holds where nesting is followed no further (`Compositional`),
it holds of expressions. The recursion over the grammar is done here once.

* `Combining.expressionOf`: a construct over expressions that have the property has it.
* `Compositional.expression`: expressions have the property.
* `Compositional.program`: so do whole programs.
-/

namespace Scriptlet

open Scriptlet.Text

namespace Parser

/-- What is false of the characters of layout. -/
theorem eq_false_of_isSpace {p : Char → Bool}
    (hp : [' ', '\t', '\r', '\n'].all fun c => decide (p c = false)) {c : Char} (h : isSpace c) :
    p c = false :=
  forall_mem_of_all hp c (Grammar.isSpace_iff.mp h)

/-- A property that the parsers of characters have, and that what is put together from parsers has if
they do. -/
structure Combining (P : (α : Type) → Parser α → Prop) : Prop where
  pure : ∀ {α : Type} (a : α), P α (pure a)
  missing : ∀ {α : Type}, P α missing
  bind : ∀ {α β : Type} {p : Parser α} {f : α → Parser β},
    P α p → (∀ a, P β (f a)) → P β (p >>= f)
  orElse : ∀ {α : Type} {p q : Parser α}, P α p → P α q → P α (p <|> q)
  committed : ∀ {α : Type} {p : Parser α}, P α p → P α (committed p)
  ahead : ∀ {α : Type} {p : Parser α}, P α p → P Unit (ahead p)
  many : ∀ {α : Type} {p : Parser α}, Advances p → P α p → P (List α) (many p)
  layout : P Unit layout
  literal : ∀ letters : List Char, (∀ c ∈ letters, isSpace c = false) → P Unit (literal letters)
  unlessNext : ∀ stops : Char → Bool, (∀ c, isSpace c → stops c = false) →
    P Unit (unlessNext stops)
  word : P String word
  numeral : P Value numeral

/-- Such a property that nesting has as well, to whatever depth it is followed. -/
structure Compositional (P : (α : Type) → Parser α → Prop) : Prop extends Combining P where
  /-- Nesting that is followed no further. -/
  stuck : P Expr (failing .stuck)
  /-- Nesting that is followed as far as it goes. -/
  unbounded : (∀ depth, P Expr (expressionWithin depth)) → P Expr expression

namespace Combining

variable {P : (α : Type) → Parser α → Prop} (hP : Combining P) {α : Type}

include hP

/-- A change of the result keeps the property. -/
theorem map {β : Type} {p : Parser α} (hp : P α p) (f : α → β) : P β (f <$> p) :=
  hP.bind hp fun _ => hP.pure _

/-- A parser that may be left out keeps the property. -/
theorem optional {p : Parser α} (hp : P α p) : P (Option α) (optional p) :=
  hP.orElse (hP.map hp some) (hP.pure none)

/-! ### Tokens -/

/-- Tokens that do not start with layout have it. -/
theorem token {text : String} (h : text.toList.all fun c => decide (isSpace c = false)) :
    P Unit (token text) :=
  hP.bind hP.layout fun _ => hP.literal _ (forall_mem_of_all h)

/-- Keywords have it. -/
theorem keyword (k : Keyword) : P Unit (keyword k) := by
  have hletters : ∀ c ∈ k.letters, isSpace c = false := by
    apply forall_mem_of_all
    cases k <;> decide
  apply hP.bind hP.layout
  intro _
  apply hP.bind (hP.literal _ hletters)
  intro _
  exact hP.unlessNext isNameChar fun _ => eq_false_of_isSpace (p := isNameChar) (by decide)

/-- The sign of an assignment has it, being a token and a look at the next character. -/
theorem assignSign : P Unit assignSign := by
  apply hP.bind (hP.token (by decide))
  intro _
  exact hP.unlessNext _ fun _ => eq_false_of_isSpace (p := (· == '=')) (by decide)

/-- Names have it. -/
theorem identifier : P String identifier :=
  hP.bind hP.layout fun _ => hP.word

/-- Integers have it. -/
theorem integer : P Value integer :=
  hP.bind hP.layout fun _ => hP.numeral

/-- The choice of an operator has it, being one of tokens. -/
theorem operatorAmong (ops : List Operator) : P Operator (operatorAmong ops) := by
  induction ops with
  | nil => exact hP.missing
  | cons op ops ih =>
    have hsymbol : op.symbol.toList.all fun c => decide (isSpace c = false) := by
      cases op <;> decide
    exact hP.orElse (hP.bind (hP.token hsymbol) fun _ => hP.pure op) ih

/-- Items with commas between them have the property if the items do. -/
theorem separated {item : Parser α} (hi : Trims item) (h : P α item) :
    P (List α) (separated item (Parser.token ",")) := by
  have more : P α (moreOf item) := hP.bind (hP.token (by decide)) fun _ => h
  apply hP.orElse _ (hP.pure [])
  apply hP.bind h
  intro a
  exact hP.bind (hP.many (moreOf_advances hi) more) fun as => hP.pure (a :: as)

/-! ### Constructs over the parser of nested expressions -/

section nested

variable {expr : Parser Expr} (he : Advances expr) (h : P Expr expr)

include he h

/-- Blocks over expressions have it. -/
theorem blockOf : P Block (blockOf expr) := by
  have item : P Expr (itemOf expr) := by
    apply hP.bind h
    intro e
    exact hP.bind (hP.optional (hP.token (by decide))) fun _ => hP.pure e
  apply hP.bind (hP.token (by decide))
  intro _
  apply hP.committed
  apply hP.bind (hP.many (itemOf_advances he) item)
  intro body
  exact hP.bind (hP.token (by decide)) fun _ => hP.pure body

omit he in
/-- Prints over expressions have it. -/
theorem printOf : P Expr (printOf expr) := by
  apply hP.bind (hP.keyword .print)
  intro _
  apply hP.committed
  apply hP.bind (hP.token (by decide))
  intro _
  apply hP.bind h
  intro e
  exact hP.bind (hP.token (by decide)) fun _ => hP.pure _

/-- Calls over expressions have it. -/
theorem callOf : P Expr (callOf expr) := by
  apply hP.bind hP.identifier
  intro f
  apply hP.bind (hP.literal _ (forall_mem_of_all (by decide)))
  intro _
  apply hP.committed
  apply hP.bind (hP.separated he.trims h)
  intro arguments
  exact hP.bind (hP.token (by decide)) fun _ => hP.pure _

omit he in
/-- Parentheses over expressions have it. -/
theorem parenthesizedOf : P Expr (parenthesizedOf expr) := by
  apply hP.bind (hP.token (by decide))
  intro _
  apply hP.committed
  apply hP.bind h
  intro e
  exact hP.bind (hP.token (by decide)) fun _ => hP.pure e

/-- Primary expressions have it, as each alternative does. -/
theorem primaryOf : P Expr (primaryOf expr) := by
  apply hP.orElse (hP.parenthesizedOf h)
  apply hP.orElse (hP.printOf h)
  apply hP.orElse (hP.callOf he h)
  exact hP.orElse (hP.map hP.integer _) (hP.map hP.identifier _)

omit he h in
/-- Chains of operators have it, if their operands do. -/
theorem chainOf (ops : List Operator) {operand : Parser Expr} (ho : Trims operand)
    (h : P Expr operand) : P Expr (chainOf ops operand) := by
  have link : P (Operator × Expr) (linkOf ops operand) := by
    apply hP.bind (hP.operatorAmong ops)
    intro op
    exact hP.bind h fun e => hP.pure (op, e)
  apply hP.bind h
  intro first
  exact hP.bind (hP.many (linkOf_advances ops ho) link) fun _ => hP.pure _

/-- Comparisons have it, as three levels of chains. -/
theorem comparisonOf : P Expr (comparisonOf expr) := by
  have hprimary := primaryOf_advances he.trims
  have hproduct := productOf_advances he.trims
  have hsum := sumOf_advances he.trims
  have product := hP.chainOf [.multiply, .divide] hprimary.trims (hP.primaryOf he h)
  exact hP.chainOf _ hsum.trims (hP.chainOf _ hproduct.trims product)

/-- Second branches have it. -/
theorem otherwiseOf : P Block (otherwiseOf expr) := by
  have elseIf : P Block (elseIfOf expr) := by
    apply hP.bind (hP.ahead (hP.keyword .conditional))
    intro _
    exact hP.bind h fun e => hP.pure [e]
  apply hP.bind (hP.keyword .otherwise)
  intro _
  exact hP.committed (hP.orElse (hP.blockOf he h) elseIf)

/-- Conditionals have it, with a second branch or without one. -/
theorem conditionalOf : P Expr (conditionalOf expr) := by
  apply hP.bind (hP.keyword .conditional)
  intro _
  apply hP.committed
  apply hP.bind (hP.comparisonOf he h)
  intro condition
  apply hP.bind (hP.blockOf he h)
  intro body
  apply hP.bind (hP.optional (hP.otherwiseOf he h))
  intro otherwise
  cases otherwise with
  | none => exact hP.pure _
  | some otherwise => exact hP.pure _

/-- Loops have it. -/
theorem loopOf : P Expr (loopOf expr) := by
  apply hP.bind (hP.keyword .loop)
  intro _
  apply hP.committed
  apply hP.bind (hP.comparisonOf he h)
  intro condition
  exact hP.bind (hP.blockOf he h) fun body => hP.pure _

omit he in
/-- Assignments have it. -/
theorem assignmentOf : P Expr (assignmentOf expr) := by
  apply hP.bind hP.identifier
  intro x
  apply hP.bind hP.assignSign
  intro _
  exact hP.bind h fun e => hP.pure _

/-- An expression has the property if what is nested in it does. -/
theorem expressionOf : P Expr (expressionOf expr) := by
  apply hP.orElse (hP.conditionalOf he h)
  apply hP.orElse (hP.loopOf he h)
  apply hP.orElse (hP.map (hP.blockOf he h) _)
  exact hP.orElse (hP.assignmentOf h) (hP.comparisonOf he h)

end nested

/-! ### Definitions and programs over expressions -/

/-- Lists of parameters have it. -/
theorem parameters : P (List String) parameters := by
  apply hP.bind (hP.token (by decide))
  intro _
  apply hP.bind (hP.separated identifier_advances.trims hP.identifier)
  intro names
  exact hP.bind (hP.token (by decide)) fun _ => hP.pure names

section expressions

variable (h : P Expr expression)

include h

/-- What reads an expression as a whole text has the property. -/
theorem expressionAndLayout : P Expr (do let e ← Parser.expression; Parser.layout; return e) :=
  hP.bind h fun e => hP.bind hP.layout fun _ => hP.pure e

/-- Function definitions have it. -/
theorem function : P Definition function := by
  apply hP.bind (hP.keyword .function)
  intro _
  apply hP.committed
  apply hP.bind hP.identifier
  intro name
  apply hP.bind hP.parameters
  intro params
  exact hP.bind (hP.blockOf expression_advances h) fun body => hP.pure _

/-- Definitions of global variables have it. -/
theorem global : P Definition global := by
  apply hP.bind (hP.keyword .global)
  intro _
  apply hP.committed
  apply hP.bind hP.identifier
  intro name
  apply hP.bind hP.assignSign
  intro _
  exact hP.bind h fun initial => hP.pure _

/-- Definitions have it, whichever of the two they are. -/
theorem definition : P Definition definition :=
  hP.orElse (hP.function h) (hP.global h)

/-- Programs have it. -/
theorem program : P Program program := by
  apply hP.bind (hP.many definition_advances (hP.definition h))
  intro definitions
  exact hP.bind hP.layout fun _ => hP.pure _

end expressions

end Combining

/-! ### Expressions, definitions and programs -/

namespace Compositional

variable {P : (α : Type) → Parser α → Prop} (hP : Compositional P)

include hP

/-- Expressions have it to every depth, by induction on the depth, and so without a bound on it. -/
theorem expression : P Expr expression := by
  apply hP.unbounded
  intro depth
  induction depth with
  | zero => exact hP.stuck
  | succ depth ih => exact hP.expressionOf (expressionWithin_advances depth) ih

/-- What reads an expression as a whole text has it. -/
theorem expressionAndLayout : P Expr (do let e ← Parser.expression; Parser.layout; return e) :=
  hP.toCombining.expressionAndLayout hP.expression

/-- Programs have it, as their expressions do. -/
theorem program : P Program program :=
  hP.toCombining.program hP.expression

end Compositional

end Parser

end Scriptlet
