import Scriptlet.Program
import Scriptlet.Proofs.Grammar.Layout
import Scriptlet.Text.Name

/-!
# The grammar

The context-free grammar of the language. Each rule relates a text, the end part of it that is left
over and the tree of what stands between them, and any rule may be used wherever it fits: nothing
here says which one is tried first or how far a repetition goes.

    program      := toplevel*
    toplevel     := "define" ident "(" (ident ("," ident)*)? ")" block
                  | "global" ident "=" expression
    block        := "{" (expression ";"?)* "}"
    expression   := if | while | block | assignment | comparative
    if           := "if" comparative block ("else" (block | if))?
    while        := "while" comparative block
    assignment   := ident "=" expression
    comparative  := additive (("<="|">="|"=="|"!="|"<"|">") additive)*
    additive     := multitive (("+"|"-") multitive)*
    multitive    := primary (("*"|"/") primary)*
    primary      := "(" expression ")" | "println" "(" expression ")"
                  | ident "(" (expression ("," expression)*)? ")" | integer | ident

The three rules for operators are one rule here, `Chain`, at the three levels of the operators; a
chain of level three is a primary expression. Tokens come after the longest run of layout. Words and
digits go on as far as they can, and the parenthesis of a call follows the name directly.
-/

namespace Scriptlet

open Scriptlet.Text

namespace Grammar

/-! ### Tokens -/

/-- A word is over where no character of a name follows. -/
def EndsWord (r : List Char) : Prop :=
  ∀ c ∈ r.head?, ¬ isNameChar c

/-- A given text. -/
def Symbol (text : String) (s r : List Char) : Prop :=
  AfterLayout s (text.toList ++ r)

/-- A keyword. -/
def Word (k : Keyword) (s r : List Char) : Prop :=
  AfterLayout s (k.letters ++ r) ∧ EndsWord r

/-- The sign of an assignment. -/
def Sign (s r : List Char) : Prop :=
  AfterLayout s ('=' :: r) ∧ r.head? ≠ some '='

/-- A name. -/
def Name (s r : List Char) (x : String) : Prop :=
  AfterLayout s (x.toList ++ r) ∧ isName x.toList ∧ EndsWord r

/-- A run of digits is over where no digit follows. -/
def EndsDigits (r : List Char) : Prop :=
  ∀ c ∈ r.head?, ¬ c.isDigit

/-- Decimal digits, as many as there are. -/
def Digits (s r digits : List Char) : Prop :=
  s = digits ++ r ∧ digits ≠ [] ∧ (∀ d ∈ digits, d.isDigit) ∧ EndsDigits r

/-- The integer that digits stand for. -/
def natural (digits : List Char) : Int :=
  Nat.ofDigitChars 10 digits 0

/-- An integer literal, whose value is in range. -/
inductive Number : List Char → List Char → Value → Prop where
  | plain {s t r digits : List Char} {v : Value} :
      AfterLayout s t → Digits t r digits → v.toInt = natural digits → Number s r v
  | negative {s t r digits : List Char} {v : Value} :
      AfterLayout s ('-' :: t) → Digits t r digits → v.toInt = -natural digits → Number s r v

/-! ### Expressions -/

/-- The tree of operands with operators between them, which associate to the left. -/
def chained (first : Expr) (links : List (Operator × Expr)) : Expr :=
  links.foldl (fun left link => .binary link.1 left link.2) first

mutual

/-- Any expression. -/
inductive Expression : List Char → List Char → Expr → Prop where
  | conditional {s r e} : Conditional s r e → Expression s r e
  | loop {s r e} : Loop s r e → Expression s r e
  | block {s r b} : Braces s r b → Expression s r (.block b)
  | assignment {s r e} : Assignment s r e → Expression s r e
  | comparison {s r e} : Chain 0 s r e → Expression s r e

/-- A conditional. What follows `else` without braces is another conditional, which stands for the
block of it alone. -/
inductive Conditional : List Char → List Char → Expr → Prop where
  | ifThen {s s₁ s₂ r c b} :
      Word .conditional s s₁ → Chain 0 s₁ s₂ c → Braces s₂ r b → Conditional s r (.ifThen c b)
  | ifElse {s s₁ s₂ s₃ s₄ r c b d} :
      Word .conditional s s₁ → Chain 0 s₁ s₂ c → Braces s₂ s₃ b → Word .otherwise s₃ s₄ →
        Braces s₄ r d → Conditional s r (.ifElse c b d)
  | elseIf {s s₁ s₂ s₃ s₄ r c b e} :
      Word .conditional s s₁ → Chain 0 s₁ s₂ c → Braces s₂ s₃ b → Word .otherwise s₃ s₄ →
        Conditional s₄ r e → Conditional s r (.ifElse c b [e])

/-- A loop. -/
inductive Loop : List Char → List Char → Expr → Prop where
  | whileDo {s s₁ s₂ r c b} :
      Word .loop s s₁ → Chain 0 s₁ s₂ c → Braces s₂ r b → Loop s r (.whileDo c b)

/-- A block. -/
inductive Braces : List Char → List Char → List Expr → Prop where
  | braces {s s₁ s₂ r b} :
      Symbol "\x7b" s s₁ → Items s₁ s₂ b → Symbol "\x7d" s₂ r → Braces s r b

/-- The expressions of a block, each followed by a semicolon or not. -/
inductive Items : List Char → List Char → List Expr → Prop where
  | nil {s} : Items s s []
  | cons {s s₁ r e es} : Expression s s₁ e → Items s₁ r es → Items s r (e :: es)
  | consSemicolon {s s₁ s₂ r e es} :
      Expression s s₁ e → Symbol ";" s₁ s₂ → Items s₂ r es → Items s r (e :: es)

/-- An assignment. -/
inductive Assignment : List Char → List Char → Expr → Prop where
  | assign {s s₁ s₂ r x e} :
      Name s s₁ x → Sign s₁ s₂ → Expression s₂ r e → Assignment s r (.assign x e)

/-- Operands with operators of one level between them. -/
inductive Chain : Nat → List Char → List Char → Expr → Prop where
  | primary {s r e} : Primary s r e → Chain 3 s r e
  | chain {level s s₁ r first links} :
      level < 3 → Chain (level + 1) s s₁ first → Links level s₁ r links →
        Chain level s r (chained first links)

/-- The operators of one level that follow an operand, each with its right operand. -/
inductive Links : Nat → List Char → List Char → List (Operator × Expr) → Prop where
  | nil {level s} : Links level s s []
  | cons {level op s s₁ s₂ r e links} :
      op.level = level → Symbol op.symbol s s₁ → Chain (level + 1) s₁ s₂ e →
        Links level s₂ r links → Links level s r ((op, e) :: links)

/-- An operand of the tightest operators. -/
inductive Primary : List Char → List Char → Expr → Prop where
  | parenthesized {s s₁ s₂ r e} :
      Symbol "(" s s₁ → Expression s₁ s₂ e → Symbol ")" s₂ r → Primary s r e
  | print {s s₁ s₂ s₃ r e} :
      Word .print s s₁ → Symbol "(" s₁ s₂ → Expression s₂ s₃ e → Symbol ")" s₃ r →
        Primary s r (.print e)
  | call {s s₁ s₂ r f es} :
      Name s ('(' :: s₁) f → Arguments s₁ s₂ es → Symbol ")" s₂ r → Primary s r (.call f es)
  | integer {s r v} : Number s r v → Primary s r (.int v)
  | var {s r x} : Name s r x → Primary s r (.var x)

/-- Expressions with commas between them, or nothing. -/
inductive Arguments : List Char → List Char → List Expr → Prop where
  | none {s} : Arguments s s []
  | some {s s₁ r e es} : Expression s s₁ e → MoreArguments s₁ r es → Arguments s r (e :: es)

/-- Expressions, each after a comma. -/
inductive MoreArguments : List Char → List Char → List Expr → Prop where
  | nil {s} : MoreArguments s s []
  | cons {s s₁ s₂ r e es} :
      Symbol "," s s₁ → Expression s₁ s₂ e → MoreArguments s₂ r es → MoreArguments s r (e :: es)

end

/-! ### Programs -/

/-- Names, each after a comma. -/
inductive MoreNames : List Char → List Char → List String → Prop where
  | nil {s} : MoreNames s s []
  | cons {s s₁ s₂ r x xs} :
      Symbol "," s s₁ → Name s₁ s₂ x → MoreNames s₂ r xs → MoreNames s r (x :: xs)

/-- Names with commas between them, or nothing. -/
inductive Names : List Char → List Char → List String → Prop where
  | none {s} : Names s s []
  | some {s s₁ r x xs} : Name s s₁ x → MoreNames s₁ r xs → Names s r (x :: xs)

/-- The definition of a function or of a global variable. -/
inductive TopLevel : List Char → List Char → Definition → Prop where
  | function {s s₁ s₂ s₃ s₄ s₅ r f xs b} :
      Word .function s s₁ → Name s₁ s₂ f → Symbol "(" s₂ s₃ → Names s₃ s₄ xs → Symbol ")" s₄ s₅ →
        Braces s₅ r b → TopLevel s r (.function ⟨f, xs, b⟩)
  | global {s s₁ s₂ s₃ r x e} :
      Word .global s s₁ → Name s₁ s₂ x → Sign s₂ s₃ → Expression s₃ r e →
        TopLevel s r (.global x e)

/-- Definitions, one after the other. -/
inductive Definitions : List Char → List Char → List Definition → Prop where
  | nil {s} : Definitions s s []
  | cons {s s₁ r d ds} : TopLevel s s₁ d → Definitions s₁ r ds → Definitions s r (d :: ds)

/-- The grammar derives an expression from a whole text, after which only layout is left over. -/
def DerivesExpr (source : List Char) (e : Expr) : Prop :=
  ∃ rest, Expression source rest e ∧ Layout rest []

/-- The grammar derives a program from a whole text, after which only layout is left over. -/
def DerivesProgram (source : List Char) (p : Program) : Prop :=
  ∃ rest, Definitions source rest p.definitions ∧ Layout rest []

end Grammar

end Scriptlet
