import Mathlib.Logic.Function.Iterate
import Scriptlet.Proofs.Parser.Dispatch
import Scriptlet.Proofs.Parser.Repetition

/-!
# The recursion of the parsers

The parsers of the constructs call one another, and some of them do so before they have read anything:
an expression may be a comparison, which starts with a sum, which starts with a product, and so on.
`equations G` says what each of them does in terms of the parsers `G` of all of them, with no bound on
how often a part is repeated and none on how deep constructs are nested.

The parsers of this library solve these equations (`equations_grammar`), and the recursion ends: whatever
is put in the place of the innermost calls, the equations followed `callDepth X s` times give the answer
of the nonterminal `X` on the text `s` (`unfolded_eq`). A call goes to a shorter text, or to a nonterminal
of a lower rank on the same text.

* `parsing_progresses`: every parser reads something when it succeeds and leaves an end part of its
  text, no repetition has a round that reads nothing, and the recursion ends on every text.
-/

namespace Scriptlet

open Scriptlet.Text
open Scriptlet.Grammar

/-- The constructs that have a parser of their own. -/
inductive Nonterminal where
  | definition
  | block
  | expression
  | conditional
  | loop
  | assignment
  | comparison
  | sum
  | product
  | primary
  | print
  | call
  | integer
  | identifier
  deriving DecidableEq, Repr

namespace Nonterminal

/-- What a construct is read as. -/
@[reducible] def Tree : Nonterminal → Type
  | definition => Definition
  | block => Block
  | identifier => String
  | expression | conditional | loop | assignment | comparison | sum | product | primary | print | call
  | integer => Expr

/-- The level of a nonterminal among those that are tried on one text: it calls only those of a lower
rank before it has read something. -/
def rank : Nonterminal → Nat
  | expression => 6
  | comparison => 5
  | sum => 4
  | product => 3
  | primary => 2
  | call | assignment => 1
  | definition | block | conditional | loop | print | integer | identifier => 0

/-- A bound on how many calls of parsers are open at once. -/
def callDepth (X : Nonterminal) (s : List Char) : Nat :=
  7 * s.length + X.rank + 1

end Nonterminal

namespace Parser

/-- A parser for each nonterminal. -/
abbrev Family : Type :=
  (X : Nonterminal) → Parser X.Tree

/-! ### The equations -/

/-- Items with commas between them, as many as there are. -/
def itemsOf {α : Type} (item : Parser α) : Parser (List α) :=
  (do
    let a ← item
    let as ← guarded (moreOf item)
    return a :: as) <|> pure []

/-- Operands with operators between them, as many as there are. -/
def operandsOf (ops : List Operator) (operand : Parser Expr) : Parser Expr := do
  let first ← operand
  let rest ← guarded (linkOf ops operand)
  return rest.foldl (fun left (op, right) => .binary op left right) first

/-- Parameters in parentheses, whose names are read by a given parser. -/
def parametersOf (name : Parser String) : Parser (List String) := do
  token "("
  let names ← itemsOf name
  token ")"
  return names

/-- What each parser does in terms of all of them. -/
def equations (G : Family) : Family
  | .definition =>
    ((do
      keyword .function
      committed do
        let name ← G .identifier
        let params ← parametersOf (G .identifier)
        let body ← G .block
        return .function ⟨name, params, body⟩) : Parser Definition) <|>
    (do
      keyword .global
      committed do
        let name ← G .identifier
        assignSign
        let initial ← G .expression
        return .global name initial)
  | .block => do
    token "\x7b"
    committed do
      let body ← (guarded (itemOf (G .expression)) : Parser (List Expr))
      token "\x7d"
      return body
  | .expression =>
    G .conditional <|> G .loop <|> (Expr.block <$> G .block) <|> G .assignment <|> G .comparison
  | .conditional => do
    keyword .conditional
    committed do
      let condition ← G .comparison
      let body ← G .block
      let otherwise ← optional do
        keyword .otherwise
        committed (G .block <|> ((fun e => [e]) <$> G .conditional))
      match otherwise with
      | none => return .ifThen condition body
      | some otherwise => return .ifElse condition body otherwise
  | .loop => do
    keyword .loop
    committed do
      let condition ← G .comparison
      let body ← G .block
      return .whileDo condition body
  | .assignment => do
    let x ← G .identifier
    assignSign
    let e ← G .expression
    return .assign x e
  | .comparison =>
    operandsOf [.lessOrEqual, .greaterOrEqual, .equal, .notEqual, .lessThan, .greaterThan] (G .sum)
  | .sum => operandsOf [.add, .subtract] (G .product)
  | .product => operandsOf [.multiply, .divide] (G .primary)
  | .primary =>
    parenthesizedOf (G .expression) <|> G .print <|> G .call <|> G .integer <|>
      (Expr.var <$> G .identifier)
  | .print => printOf (G .expression)
  | .call => do
    let f ← G .identifier
    literal ['(']
    committed do
      let args ← itemsOf (G .expression)
      token ")"
      return .call f args
  | .integer => Expr.int <$> integer
  | .identifier => identifier

/-- The parsers of the language. -/
def grammar : Family
  | .definition => definition
  | .block => block
  | .expression => expression
  | .conditional => conditional
  | .loop => loop
  | .assignment => assignment
  | .comparison => comparison
  | .sum => sum
  | .product => product
  | .primary => primary
  | .print => print
  | .call => call
  | .integer => Expr.int <$> integer
  | .identifier => identifier

/-- Items that are read with the guard are those that are read with a bound on the rounds. -/
theorem itemsOf_eq {α : Type} {item : Parser α} (hi : Trims item) :
    itemsOf item = separated item (token ",") := by
  rw [itemsOf, guarded_eq_many (moreOf_advances hi), separated_comma]

/-- Operands with operators between them that are read with the guard are those that are read with a
bound on the rounds. -/
theorem operandsOf_eq (ops : List Operator) {operand : Parser Expr} (ho : Trims operand) :
    operandsOf ops operand = chainOf ops operand := by
  rw [operandsOf, guarded_eq_many (linkOf_advances ops ho)]
  rfl

/-- Where the keyword of a conditional stands ahead, an expression is a conditional. -/
theorem elseIfOf_eq :
    elseIfOf expression = ((fun e => [e]) <$> conditional : Parser Block) := by
  funext s
  cases h : keyword .conditional s with
  | ok a t =>
    have hexpr := expression_of_conditional (keyword_eq_ok_iff.mp h)
    rw [elseIfOf, bind_ok (ahead_ok h)]
    simp only [Functor.map, bind, hexpr]
    cases conditional s <;> rfl
  | miss t =>
    have hmiss : conditional s = .miss t := bind_miss h
    rw [elseIfOf, bind_miss (ahead_miss h)]
    exact (bind_miss hmiss).symm
  | fail fault t => exact absurd h (keyword_neverFails .conditional s fault t)

/-- The parsers of the language solve the equations. -/
theorem equations_grammar : equations grammar = grammar := by
  have he := expression_advances
  have hprimary := primaryOf_advances he.trims
  have hproduct := productOf_advances he.trims
  have hsum := sumOf_advances he.trims
  funext X
  cases X with
  | definition =>
    simp only [equations, grammar, parametersOf, itemsOf_eq identifier_advances.trims]
    rfl
  | block =>
    simp only [equations, grammar, guarded_eq_many (itemOf_advances he)]
    rfl
  | expression => exact (funext expression_eq).symm
  | conditional =>
    simp only [equations, grammar, ← elseIfOf_eq]
    rfl
  | loop => rfl
  | assignment => rfl
  | comparison => exact operandsOf_eq _ hsum.trims
  | sum => exact operandsOf_eq _ hproduct.trims
  | product => exact operandsOf_eq _ hprimary.trims
  | primary => rfl
  | print => rfl
  | call =>
    simp only [equations, grammar, itemsOf_eq he.trims]
    rfl
  | integer => rfl
  | identifier => rfl

/-! ### How deep the calls are -/

section agree

variable {n : Nat}

/-- Lists agree where their items do, since what is left after an item is no longer. -/
theorem itemsOf_agree {α : Type} {p q : Parser α} (h : AgreeBelow n p q) (hp : Trims p) :
    AgreeBelow n (itemsOf p) (itemsOf q) := by
  have more : AgreeBelow n (moreOf p) (moreOf q) :=
    (AgreeBelow.refl n _).bind (token_advances (by decide)).trims fun _ => h
  have hmore := moreOf_advances hp
  have htrims : Trims (guarded (moreOf p) : Parser (List α)) := by
    rw [guarded_eq_many hmore]
    exact hmore.trims.many
  exact (h.bind hp fun _ => (more.guarded hmore).bind htrims fun _ => .refl n _).orElse (.refl n _)

/-- Chains of operands agree where their operands do. -/
theorem operandsOf_agree (ops : List Operator) {p q : Parser Expr} (h : AgreeBelow n p q)
    (hp : Trims p) : AgreeBelow n (operandsOf ops p) (operandsOf ops q) := by
  have link : AgreeBelow n (linkOf ops p) (linkOf ops q) :=
    (AgreeBelow.refl n _).bind (operatorAmong_advances ops).trims fun _ =>
      h.bind hp fun _ => .refl n _
  have hlink := linkOf_advances ops hp
  have htrims : Trims (guarded (linkOf ops p) : Parser (List (Operator × Expr))) := by
    rw [guarded_eq_many hlink]
    exact hlink.trims.many
  exact h.bind hp fun _ => (link.guarded hlink).bind htrims fun _ => .refl n _

/-- A list leaves an end part of its text. -/
theorem itemsOf_trims {α : Type} {item : Parser α} (hi : Trims item) : Trims (itemsOf item) := by
  rw [itemsOf_eq hi]
  exact hi.separated (token_advances (by decide)).trims

/-- Lists of parameters agree where the names in them do. -/
theorem parametersOf_agree {p q : Parser String} (h : AgreeBelow n p q) (hp : Trims p) :
    AgreeBelow n (parametersOf p) (parametersOf q) :=
  (AgreeBelow.refl n _).bind (token_advances (by decide)).trims fun _ =>
    (itemsOf_agree h hp).bind (itemsOf_trims hp) fun _ => .refl n _

end agree

/-- Every construct is at least one character long. -/
theorem grammar_advances (X : Nonterminal) : Advances (grammar X) := by
  have he := expression_advances.trims
  cases X with
  | definition => exact definition_advances
  | block => exact blockOf_advances he
  | expression => exact expression_advances
  | conditional => exact conditionalOf_advances he
  | loop => exact loopOf_advances he
  | assignment => exact assignmentOf_advances he
  | comparison => exact comparisonOf_advances he
  | sum => exact sumOf_advances he
  | product => exact productOf_advances he
  | primary => exact primaryOf_advances he
  | print => exact printOf_advances he
  | call => exact callOf_advances he
  | integer => exact integer_advances.map _
  | identifier => exact identifier_advances

/-- A parser calls others on shorter texts, or those of a lower rank on the same text: where these
agree with the parsers of the language, so does what the equations make of them. -/
theorem equations_agree {n : Nat} {G : Family} (X : Nonterminal)
    (below : ∀ Y, AgreeBelow n (grammar Y) (G Y))
    (same : ∀ Y : Nonterminal, Y.rank < X.rank → AgreeBelow (n + 1) (grammar Y) (G Y)) :
    AgreeBelow (n + 1) (equations grammar X) (equations G X) := by
  have trims : ∀ Y, Trims (grammar Y) := fun Y => (grammar_advances Y).trims
  -- behind a token the text is shorter; the other calls go down in rank
  cases X with
  | definition =>
    have hfunction := (below .identifier).bind (trims .identifier) fun name =>
      (parametersOf_agree (below .identifier) (trims .identifier)).bind
        ((token_advances (by decide)).trims.bind fun _ =>
          (itemsOf_trims (trims .identifier)).bind fun _ =>
            (token_advances (by decide)).trims.bind fun _ => Trims.pure _) fun params =>
      (below .block).bind (trims .block) fun body =>
        AgreeBelow.refl n (pure (Definition.function ⟨name, params, body⟩))
    have hglobal := (below .identifier).bind (trims .identifier) fun name =>
      (AgreeBelow.refl n assignSign).bind assignSign_advances.trims fun _ =>
      (below .expression).bind (trims .expression) fun initial =>
        AgreeBelow.refl n (pure (Definition.global name initial))
    exact (AgreeBelow.bind_succ (keyword_advances .function) fun _ => hfunction.committed).orElse
      (AgreeBelow.bind_succ (keyword_advances .global) fun _ => hglobal.committed)
  | block =>
    have hitem := itemOf_advances (grammar_advances .expression)
    have item : AgreeBelow n (itemOf (grammar .expression)) (itemOf (G .expression)) :=
      (below .expression).bind (trims .expression) fun _ => .refl n _
    have htrims : Trims (guarded (itemOf (grammar .expression)) : Parser (List Expr)) := by
      rw [guarded_eq_many hitem]
      exact hitem.trims.many
    exact .bind_succ (token_advances (by decide)) fun _ =>
      ((item.guarded hitem).bind htrims fun _ => .refl n _).committed
  | expression =>
    exact (same .conditional (by decide)).orElse <| (same .loop (by decide)).orElse <|
      ((same .block (by decide)).map _).orElse <| (same .assignment (by decide)).orElse
        (same .comparison (by decide))
  | conditional =>
    refine .bind_succ (keyword_advances .conditional) fun _ => .committed ?_
    refine (below .comparison).bind (trims .comparison) fun _ => ?_
    refine (below .block).bind (trims .block) fun _ => ?_
    have branch := (below .block).orElse ((below .conditional).map fun e => [e])
    have htrims := (trims .block).orElse ((trims .conditional).map fun e => [e])
    exact ((AgreeBelow.refl n (keyword .otherwise)).bind (keyword_advances .otherwise).trims
      fun _ => branch.committed).optional.bind
        ((keyword_advances .otherwise).trims.bind fun _ => htrims.committed).optional
        fun _ => .refl n _
  | loop =>
    exact .bind_succ (keyword_advances .loop) fun _ => .committed <|
      (below .comparison).bind (trims .comparison) fun _ =>
        (below .block).bind (trims .block) fun _ => .refl n _
  | assignment =>
    exact (same .identifier (by decide)).bind_of_advances (grammar_advances .identifier) fun _ =>
      (AgreeBelow.refl n assignSign).bind assignSign_advances.trims fun _ =>
        (below .expression).bind (trims .expression) fun _ => .refl n _
  | comparison => exact operandsOf_agree _ (same .sum (by decide)) (trims .sum)
  | sum => exact operandsOf_agree _ (same .product (by decide)) (trims .product)
  | product => exact operandsOf_agree _ (same .primary (by decide)) (trims .primary)
  | primary =>
    exact (parenthesizedOf_agree (below .expression) expression_advances).orElse <|
      (same .print (by decide)).orElse <| (same .call (by decide)).orElse <|
        (same .integer (by decide)).orElse ((same .identifier (by decide)).map _)
  | print => exact printOf_agree (below .expression) expression_advances
  | call =>
    exact (same .identifier (by decide)).bind_of_advances (grammar_advances .identifier) fun _ =>
      (AgreeBelow.refl n _).bind (literal_advances (by decide)).trims fun _ => .committed <|
        (itemsOf_agree (below .expression) (trims .expression)).bind
          (itemsOf_trims (trims .expression)) fun _ => .refl n _
  | integer => exact .refl _ _
  | identifier => exact .refl _ _

/-- The equations followed often enough give the answers of the parsers of the language, whatever
is put in the place of the innermost calls. -/
theorem unfolded_eq (G : Family) {X : Nonterminal} {s : List Char} {m : Nat}
    (hm : X.callDepth s ≤ m) : (equations^[m] G) X s = grammar X s := by
  induction m generalizing X s with
  | zero => exact absurd hm (Nat.not_succ_le_zero _)
  | succ m ih =>
    have hrank : ∀ Y : Nonterminal, Y.rank ≤ 6 := by
      intro Y
      cases Y <;> decide
    have below : ∀ Y, AgreeBelow s.length (grammar Y) ((equations^[m] G) Y) := by
      intro Y t ht
      have := hrank Y
      exact (ih (by unfold Nonterminal.callDepth at *; omega)).symm
    have same : ∀ Y : Nonterminal, Y.rank < X.rank →
        AgreeBelow (s.length + 1) (grammar Y) ((equations^[m] G) Y) := by
      intro Y hlt t ht
      exact (ih (by unfold Nonterminal.callDepth at *; omega)).symm
    have hagree := equations_agree X below same s (Nat.lt_succ_self _)
    rw [equations_grammar] at hagree
    rw [Function.iterate_succ_apply']
    exact hagree.symm

/-! ### No parser is stuck -/

/-- Expressions whose nesting is followed to a given depth, and are not there below it. Unlike
`expressionWithin` they have no failure of their own at the bottom. -/
theorem expression_agree_iterate (n : Nat) :
    Advances (expressionOf^[n] missing) ∧ NeverStuck (expressionOf^[n] missing) ∧
      AgreeBelow n expression (expressionOf^[n] missing) := by
  induction n with
  | zero =>
    exact ⟨Advances.missing, neverStuck_combining.missing, fun s hs => absurd hs (Nat.not_lt_zero _)⟩
  | succ n ih =>
    obtain ⟨hadvances, hstuck, hagree⟩ := ih
    rw [Function.iterate_succ_apply']
    refine ⟨expressionOf_advances hadvances.trims,
      neverStuck_combining.expressionOf hadvances hstuck, fun s hs => ?_⟩
    rw [expression_eq]
    exact expressionOf_agree hagree expression_advances s hs

/-- No text is nested as deep as the bound on its depth, so that the failure there is never met. -/
theorem expression_neverStuck : NeverStuck expression := by
  intro s rest h
  obtain ⟨-, hstuck, hagree⟩ := expression_agree_iterate (s.length + 1)
  rw [hagree s (Nat.lt_succ_self _)] at h
  exact hstuck s rest h

/-- No construct reports that it is stuck. -/
theorem grammar_neverStuck (X : Nonterminal) : NeverStuck (grammar X) := by
  have hP := neverStuck_combining
  have he := expression_advances
  have h := expression_neverStuck
  have hprimary := primaryOf_advances he.trims
  have hproduct := productOf_advances he.trims
  have primary := hP.primaryOf he h
  have product := hP.chainOf [.multiply, .divide] hprimary.trims primary
  cases X with
  | definition => exact hP.definition h
  | block => exact hP.blockOf he h
  | expression => exact h
  | conditional => exact hP.conditionalOf he h
  | loop => exact hP.loopOf he h
  | assignment => exact hP.assignmentOf h
  | comparison => exact hP.comparisonOf he h
  | sum => exact hP.chainOf [.add, .subtract] hproduct.trims product
  | product => exact product
  | primary => exact primary
  | print => exact hP.printOf h
  | call => exact hP.callOf he h
  | integer => exact hP.map hP.integer _
  | identifier => exact hP.identifier

/-! ### Progress -/

/-- A parser that makes progress: it leaves an end part of its text whatever it answers, it has read
something when it succeeds, and it never reports a repetition that reads nothing. -/
structure Progresses {α : Type} (p : Parser α) : Prop extends Advances p where
  neverStuck : NeverStuck p

/-- The parsers that the rounds of the repetitions consist of: layout, the definitions of a program,
the expressions of a block, the operators of a level with their right operands, arguments and
parameters after a comma, and this comma. -/
inductive Repeated : {α : Type} → Parser α → Prop where
  | layout : Repeated layoutPiece
  | definition : Repeated definition
  | item : Repeated (itemOf expression)
  | comparison : Repeated
      (linkOf [.lessOrEqual, .greaterOrEqual, .equal, .notEqual, .lessThan, .greaterThan] sum)
  | sum : Repeated (linkOf [.add, .subtract] product)
  | product : Repeated (linkOf [.multiply, .divide] primary)
  | argument : Repeated (moreOf expression)
  | parameter : Repeated (moreOf identifier)
  | separator : Repeated (token ",")

/-- An operator with its right operand makes progress if the operand does. -/
theorem linkOf_progresses (ops : List Operator) {operand : Parser Expr} (h : Progresses operand) :
    Progresses (linkOf ops operand) :=
  ⟨linkOf_advances ops h.trims, (NeverStuck.of_neverFails (operatorAmong_neverFails ops)).bind
    fun op => h.neverStuck.bind fun e => neverStuck_combining.pure (op, e)⟩

/-- An item after a comma makes progress if the item does. -/
theorem moreOf_progresses {α : Type} {item : Parser α} (h : Progresses item) :
    Progresses (moreOf item) :=
  ⟨moreOf_advances h.trims,
    (NeverStuck.of_neverFails (token_neverFails ",")).bind fun _ => h.neverStuck⟩

/-- Each nonterminal makes progress. -/
theorem grammar_progresses (X : Nonterminal) : Progresses (grammar X) :=
  ⟨grammar_advances X, grammar_neverStuck X⟩

/-- Each round of a repetition reads something. -/
theorem Repeated.progresses {α : Type} {p : Parser α} (h : Repeated p) : Progresses p := by
  cases h with
  | layout => exact ⟨layoutPiece_advances, .of_neverFails layoutPiece_neverFails⟩
  | definition => exact grammar_progresses .definition
  | item =>
    exact ⟨itemOf_advances expression_advances, expression_neverStuck.bind fun e =>
      (neverStuck_combining.optional (.of_neverFails (token_neverFails ";"))).bind
        fun _ => neverStuck_combining.pure e⟩
  | comparison => exact linkOf_progresses _ (grammar_progresses .sum)
  | sum => exact linkOf_progresses _ (grammar_progresses .product)
  | product => exact linkOf_progresses _ (grammar_progresses .primary)
  | argument => exact moreOf_progresses (grammar_progresses .expression)
  | parameter => exact moreOf_progresses (grammar_progresses .identifier)
  | separator => exact ⟨token_advances (by decide), .of_neverFails (token_neverFails ",")⟩

/-- What follows layout is an end part of the text, and no layout stands there. -/
theorem layout_maximal {s r : List Char} (h : layout s = .ok () r) :
    r <:+ s ∧ (∀ c ∈ r.head?, c ∉ [' ', '\t', '\r', '\n']) ∧
      ∀ body t, (∀ c ∈ body, c ≠ '\r' ∧ c ≠ '\n') → LineEnd t → r ≠ '/' :: '/' :: (body ++ t) := by
  obtain rfl : skip s = r := (Reply.ok.inj h).2
  have hmax : ∀ t, Layout (skip s) t → t = skip s := (afterLayout_iff.mpr rfl).2
  refine ⟨skip_suffix s, ?_, ?_⟩
  · intro c hc hspace
    obtain ⟨t, ht⟩ := List.head?_eq_some_iff.mp hc
    have hlayout : Layout (skip s) t := ht ▸ .space hspace (.none t)
    have hlen := congrArg List.length ((hmax t hlayout).trans ht)
    simp at hlen
  · intro body t hbody ht heq
    have hlayout : Layout (skip s) t := heq ▸ .comment hbody ht (.none t)
    have hlen := congrArg List.length ((hmax t hlayout).trans heq)
    simp at hlen
    omega

/-- Parsing makes progress. Layout is read up to where neither a space nor a comment stands. Each
construct leaves an end part of its text, a shorter one when it succeeds. No repetition is stopped for
reading nothing in a round, also where only this stops it, so that no parser reports a repetition
without an end. And the calls of the parsers end on every text: the equations, followed as often as
`Nonterminal.callDepth` says or more often, give the answers of the parsers, whatever the innermost
calls would have answered. -/
theorem parsing_progresses :
    (∀ s r, layout s = .ok () r → r <:+ s ∧ (∀ c ∈ r.head?, c ∉ [' ', '\t', '\r', '\n']) ∧
      ∀ body t, (∀ c ∈ body, c ≠ '\r' ∧ c ≠ '\n') → LineEnd t → r ≠ '/' :: '/' :: (body ++ t)) ∧
    (∀ X, Progresses (grammar X)) ∧
    (∀ {α : Type} (p : Parser α), Repeated p →
      Progresses p ∧ guarded p = many p ∧ NeverStuck (guarded p)) ∧
    layout = ((fun _ => ()) <$> guarded layoutPiece : Parser Unit) ∧
    NeverStuck program ∧ NeverStuck (do let e ← expression; layout; return e) ∧
    ∀ (G : Family) X s k, (equations^[X.callDepth s + k] G) X s = grammar X s := by
  refine ⟨fun s r => layout_maximal, grammar_progresses, ?_, layout_eq_guarded,
    neverStuck_combining.program expression_neverStuck,
    neverStuck_combining.expressionAndLayout expression_neverStuck,
    fun G X s k => unfolded_eq G (Nat.le_add_right _ k)⟩
  intro α p hp
  have hprogress := hp.progresses
  have hguarded := guarded_eq_many hprogress.toAdvances
  exact ⟨hprogress, hguarded, hguarded ▸ neverStuck_combining.many hprogress.toAdvances
    hprogress.neverStuck⟩

end Parser

end Scriptlet
