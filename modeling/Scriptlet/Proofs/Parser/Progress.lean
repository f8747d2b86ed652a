import Mathlib.Data.List.Basic
import Scriptlet.Parser.Grammar

/-!
# Progress: parsers leave an end part of their text

* `Trims p`: whatever `p` answers, the text that it leaves unread is an end part of the text that it
  was given.
* `Advances p`: moreover a success of `p` has read at least one character.

Every combinator keeps `Trims`, and a sequence advances if one of its parts does. From this every
parser of the language advances (`expression_advances`, `definition_advances`, …). That is what
bounds the rounds of a repetition and the depth of nesting, see `Scriptlet.Proofs.Parser.Fixpoint`.
-/

namespace Scriptlet

open Scriptlet.Text

namespace Parser

variable {α β : Type}

/-- The text that was unread when a parser answered. -/
def Reply.rest : Reply α → List Char
  | .ok _ rest => rest
  | .miss rest => rest
  | .fail _ rest => rest

/-- A parser that leaves an end part of its text, whatever it answers. -/
def Trims (p : Parser α) : Prop :=
  ∀ s, (p s).rest <:+ s

/-- A parser that trims its text and reads at least one character when it succeeds. -/
structure Advances (p : Parser α) : Prop where
  trims : Trims p
  shorter : ∀ {s rest : List Char} {a : α}, p s = .ok a rest → rest.length < s.length

/-! ### Trimming -/

/-- What a success of a trimming parser leaves is an end part. -/
theorem Trims.ok {p : Parser α} (hp : Trims p) {s rest : List Char} {a : α}
    (h : p s = .ok a rest) : rest <:+ s := by
  have := hp s
  rwa [h] at this

/-- What a success of a trimming parser leaves is no longer than the text. -/
theorem Trims.length_le {p : Parser α} (hp : Trims p) {s rest : List Char} {a : α}
    (h : p s = .ok a rest) : rest.length ≤ s.length :=
  (hp.ok h).length_le

/-- What reads nothing leaves the whole text. -/
theorem Trims.pure (a : α) : Trims (pure a : Parser α) :=
  fun s => List.suffix_refl s

/-- A miss leaves the whole text. -/
theorem Trims.missing : Trims (missing : Parser α) :=
  fun s => List.suffix_refl s

/-- A failure leaves the whole text. -/
theorem Trims.failing (fault : Fault) : Trims (failing fault : Parser α) :=
  fun s => List.suffix_refl s

/-- A sequence trims if its parts do. -/
theorem Trims.bind {p : Parser α} {f : α → Parser β} (hp : Trims p) (hf : ∀ a, Trims (f a)) :
    Trims (p >>= f) := by
  intro s
  have hs := hp s
  cases h : p s with
  | ok a rest =>
    rw [h] at hs
    rw [bind_ok h]
    exact (hf a rest).trans hs
  | miss rest => rw [bind_miss h]; rwa [h] at hs
  | fail fault rest => rw [bind_fail h]; rwa [h] at hs

/-- A choice trims if both sides do. -/
theorem Trims.orElse {p q : Parser α} (hp : Trims p) (hq : Trims q) : Trims (p <|> q) := by
  intro s
  have hs := hp s
  cases h : p s with
  | ok a rest => rwa [orElse_ok h, ← h]
  | miss rest => rw [orElse_miss h]; exact hq s
  | fail fault rest => rwa [orElse_fail h, ← h]

/-- Commitment keeps the text that is left. -/
theorem Trims.committed {p : Parser α} (hp : Trims p) : Trims (committed p) := by
  intro s
  have hs := hp s
  cases h : p s with
  | ok a rest => rwa [committed_ok h, ← h]
  | miss rest => rw [committed_miss h]; rwa [h] at hs
  | fail fault rest => rwa [committed_fail h, ← h]

/-- Looking ahead trims if the parser does. -/
theorem Trims.ahead {p : Parser α} (hp : Trims p) : Trims (ahead p) := by
  intro s
  have hs := hp s
  cases h : p s with
  | ok a rest => rw [ahead_ok h]; exact List.suffix_refl s
  | miss rest => rw [ahead_miss h]; rwa [h] at hs
  | fail fault rest => simp only [Parser.ahead, h]; rwa [h] at hs

/-- A mapped parser leaves what the parser leaves. -/
theorem Trims.map {p : Parser α} (hp : Trims p) (f : α → β) : Trims (f <$> p) :=
  hp.bind fun _ => Trims.pure _

/-- An optional part trims if the part does. -/
theorem Trims.optional {p : Parser α} (hp : Trims p) : Trims (optional p) :=
  (hp.map some).orElse (Trims.pure none)

/-- Bounded repetition trims if the repeated parser does. -/
theorem Trims.manyWithin {p : Parser α} (hp : Trims p) :
    (rounds : Nat) → Trims (manyWithin rounds p)
  | 0 => Trims.failing .stuck
  | rounds + 1 =>
    (hp.bind fun _ => (Trims.manyWithin hp rounds).bind fun _ => Trims.pure _).orElse (Trims.pure [])

/-- Repetition trims if the repeated parser does. -/
theorem Trims.many {p : Parser α} (hp : Trims p) : Trims (many p) :=
  fun s => Trims.manyWithin hp (s.length + 1) s

/-- A separated list trims if its parts do. -/
theorem Trims.separated {item : Parser α} {separator : Parser Unit} (hi : Trims item)
    (hs : Trims separator) : Trims (separated item separator) :=
  (hi.bind fun _ => ((hs.bind fun _ => hi).many).bind fun _ => Trims.pure _).orElse (Trims.pure [])

/-! ### Advancing -/

/-- A sequence advances if its first part does. -/
theorem Advances.bind {p : Parser α} {f : α → Parser β} (hp : Advances p)
    (hf : ∀ a, Trims (f a)) : Advances (p >>= f) := by
  refine ⟨hp.trims.bind hf, ?_⟩
  intro s rest b h
  cases hs : p s with
  | ok a other =>
    rw [bind_ok hs] at h
    exact Nat.lt_of_le_of_lt ((hf a).length_le h) (hp.shorter hs)
  | miss other => rw [bind_miss hs] at h; cases h
  | fail fault other => rw [bind_fail hs] at h; cases h

/-- A sequence advances if what follows its first part does. -/
theorem Advances.bind_of_trims {p : Parser α} {f : α → Parser β} (hp : Trims p)
    (hf : ∀ a, Advances (f a)) : Advances (p >>= f) := by
  refine ⟨hp.bind fun a => (hf a).trims, ?_⟩
  intro s rest b h
  cases hs : p s with
  | ok a other =>
    rw [bind_ok hs] at h
    exact Nat.lt_of_lt_of_le ((hf a).shorter h) (hp.length_le hs)
  | miss other => rw [bind_miss hs] at h; cases h
  | fail fault other => rw [bind_fail hs] at h; cases h

/-- A choice advances if both sides do. -/
theorem Advances.orElse {p q : Parser α} (hp : Advances p) (hq : Advances q) :
    Advances (p <|> q) := by
  refine ⟨hp.trims.orElse hq.trims, ?_⟩
  intro s rest a h
  cases hs : p s with
  | ok b other => rw [orElse_ok hs, ← hs] at h; exact hp.shorter h
  | miss other => rw [orElse_miss hs] at h; exact hq.shorter h
  | fail fault other => rw [orElse_fail hs] at h; cases h

/-- A mapped parser advances if the parser does. -/
theorem Advances.map {p : Parser α} (hp : Advances p) (f : α → β) : Advances (f <$> p) :=
  hp.bind fun _ => Trims.pure _

/-- A parser that always misses advances, since it never succeeds. -/
theorem Advances.missing : Advances (missing : Parser α) :=
  ⟨Trims.missing, nofun⟩

/-- A parser that always fails advances, since it never succeeds. -/
theorem Advances.failing (fault : Fault) : Advances (failing fault : Parser α) :=
  ⟨Trims.failing fault, nofun⟩

/-! ### Tokens -/

/-- Layout is taken from the start of a text. -/
theorem layout_trims : Trims layout :=
  skip_suffix

/-- A given text that is not empty is read as a whole. -/
theorem literal_advances {letters : List Char} (h : letters ≠ []) : Advances (literal letters) := by
  constructor
  · intro s
    unfold literal
    split
    · next rest hs =>
      rw [List.isPrefixOf?_eq_some_iff_append_eq] at hs
      exact ⟨letters, hs⟩
    · exact List.suffix_refl s
  · intro s rest a hs
    unfold literal at hs
    split at hs
    · next other ho =>
      rw [List.isPrefixOf?_eq_some_iff_append_eq] at ho
      cases hs
      have := List.length_pos_iff.mpr h
      rw [← ho, List.length_append]
      omega
    · cases hs

/-- A look at the next character leaves the whole text. -/
theorem unlessNext_trims (stops : Char → Bool) : Trims (unlessNext stops) := by
  intro s
  unfold unlessNext
  split <;> exact List.suffix_refl s

/-- A token that is not empty reads its characters. -/
theorem token_advances {text : String} (h : text.toList ≠ []) : Advances (token text) :=
  Advances.bind_of_trims layout_trims fun _ => literal_advances h

/-- A keyword reads its letters. -/
theorem keyword_advances (k : Keyword) : Advances (keyword k) := by
  have hk : k.letters ≠ [] := by cases k <;> decide
  exact Advances.bind_of_trims layout_trims fun _ =>
    (literal_advances hk).bind fun _ => unlessNext_trims _

/-- The sign of an assignment reads its equals sign. -/
theorem assignSign_advances : Advances assignSign :=
  (token_advances (by decide)).bind fun _ => unlessNext_trims _

/-- A word is read up to its last character. -/
theorem word_advances : Advances word := by
  constructor
  · intro s
    cases s with
    | nil => exact List.suffix_refl []
    | cons c rest =>
      simp only [word]
      split
      · split
        · exact List.suffix_refl _
        · exact (List.dropWhile_suffix _).trans (List.suffix_cons c rest)
      · exact List.suffix_refl _
  · intro s rest a h
    cases s with
    | nil => cases h
    | cons c other =>
      simp only [word] at h
      split at h
      · split at h
        · cases h
        · cases h
          exact Nat.lt_succ_of_le (List.dropWhile_suffix _).length_le
      · cases h

/-- A name reads at least its first character. -/
theorem identifier_advances : Advances identifier :=
  Advances.bind_of_trims layout_trims fun _ => word_advances

/-- What follows a minus sign, or the text itself, is an end part of it. -/
theorem afterMinus?_getD_suffix (s : List Char) : (afterMinus? s).getD s <:+ s := by
  unfold afterMinus?
  cases h : ['-'].isPrefixOf? s with
  | none => exact List.suffix_refl s
  | some rest =>
    rw [List.isPrefixOf?_eq_some_iff_append_eq] at h
    exact ⟨['-'], h⟩

/-- A numeral holds at least one digit, and an error of its value is reported at its start. -/
theorem numeral_advances : Advances numeral := by
  constructor
  · intro s
    have hs := afterMinus?_getD_suffix s
    simp only [numeral]
    split
    · exact hs
    · split
      · exact (List.dropWhile_suffix _).trans hs
      · exact List.suffix_refl s
  · intro s rest v h
    have hs := afterMinus?_getD_suffix s
    simp only [numeral] at h
    split at h
    · cases h
    · next hd =>
      split at h
      · cases h
        generalize (afterMinus? s).getD s = body at hs hd
        have hlen := congrArg List.length (body.takeWhile_append_dropWhile (p := Char.isDigit))
        have hpos : 0 < (body.takeWhile Char.isDigit).length :=
          List.length_pos_iff.mpr (by simpa using hd)
        have := hs.length_le
        rw [List.length_append] at hlen
        omega
      · cases h

/-- An integer reads at least one digit. -/
theorem integer_advances : Advances integer :=
  Advances.bind_of_trims layout_trims fun _ => numeral_advances

/-- Whichever operator is read has a symbol that is not empty. -/
theorem operatorAmong_advances : (ops : List Operator) → Advances (operatorAmong ops)
  | [] => Advances.missing
  | op :: ops => by
    have hop : op.symbol.toList ≠ [] := by cases op <;> decide
    exact ((token_advances hop).bind fun _ => Trims.pure op).orElse (operatorAmong_advances ops)

/-! ### The repeated parts of constructs -/

/-- An expression of a block with the semicolon after it, if there is one. -/
def itemOf (expr : Parser Expr) : Parser Expr := do
  let e ← expr
  let _ ← optional (token ";")
  return e

/-- An operator with its right operand. -/
def linkOf (ops : List Operator) (operand : Parser Expr) : Parser (Operator × Expr) := do
  let op ← operatorAmong ops
  let e ← operand
  return (op, e)

/-- An item after a comma. -/
def moreOf (item : Parser α) : Parser α := do
  token ","
  item

/-- An item of a block reads its expression. -/
theorem itemOf_advances {expr : Parser Expr} (he : Advances expr) : Advances (itemOf expr) :=
  he.bind fun _ => (token_advances (by decide)).trims.optional.bind fun _ => Trims.pure _

/-- An operator with its right operand reads the operator. -/
theorem linkOf_advances (ops : List Operator) {operand : Parser Expr} (ho : Trims operand) :
    Advances (linkOf ops operand) :=
  (operatorAmong_advances ops).bind fun _ => ho.bind fun _ => Trims.pure _

/-- An item after a comma reads the comma. -/
theorem moreOf_advances {item : Parser α} (hi : Trims item) : Advances (moreOf item) :=
  (token_advances (by decide)).bind fun _ => hi

/-- Items with commas between them are an item and those after it, or nothing. -/
theorem separated_comma (item : Parser α) :
    separated item (token ",") =
      ((do let a ← item; let as ← many (moreOf item); return a :: as) <|> pure []) :=
  rfl

/-! ### Constructs over the parser of nested expressions -/

section nested

variable {expr : Parser Expr} (he : Trims expr)

include he

/-- A block advances by its opening brace. -/
theorem blockOf_advances : Advances (blockOf expr) := by
  refine (token_advances (by decide)).bind fun _ => Trims.committed ?_
  have item : Trims (itemOf expr) :=
    he.bind fun _ => (token_advances (by decide)).trims.optional.bind fun _ => Trims.pure _
  exact item.many.bind fun _ => (token_advances (by decide)).trims.bind fun _ => Trims.pure _

/-- A print reads its keyword. -/
theorem printOf_advances : Advances (printOf expr) :=
  (keyword_advances .print).bind fun _ => Trims.committed <|
    (token_advances (by decide)).trims.bind fun _ => he.bind fun _ =>
      (token_advances (by decide)).trims.bind fun _ => Trims.pure _

/-- A call reads the name of its function. -/
theorem callOf_advances : Advances (callOf expr) :=
  identifier_advances.bind fun _ => (literal_advances (by decide)).trims.bind fun _ =>
    Trims.committed <| (he.separated (token_advances (by decide)).trims).bind fun _ =>
      (token_advances (by decide)).trims.bind fun _ => Trims.pure _

/-- Parentheses read the one that opens them. -/
theorem parenthesizedOf_advances : Advances (parenthesizedOf expr) :=
  (token_advances (by decide)).bind fun _ => Trims.committed <|
    he.bind fun _ => (token_advances (by decide)).trims.bind fun _ => Trims.pure _

/-- A primary expression advances, whichever alternative it is. -/
theorem primaryOf_advances : Advances (primaryOf expr) :=
  (parenthesizedOf_advances he).orElse <| (printOf_advances he).orElse <|
    (callOf_advances he).orElse <| (integer_advances.map _).orElse (identifier_advances.map _)

omit he in
/-- A chain advances by its first operand. -/
theorem chainOf_advances (ops : List Operator) {operand : Parser Expr} (ho : Advances operand) :
    Advances (chainOf ops operand) :=
  ho.bind fun _ => (linkOf_advances ops ho.trims).trims.many.bind fun _ => Trims.pure _

/-- A product reads its first operand. -/
theorem productOf_advances : Advances (productOf expr) :=
  chainOf_advances _ (primaryOf_advances he)

/-- A sum reads its first product. -/
theorem sumOf_advances : Advances (sumOf expr) :=
  chainOf_advances _ (productOf_advances he)

/-- A comparison reads its first sum. -/
theorem comparisonOf_advances : Advances (comparisonOf expr) :=
  chainOf_advances _ (sumOf_advances he)

/-- A conditional after `else` is looked at first, which reads nothing. -/
theorem elseIfOf_trims : Trims (elseIfOf expr) :=
  (keyword_advances .conditional).trims.ahead.bind fun _ => he.bind fun _ => Trims.pure _

/-- A second branch reads its keyword. -/
theorem otherwiseOf_advances : Advances (otherwiseOf expr) :=
  (keyword_advances .otherwise).bind fun _ =>
    Trims.committed ((blockOf_advances he).trims.orElse (elseIfOf_trims he))

/-- A conditional reads its keyword. -/
theorem conditionalOf_advances : Advances (conditionalOf expr) := by
  refine (keyword_advances .conditional).bind fun _ => Trims.committed ?_
  refine (comparisonOf_advances he).trims.bind fun _ => (blockOf_advances he).trims.bind fun _ => ?_
  refine (otherwiseOf_advances he).trims.optional.bind fun otherwise => ?_
  cases otherwise <;> exact Trims.pure _

/-- A loop reads its keyword. -/
theorem loopOf_advances : Advances (loopOf expr) :=
  (keyword_advances .loop).bind fun _ => Trims.committed <|
    (comparisonOf_advances he).trims.bind fun _ => (blockOf_advances he).trims.bind fun _ =>
      Trims.pure _

/-- An assignment reads its name. -/
theorem assignmentOf_advances : Advances (assignmentOf expr) :=
  identifier_advances.bind fun _ => assignSign_advances.trims.bind fun _ =>
    he.bind fun _ => Trims.pure _

/-- An expression advances, whichever construct it is. -/
theorem expressionOf_advances : Advances (expressionOf expr) :=
  (conditionalOf_advances he).orElse <| (loopOf_advances he).orElse <|
    ((blockOf_advances he).map _).orElse <| (assignmentOf_advances he).orElse
      (comparisonOf_advances he)

end nested

/-! ### Expressions, definitions and programs -/

/-- Expressions advance to whatever depth they are followed. -/
theorem expressionWithin_advances : (depth : Nat) → Advances (expressionWithin depth)
  | 0 => Advances.failing .stuck
  | depth + 1 => expressionOf_advances (expressionWithin_advances depth).trims

/-- An expression is at least one character long. -/
theorem expression_advances : Advances expression :=
  ⟨fun s => (expressionWithin_advances (s.length + 1)).trims s,
    fun {s _ _} h => (expressionWithin_advances (s.length + 1)).shorter h⟩

/-- A block reads the brace that opens it. -/
theorem block_advances : Advances block :=
  blockOf_advances expression_advances.trims

/-- A list of parameters reads the parenthesis that opens it. -/
theorem parameters_advances : Advances parameters :=
  (token_advances (by decide)).bind fun _ =>
    (identifier_advances.trims.separated (token_advances (by decide)).trims).bind fun _ =>
      (token_advances (by decide)).trims.bind fun _ => Trims.pure _

/-- A function definition reads its keyword. -/
theorem function_advances : Advances function :=
  (keyword_advances .function).bind fun _ => Trims.committed <|
    identifier_advances.trims.bind fun _ => parameters_advances.trims.bind fun _ =>
      block_advances.trims.bind fun _ => Trims.pure _

/-- A definition of a global variable reads its keyword. -/
theorem global_advances : Advances global :=
  (keyword_advances .global).bind fun _ => Trims.committed <|
    identifier_advances.trims.bind fun _ => assignSign_advances.trims.bind fun _ =>
      expression_advances.trims.bind fun _ => Trims.pure _

/-- A definition is at least one character long. -/
theorem definition_advances : Advances definition :=
  function_advances.orElse global_advances

/-- A program may be empty, so that it only leaves an end part of its text. -/
theorem program_trims : Trims program :=
  definition_advances.trims.many.bind fun _ => layout_trims.bind fun _ => Trims.pure _

/-- What reads an expression as a whole text. -/
theorem expressionAndLayout_trims : Trims (do let e ← expression; layout; return e) :=
  expression_advances.trims.bind fun _ => layout_trims.bind fun _ => Trims.pure _

end Parser

end Scriptlet
