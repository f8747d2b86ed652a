import Scriptlet.Proofs.Errors.Scan
import Scriptlet.Proofs.Locality.Chains

/-!
# What a parser leaves unread

What a parser reads, a scan goes through and meets no stray character (`Walks.ok`). Where a parser
fails, the scan comes as well, and no layout stands there: a construct that is committed to fails at the
token that is not the right one (`Settles.miss`). There is one exception. A keyword misses behind its
letters where they go on, and after `else` this becomes the failure of the conditional that might have
stood there: `else iffy` is refused at `fy` (`Halts.behindIf`).

* `expression_settles`, `definition_walks`, `program_settles`: expressions, definitions and programs
  are read and left like this.
-/

namespace Scriptlet

open Scriptlet.Text
open Scriptlet.Grammar

/-- The letters of a whole `else`, which the scan of the first text comes to, are followed by layout and
by those of `if`, which are not a whole word but go on in the second text. -/
def FollowsElseIf (s r : List Char) : Prop :=
  ∃ t, Scanned s ("else".toList ++ t) ∧ EndsWord t ∧ skip t = "if".toList ++ r ∧
    ∃ c ∈ r.head?, isNameChar c

namespace Parser

variable {α β : Type}

/-- Where a parser may give up: at a place that the scan comes to cleanly, after layout; or inside a word
that starts like `if`, after `else`. -/
inductive Halts (s r : List Char) : Prop where
  | settled : Clean s r → skip r = r → Halts s r
  | behindIf : FollowsElseIf s r → Halts s r

/-- A clean scan to a text carries over where it halts. -/
theorem Halts.of_clean {s t r : List Char} (h : Clean s t) (hr : Halts t r) : Halts s r := by
  cases hr with
  | settled ht hskip => exact .settled (h.trans ht) hskip
  | behindIf helse =>
    obtain ⟨u, hu, hif⟩ := helse
    exact .behindIf ⟨u, h.scanned.trans hu, hif⟩

/-- A parser gives up before an end part of its text, in which something else was expected. -/
def Refuses (p : Parser α) (s r : List Char) : Prop :=
  p s = .miss r ∨ p s = .fail .unexpected r

/-- A parser that reads what a scan goes through cleanly, and fails where parsers may give up. -/
structure Walks (p : Parser α) : Prop where
  ok : ∀ {s r : List Char} {a : α}, p s = .ok a r → Clean s r
  fail : ∀ {s r : List Char}, p s = .fail .unexpected r → Halts s r

/-- Moreover it misses at a place that the scan comes to cleanly, after layout. -/
structure Settles (p : Parser α) : Prop extends Walks p where
  miss : ∀ {s r : List Char}, p s = .miss r → Clean s r ∧ skip r = r

/-- Where a parser that settles gives up, the scan halts. -/
theorem Settles.refuses {p : Parser α} (hp : Settles p) {s r : List Char} (h : Refuses p s r) :
    Halts s r := by
  rcases h with hmiss | hfail
  · obtain ⟨hr, hskip⟩ := hp.miss hmiss
    exact .settled hr hskip
  · exact hp.fail hfail

/-! ### Combinators -/

/-- What is committed to is refused where it fails or misses. -/
theorem refuses_of_committed {p : Parser α} {s r : List Char}
    (h : committed p s = .fail .unexpected r) : Refuses p s r := by
  rcases committed_eq_fail_iff.mp h with h | ⟨-, h⟩
  · exact .inr h
  · exact .inl h

namespace Walks

variable {p q : Parser α}

/-- A parser that never fails walks if the scan goes cleanly through what it reads. -/
theorem of_neverFails (hp : NeverFails p) (ok : ∀ {s r a}, p s = .ok a r → Clean s r) : Walks p :=
  ⟨ok, fun h => absurd h (hp _ _ _)⟩

/-- What reads nothing walks. -/
theorem pure (a : α) : Walks (pure a : Parser α) :=
  of_neverFails (.pure a) fun h => by
    obtain ⟨-, rfl⟩ := pure_eq_ok_iff.mp h
    exact .refl _

/-- A failure for another reason than an unexpected text halts nowhere. -/
theorem failing {fault : Fault} (hfault : fault ≠ .unexpected) :
    Walks (failing fault : Parser α) where
  ok h := by cases h
  fail h := by
    cases h
    exact absurd rfl hfault

/-- A sequence walks if its parts do. -/
theorem bind {f : α → Parser β} (hp : Walks p) (hf : ∀ a, Walks (f a)) : Walks (p >>= f) where
  ok h := by
    obtain ⟨a, t, ha, hb⟩ := bind_eq_ok_iff.mp h
    exact (hp.ok ha).trans ((hf a).ok hb)
  fail h := by
    rcases bind_eq_fail_iff.mp h with h | ⟨a, t, ha, hb⟩
    · exact hp.fail h
    · exact .of_clean (hp.ok ha) ((hf a).fail hb)

/-- A change of the result leaves the places as they are. -/
theorem map (hp : Walks p) (f : α → β) : Walks (f <$> p) :=
  hp.bind fun _ => .pure _

/-- A choice walks if its alternatives do. -/
theorem orElse (hp : Walks p) (hq : Walks q) : Walks (p <|> q) where
  ok h := by
    rcases orElse_eq_ok_iff.mp h with h | ⟨-, h⟩
    · exact hp.ok h
    · exact hq.ok h
  fail h := by
    rcases orElse_eq_fail_iff.mp h with h | ⟨-, h⟩
    · exact hp.fail h
    · exact hq.fail h

/-- A look ahead reads nothing, and fails where the parser does. -/
theorem ahead (hp : Walks p) : Walks (ahead p) where
  ok h := by
    obtain ⟨rfl, -⟩ := ahead_eq_ok_iff.mp h
    exact .refl _
  fail h := hp.fail (ahead_eq_fail_iff.mp h)

/-- Repetitions of rounds that walk do so; the bound on their rounds is no failure of theirs. -/
theorem manyWithin (hp : Walks p) : (rounds : Nat) → Walks (manyWithin rounds p)
  | 0 => failing (by decide)
  | rounds + 1 => (hp.bind fun _ => (hp.manyWithin rounds).bind fun _ => .pure _).orElse (.pure [])

end Walks

namespace Settles

variable {p q : Parser α}

/-- What reads nothing does not miss either. -/
theorem pure (a : α) : Settles (pure a : Parser α) :=
  ⟨.pure a, nofun⟩

/-- A sequence settles if its parts do. -/
theorem bind {f : α → Parser β} (hp : Settles p) (hf : ∀ a, Settles (f a)) :
    Settles (p >>= f) where
  toWalks := hp.toWalks.bind fun a => (hf a).toWalks
  miss h := by
    rcases bind_eq_miss_iff.mp h with h | ⟨a, t, ha, hb⟩
    · exact hp.miss h
    · obtain ⟨hr, hskip⟩ := (hf a).miss hb
      exact ⟨(hp.ok ha).trans hr, hskip⟩

/-- A change of the result leaves the places as they are. -/
theorem map (hp : Settles p) (f : α → β) : Settles (f <$> p) :=
  hp.bind fun _ => .pure _

/-- A choice misses where its last alternative does. -/
theorem orElse (hp : Walks p) (hq : Settles q) : Settles (p <|> q) where
  toWalks := hp.orElse hq.toWalks
  miss h := hq.miss (orElse_eq_miss_iff.mp h).2

/-- What is committed to fails where it would have missed. -/
theorem committed (hp : Settles p) : Settles (committed p) where
  ok h := hp.ok (committed_eq_ok_iff.mp h)
  fail h := hp.refuses (refuses_of_committed h)
  miss h := absurd h (committed_ne_miss p _ _)

/-- What may be left out never misses. -/
theorem optional (hp : Walks p) : Settles (optional p) :=
  orElse (hp.map some) (.pure none)

/-- A repetition never misses, since it ends where a round does. -/
theorem many (hp : Walks p) : Settles (many p) where
  ok := (hp.manyWithin _).ok
  fail := (hp.manyWithin _).fail
  miss h := absurd h (manyWithin_ne_miss _ p _ _)

end Settles

/-! ### Tokens -/

/-- Given letters miss where they were looked for. -/
theorem literal_eq_miss {letters s r : List Char} (h : literal letters s = .miss r) : s = r := by
  unfold literal at h
  split at h
  · cases h
  · exact Reply.miss.inj h

/-- A token misses after layout. -/
theorem token_eq_miss {text : String} {s r : List Char} (h : token text s = .miss r) : skip s = r :=
  literal_eq_miss h

/-- A look at the next character misses at this character, if it is one that stops. -/
theorem unlessNext_eq_miss {stops : Char → Bool} {s r : List Char} (h : unlessNext stops s = .miss r) :
    s = r ∧ ∃ c ∈ s.head?, stops c := by
  unfold unlessNext at h
  split at h
  · next hhead =>
    cases h
    refine ⟨rfl, ?_⟩
    cases s with
    | nil => cases hhead
    | cons c s => exact ⟨c, rfl, hhead⟩
  · cases h

/-- A name misses after layout. -/
theorem identifier_eq_miss {s r : List Char} (h : identifier s = .miss r) : skip s = r := by
  have hword : word (skip s) = .miss r := h
  unfold word at hword
  split at hword
  · exact Reply.miss.inj hword
  · dsimp only at hword
    split at hword
    · split at hword
      · exact Reply.miss.inj hword
      · cases hword
    · exact Reply.miss.inj hword

/-- A keyword misses after layout, or behind its letters where they go on. -/
theorem keyword_eq_miss {k : Keyword} {s r : List Char} (h : keyword k s = .miss r) :
    skip s = r ∨ skip s = k.letters ++ r ∧ ∃ c ∈ r.head?, isNameChar c := by
  have hrest : (literal k.letters >>= fun _ => unlessNext isNameChar) (skip s) = .miss r := h
  rcases bind_eq_miss_iff.mp hrest with hmiss | ⟨_, t, hletters, hmiss⟩
  · exact .inl (literal_eq_miss hmiss)
  · obtain ⟨rfl, hc⟩ := unlessNext_eq_miss hmiss
    exact .inr ⟨literal_eq_ok_iff.mp hletters, hc⟩

/-- Tokens of plain characters settle. -/
theorem token_settles {text : String} (htext : text.toList.all isPlain) : Settles (token text) where
  toWalks := .of_neverFails (token_neverFails text) fun h => .of_symbol htext (token_eq_ok_iff.mp h)
  miss {s r} h := by
    obtain rfl := token_eq_miss h
    exact ⟨.of_skip s, skip_skip s⟩

/-- Names settle. -/
theorem identifier_settles : Settles identifier where
  toWalks := .of_neverFails identifier_neverFails fun h => .of_name (identifier_eq_ok_iff.mp h)
  miss {s r} h := by
    obtain rfl := identifier_eq_miss h
    exact ⟨.of_skip s, skip_skip s⟩

/-- Keywords walk. They do not settle, since they may miss inside a word. -/
theorem keyword_walks (k : Keyword) : Walks (keyword k) :=
  .of_neverFails (keyword_neverFails k) fun h => .of_keyword (keyword_eq_ok_iff.mp h)

/-- An integer fails for its value only. -/
theorem integer_ne_unexpected (s r : List Char) : integer s ≠ .fail .unexpected r := by
  intro h
  have hnumeral : numeral (skip s) = .fail .unexpected r := h
  simp only [numeral] at hnumeral
  split at hnumeral
  · cases hnumeral
  · split at hnumeral <;> cases hnumeral

/-- Integers walk, since they never fail for an unexpected text. -/
theorem integer_walks : Walks integer where
  ok h := .of_number (integer_eq_ok_iff.mp h)
  fail h := absurd h (integer_ne_unexpected _ _)

/-- The sign of an assignment misses at a second equals sign, if not before the first one. -/
theorem assignSign_settles : Settles assignSign := by
  have hequals : "=".toList.all isPlain := by decide
  refine ⟨.of_neverFails assignSign_neverFails fun h => ?_, fun {s r} h => ?_⟩
  · exact .of_symbol hequals (assignSign_eq_ok_iff.mp h).1
  · rcases bind_eq_miss_iff.mp h with hmiss | ⟨_, t, hs, hmiss⟩
    · exact (token_settles hequals).miss hmiss
    · obtain ⟨rfl, c, hc, hequal⟩ := unlessNext_eq_miss hmiss
      obtain ⟨u, rfl⟩ := List.head?_eq_some_iff.mp hc
      obtain rfl : c = '=' := beq_iff_eq.mp hequal
      exact ⟨.of_symbol hequals (token_eq_ok_iff.mp hs), skip_cons_of_not_layout rfl (by decide) u⟩

/-- A parser of operands settles, and misses where no operand can start. -/
structure SettlesOperand (p : Parser Expr) : Prop extends Settles p where
  elsewhere : ∀ {s : List Char}, (∀ c ∈ first s, startsOperand c = false) → ∃ t, p s = .miss t

/-- An operator and its operand. A slash is known to be the sign of a division by the operand. -/
theorem linkOf_walks (ops : List Operator) {operand : Parser Expr} (h : SettlesOperand operand) :
    Walks (linkOf ops operand) := by
  have hoperator : ∀ {s t : List Char} {op : Operator}, operatorAmong ops s = .ok op t →
      (∀ u, operand t ≠ .miss u) → Clean s t := by
    intro s t op hop hmiss
    obtain ⟨-, hsymbol⟩ := operatorAmong_eq_ok hop
    have hsymbolchars : op = .divide ∨ op.symbol.toList.all isPlain := by
      cases op <;> decide
    rcases hsymbolchars with rfl | hplain
    · -- a second slash would start no operand
      obtain ⟨c, hc, hslash⟩ : ∃ c, first t = some c ∧ c ≠ '/' := by
        by_contra hno
        push Not at hno
        obtain ⟨u, hu⟩ := h.elsewhere fun c hc => hno c hc ▸ by decide
        exact hmiss u hu
      have hskip : skip s = '/' :: t := afterLayout_iff.mp hsymbol
      have hclean := Clean.of_skip s
      rw [hskip] at hclean
      exact hclean.trans (.of_slash (ne_slash_of_slash hskip hc hslash))
    · exact .of_symbol hplain hsymbol
  constructor
  · intro s r link hok
    obtain ⟨op, t, hop, hrest⟩ := bind_eq_ok_iff.mp hok
    obtain ⟨e, u, he, hpure⟩ := bind_eq_ok_iff.mp hrest
    obtain ⟨-, rfl⟩ := pure_eq_ok_iff.mp hpure
    exact (hoperator hop fun u hu => by rw [he] at hu; cases hu).trans (h.ok he)
  · intro s r hfail
    rcases bind_eq_fail_iff.mp hfail with hfail | ⟨op, t, hop, hfail⟩
    · exact absurd hfail (operatorAmong_neverFails _ _ _ _)
    rcases bind_eq_fail_iff.mp hfail with hfail | ⟨e, u, -, hfail⟩
    · exact .of_clean (hoperator hop fun v hv => by rw [hfail] at hv; cases hv) (h.fail hfail)
    · cases hfail

/-! ### Lists and chains -/

/-- Lists settle. They never miss, since they may be empty. -/
theorem separated_settles {item : Parser α} (h : Walks item) :
    Settles (separated item (token ",")) := by
  have comma : Settles (token ",") := token_settles (by decide)
  have more : Walks (moreOf item) := comma.toWalks.bind fun _ => h
  rw [separated_comma]
  exact .orElse (h.bind fun a => (Settles.many more).toWalks.bind fun as => .pure (a :: as)) (.pure [])

/-- A chain starts with an operand, so that it misses where no operand can start. -/
theorem SettlesOperand.chainOf {operand : Parser Expr} (h : SettlesOperand operand)
    (ops : List Operator) : SettlesOperand (chainOf ops operand) where
  toSettles := h.toSettles.bind fun _ => (Settles.many (linkOf_walks ops h)).bind fun _ => .pure _
  elsewhere hs := by
    obtain ⟨t, ht⟩ := h.elsewhere hs
    exact ⟨t, bind_miss ht⟩

/-! ### Constructs over the parser of nested expressions -/

section nested

variable {expr : Parser Expr} (h : Settles expr)

include h

/-- Blocks settle: behind the brace that opens them they fail where they would miss. -/
theorem blockOf_settles : Settles (blockOf expr) := by
  have item : Settles (itemOf expr) :=
    h.bind fun e => (Settles.optional (token_settles (by decide)).toWalks).bind fun _ => .pure e
  exact (token_settles (by decide)).bind fun _ => .committed <|
    (Settles.many item.toWalks).bind fun body => (token_settles (by decide)).bind fun _ => .pure body

/-- Prints walk, and so may miss inside a word that starts like their keyword. -/
theorem printOf_walks : Walks (printOf expr) :=
  (keyword_walks .print).bind fun _ => Settles.toWalks <| .committed <|
    (token_settles (by decide)).bind fun _ => h.bind fun _ =>
      (token_settles (by decide)).bind fun _ => .pure _

/-- Calls walk. They miss behind the name where no parenthesis opens. -/
theorem callOf_walks : Walks (callOf expr) := by
  have hopen : Walks (literal ['(']) := .of_neverFails (literal_neverFails _) fun hok => by
    obtain rfl := literal_eq_ok_iff.mp hok
    exact .of_plain (forall_mem_of_all (by decide)) _
  exact identifier_settles.toWalks.bind fun _ => hopen.bind fun _ => Settles.toWalks <| .committed <|
    (separated_settles h.toWalks).bind fun _ => (token_settles (by decide)).bind fun _ => .pure _

/-- Parentheses settle like blocks. -/
theorem parenthesizedOf_settles : Settles (parenthesizedOf expr) :=
  (token_settles (by decide)).bind fun _ => .committed <| h.bind fun e =>
    (token_settles (by decide)).bind fun _ => .pure e

/-- A primary expression may be a name at last, which settles. -/
theorem primaryOf_settles : SettlesOperand (primaryOf expr) where
  toSettles := .orElse (parenthesizedOf_settles h).toWalks <| .orElse (printOf_walks h) <|
    .orElse (callOf_walks h) <| .orElse (integer_walks.map _) (identifier_settles.map _)
  elsewhere := primaryOf_miss expr

/-- Comparisons settle, as chains over chains of primary expressions. -/
theorem comparisonOf_settles : Settles (comparisonOf expr) :=
  (((primaryOf_settles h).chainOf _).chainOf _).chainOf _ |>.toSettles

/-- Without a conditional after `else`, its keyword has missed, or the expression there. -/
theorem elseIfOf_eq_miss {s r : List Char} (hmiss : elseIfOf expr s = .miss r) :
    (Clean s r ∧ skip r = r) ∨ skip s = "if".toList ++ r ∧ ∃ c ∈ r.head?, isNameChar c := by
  rcases bind_eq_miss_iff.mp hmiss with hmiss | ⟨_, t, hahead, hmiss⟩
  · rcases keyword_eq_miss (ahead_eq_miss_iff.mp hmiss) with rfl | hif
    · exact .inl ⟨.of_skip s, skip_skip s⟩
    · exact .inr hif
  · obtain ⟨rfl, -⟩ := ahead_eq_ok_iff.mp hahead
    exact .inl ((h.map fun e => [e]).miss hmiss)

/-- After `else`, a conditional is the last alternative: the second branch is refused where its keyword
misses. -/
theorem otherwiseOf_walks : Walks (otherwiseOf expr) := by
  have block := blockOf_settles h
  have elseIf : Walks (elseIfOf expr) :=
    (keyword_walks .conditional).ahead.bind fun _ => h.toWalks.bind fun _ => .pure _
  have branch := block.toWalks.orElse elseIf
  constructor
  · intro s r b hok
    obtain ⟨_, t, hword, hrest⟩ := bind_eq_ok_iff.mp hok
    exact ((keyword_walks .otherwise).ok hword).trans (branch.ok (committed_eq_ok_iff.mp hrest))
  · intro s r hfail
    rcases bind_eq_fail_iff.mp hfail with hfail | ⟨_, t, hs, hfail⟩
    · exact absurd hfail (keyword_neverFails _ _ _ _)
    have hword := keyword_eq_ok_iff.mp hs
    rcases refuses_of_committed hfail with hmiss | hfail
    · rcases elseIfOf_eq_miss h (orElse_eq_miss_iff.mp hmiss).2 with ⟨hr, hskip⟩ | hif
      · exact .of_clean (.of_keyword hword) (.settled hr hskip)
      · have helse := (Clean.of_skip s).scanned
        rw [afterLayout_iff.mp hword.1] at helse
        exact .behindIf ⟨t, helse, hword.2, hif⟩
    · exact .of_clean (.of_keyword hword) (branch.fail hfail)

/-- Conditionals walk, with a second branch or without one. -/
theorem conditionalOf_walks : Walks (conditionalOf expr) := by
  refine (keyword_walks .conditional).bind fun _ => Settles.toWalks <| .committed ?_
  refine (comparisonOf_settles h).bind fun _ => (blockOf_settles h).bind fun _ => ?_
  refine (Settles.optional (otherwiseOf_walks h)).bind fun otherwise => ?_
  cases otherwise <;> exact .pure _

/-- Loops walk. -/
theorem loopOf_walks : Walks (loopOf expr) :=
  (keyword_walks .loop).bind fun _ => Settles.toWalks <| .committed <|
    (comparisonOf_settles h).bind fun _ => (blockOf_settles h).bind fun _ => .pure _

/-- Assignments walk. They miss behind the name where no equals sign follows. -/
theorem assignmentOf_walks : Walks (assignmentOf expr) :=
  identifier_settles.toWalks.bind fun _ => assignSign_settles.toWalks.bind fun _ =>
    h.toWalks.bind fun _ => .pure _

/-- An expression may be a comparison at last, which settles. -/
theorem expressionOf_settles : Settles (expressionOf expr) :=
  .orElse (conditionalOf_walks h) <| .orElse (loopOf_walks h) <|
    .orElse ((blockOf_settles h).map _).toWalks <| .orElse (assignmentOf_walks h)
      (comparisonOf_settles h)

end nested

/-! ### Expressions, definitions and programs -/

/-- Expressions settle to whatever depth they are followed. -/
theorem expressionWithin_settles : (depth : Nat) → Settles (expressionWithin depth)
  | 0 => ⟨.failing (by decide), nofun⟩
  | depth + 1 => expressionOf_settles (expressionWithin_settles depth)

/-- Expressions settle, as each text bounds the depth to which they are followed. -/
theorem expression_settles : Settles expression where
  ok := (expressionWithin_settles _).ok
  fail := (expressionWithin_settles _).fail
  miss := (expressionWithin_settles _).miss

/-- Layout is clean and is always there, at least with no characters. -/
theorem layout_settles : Settles layout where
  toWalks := .of_neverFails layout_neverFails fun {s r _} h => by
    obtain rfl : skip s = r := (Reply.ok.inj h).2
    exact .of_skip s
  miss := nofun

/-- What reads an expression as a whole text. -/
theorem expressionAndLayout_settles : Settles (do let e ← expression; layout; return e) :=
  expression_settles.bind fun e => layout_settles.bind fun _ => .pure e

/-- Lists of parameters settle. -/
theorem parameters_settles : Settles parameters :=
  (token_settles (by decide)).bind fun _ =>
    (separated_settles identifier_settles.toWalks).bind fun names =>
      (token_settles (by decide)).bind fun _ => .pure names

/-- Function definitions walk. -/
theorem function_walks : Walks function :=
  (keyword_walks .function).bind fun _ => Settles.toWalks <| .committed <|
    identifier_settles.bind fun _ => parameters_settles.bind fun _ =>
      (blockOf_settles expression_settles).bind fun _ => .pure _

/-- Definitions of global variables walk. -/
theorem global_walks : Walks global :=
  (keyword_walks .global).bind fun _ => Settles.toWalks <| .committed <|
    identifier_settles.bind fun _ => assignSign_settles.bind fun _ =>
      expression_settles.bind fun _ => .pure _

/-- Definitions walk. They miss inside a word that starts like one of their keywords. -/
theorem definition_walks : Walks definition :=
  function_walks.orElse global_walks

/-- Programs settle: they never miss, since they may have no definitions. -/
theorem program_settles : Settles program :=
  (Settles.many definition_walks).bind fun _ => layout_settles.bind fun _ => .pure _

end Parser

end Scriptlet
