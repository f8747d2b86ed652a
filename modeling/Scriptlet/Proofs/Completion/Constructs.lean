import Scriptlet.Proofs.Completion.Rules
import Scriptlet.Proofs.Parser.Recursion

/-!
# Constructs that only have to go on

Where an expression, a definition or a part of one gives up at the end of its text, something can be put
there: the operand or the name that is missing, a comparison and a block, the closing brace or
parenthesis. What was open before is closed after it.

* `expression_open`: an expression that gives up at the end can be completed, by induction on its length.
* `definition_openFail`, `program_open`: so can definitions and programs.
-/

namespace Scriptlet

open Scriptlet.Text
open Scriptlet.Grammar

namespace Parser

variable {α : Type} {n : Nat} {w : List Char}

/-! ### The shortest constructs -/

/-- A digit is an operand, before what neither goes on with it nor is read on. -/
theorem primary_one (hw : Apart w) : primary ('1' :: w) = .ok (.int 1) w := by
  have hend : EndsDigits w := hw.endsDigits (z := []) (w := []) nofun
  have hdigits : Digits ('1' :: w) w ['1'] :=
    ⟨rfl, List.cons_ne_nil _ _, forall_mem_of_all (by decide), hend⟩
  have hone : Number ('1' :: w) w 1 :=
    .plain (afterLayout_cons (by decide) (by decide) w) hdigits rfl
  rw [primary_of_number hone.first]
  exact orElse_ok (map_eq_ok_iff.mpr ⟨1, integer_eq_ok_iff.mpr hone, rfl⟩)

/-- A digit is a comparison, before what an expression stops at. -/
theorem comparison_one (hw : Detached w) : comparison ('1' :: w) = .ok (.int 1) w :=
  comparison_single (primary_one hw.apart) hw.stops

/-- A digit is an expression, before what an expression stops at. -/
theorem expression_one (hw : Detached w) : expression ('1' :: w) = .ok (.int 1) w :=
  expression_of_comparison_ok (comparison_one hw) hw.stops

/-- A token of one character in a line of its own. -/
theorem token_line {text : String} {c : Char} (ht : text.toList = [c]) (hspace : isSpace c = false)
    (hslash : c ≠ '/') (w : List Char) : token text ('\n' :: c :: w) = .ok () w := by
  refine token_eq_ok_iff.mpr ?_
  unfold Grammar.Symbol
  rw [ht]
  exact afterLayout_newline (afterLayout_cons hspace hslash w)

/-- A closing parenthesis in a line of its own. -/
theorem parenthesis_line (w : List Char) : token ")" ('\n' :: ')' :: w) = .ok () w :=
  token_line rfl (by decide) (by decide) w

/-- An empty block in a line of its own. -/
theorem block_line (w : List Char) : block ('\n' :: '\x7b' :: '\x7d' :: w) = .ok [] w := by
  have hfirst : first ('\x7d' :: w) = some '\x7d' := first_cons_of_not_layout (by decide) (by decide) w
  obtain ⟨t, ht⟩ := expression_miss_of_first hfirst (by decide)
  have hclose : token "\x7d" ('\x7d' :: w) = .ok () w := token_cons rfl (by decide) (by decide) w
  have hempty : many (itemOf expression) ('\x7d' :: w) = .ok [] ('\x7d' :: w) :=
    many_miss (bind_miss ht)
  exact (bind_ok (token_line rfl (by decide) (by decide) _)).trans
    (committed_ok ((bind_ok hempty).trans (bind_ok hclose)))

/-- No items before a closing parenthesis in a line of its own. -/
theorem separated_line {item : Parser α} (hmiss : ∀ u, first u = some ')' → ∃ t, item u = .miss t)
    (w : List Char) : separated item (token ",") ('\n' :: ')' :: w) = .ok [] ('\n' :: ')' :: w) := by
  have hafter := afterLayout_newline (afterLayout_cons (by decide : isSpace ')' = false) (by decide) w)
  obtain ⟨t, ht⟩ := hmiss _ (first_of_afterLayout hafter)
  rw [separated_comma]
  exact orElse_miss (bind_miss ht)

/-! ### Up to a closing character -/

/-- The texts of which the next character closes a construct. -/
structure ClosedBy (c : Char) (w : List Char) : Prop extends Detached w where
  first : first w = some c

/-- A closing character in a line of its own is such a text. -/
theorem closedBy_line {c : Char} (hc : c ∈ closers) (w : List Char) : ClosedBy c ('\n' :: c :: w) where
  toDetached := detached_closer hc w
  first := by
    obtain ⟨hspace, hslash⟩ := not_layout_of_closer hc
    exact first_of_afterLayout (afterLayout_newline (afterLayout_cons hspace hslash w))

/-- What can be completed up to a closing character can be completed with this character. -/
theorem Open.closed {p : Parser α} {β : Type} {Q : List Char → List Char → Prop} {text : String}
    {c : Char} (hp : Open n (ClosedBy c) p) (ht : text.toList = [c]) (hc : c ∈ closers)
    (before : ∀ {w}, Apart w → LocalBelow [] w n (Q w) p)
    (hover : ∀ {w z t}, Grammar.Symbol text (z ++ w) t → Q w z) (g : α → β) :
    Open n Anywhere (p >>= fun a => token text >>= fun _ => Pure.pure (g a)) := by
  obtain ⟨hspace, hslash⟩ := not_layout_of_closer hc
  have close : Open n Anywhere (token text) := token_open ht hspace hslash
  refine hp.bind (fun a => close.bind_pure fun _ => g a) ⟨['\n', c], fun w _ => ?_⟩ before
    fun _ h => ?_
  · exact ⟨closedBy_line hc w, fun a => ⟨g a, bind_ok (token_line ht hspace hslash w)⟩⟩
  · obtain ⟨_, t, hclose, -⟩ := bind_eq_ok_iff.mp h
    exact hover (token_eq_ok_iff.mp hclose)

/-! ### Constructs over expressions -/

section nested

variable (ih : Open n Detached expression)

include ih

/-- An expression and a closing parenthesis after it. -/
theorem closed_open (g : Expr → Expr) :
    Open n Anywhere (expression >>= fun e => token ")" >>= fun _ => pure (g e)) :=
  (ih.mono ClosedBy.toDetached).closed (c := ')') rfl (by decide) (fun hw => expression_local hw n)
    (fun h => over_of_first (c := ')') (h.first rfl) (by decide)) g

/-- Parentheses can be completed, having read the one that opens them. -/
theorem parenthesized_openFail : OpenFail (n + 1) Anywhere (parenthesizedOf expression) :=
  .bind_succ (token_neverFails "(") (token_advances (by decide))
    (fun _ => (closed_open ih id).committed.openFail) fun _ => token_local rfl (by decide)

/-- Prints can be completed: by an operand in parentheses, if nothing of it is there. -/
theorem print_openFail : OpenFail (n + 1) Anywhere print := by
  have opening : Open n Anywhere (token "(") := token_open rfl (by decide) (by decide)
  refine .bind_succ (keyword_neverFails .print) (keyword_advances .print)
    (fun _ => Open.openFail (.committed ?_)) fun hw => keyword_local hw .print
  refine opening.bind_anywhere (fun _ => closed_open ih Expr.print)
    ⟨"1\n)".toList, fun w _ => ⟨trivial, fun _ => ?_⟩⟩ fun _ => token_local rfl (by decide)
  exact ⟨.print (.int 1), (bind_ok (expression_one (detached_closer (by decide) w))).trans
    (bind_ok (parenthesis_line w))⟩

omit ih in
/-- Items with commas between them can be completed up to a closing parenthesis. -/
theorem separated_open {item : Parser α} {Q : List Char → List Char → Prop}
    (hi : Open n Detached item) (ha : Advances item)
    (before : ∀ {w}, Apart w → LocalBelow [] w n (Q w) item)
    (hover : ∀ {w z}, first (z ++ w) = some ')' ∨ first (z ++ w) = some ',' → Q w z) :
    Open n (ClosedBy ')') (separated item (token ",")) := by
  have more : Repeats n (ClosedBy ')') Q (moreOf item) := {
    advances := moreOf_advances ha.trims
    openFail := (OpenFail.bind_succ (token_neverFails ",") (token_advances (by decide))
      (fun _ => hi.openFail.mono ClosedBy.toDetached)
      fun _ => token_local rfl (by decide)).of_le (Nat.le_succ n)
    before := fun hw => (token_local rfl (by decide)).bind fun _ => before hw
    overBefore := fun _ _ h => by
      obtain ⟨_, t, hcomma, -⟩ := bind_eq_ok_iff.mp h
      exact hover (.inr ((token_eq_ok_iff.mp hcomma).first rfl))
    ends := fun hw => by
      obtain ⟨t, ht⟩ := token_miss "," rfl (by rw [hw.first]; decide)
      exact ⟨t, bind_miss ht⟩ }
  have items := more.open_after (hi.mono ClosedBy.toDetached) before List.cons
  intro s hs hr
  rw [separated_comma] at hr ⊢
  rcases hr with hmiss | hfail
  · cases (orElse_eq_miss_iff.mp hmiss).2
  · rcases orElse_eq_fail_iff.mp hfail with hfail | ⟨-, hpure⟩
    · exact (items s hs (.inr hfail)).of_ok fun hok => ⟨_, orElse_ok hok⟩
    · cases hpure

omit ih in
/-- Items with commas between them can be completed with the parenthesis after them. -/
theorem list_open {item : Parser α} {β : Type} {Q : List Char → List Char → Prop}
    (hi : Open n Detached item) (ha : Advances item)
    (before : ∀ {w}, Apart w → LocalBelow [] w n (Q w) item)
    (hmiss : ∀ u, first u = some ')' → ∃ t, item u = .miss t)
    (hover : ∀ {w z}, first (z ++ w) = some ')' ∨ first (z ++ w) = some ',' → Q w z)
    (g : List α → β) :
    Open n Anywhere (separated item (token ",") >>= fun as => token ")" >>= fun _ => pure (g as)) :=
  (separated_open hi ha before hover).closed rfl (by decide)
    (fun hw => (before hw).separated ha hmiss fun z => hover) (fun h => h.first rfl) g

/-- Calls can be completed, behind their opening parenthesis. -/
theorem call_openFail : OpenFail (n + 1) Anywhere call := by
  refine .bind_succ identifier_neverFails identifier_advances (fun f => ?_) fun hw =>
    identifier_local hw
  refine OpenFail.of_le (.bind_succ (literal_neverFails ['(']) (literal_advances (by decide))
    (fun _ => Open.openFail (.committed ?_)) fun _ => literal_local ['(']) (Nat.le_succ n)
  exact list_open ih expression_advances (fun hw => expression_local hw n)
    (fun _ hu => expression_miss_of_first hu (by decide))
    (fun h => h.elim (over_of_first · (by decide)) (over_of_first · (by decide))) (Expr.call f)

omit ih in
/-- An expression that does not miss starts with a character that starts expressions. -/
theorem exists_start_of_ne_miss {s : List Char} (h : ∀ t, expression s ≠ .miss t) :
    ∃ c u, skip s = c :: u ∧ startsExpression c := by
  by_contra hno
  push Not at hno
  obtain ⟨t, ht⟩ := expression_miss (s := s) fun c hc => by
    obtain ⟨u, hu⟩ := List.head?_eq_some_iff.mp hc
    simpa using hno c u hu
  exact h t ht

omit ih in
/-- Before an expression which did not miss, and which is read with something after it, an expression is
over: a minus sign at its start has its digits before what comes after. -/
theorem resumes_of_ne_miss {y r : List Char} {e : Expr} (hw : Apart w)
    (hne : ∀ t, expression y ≠ .miss t) (h : expression (y ++ w) = .ok e r) : Resumes [] w y := by
  obtain ⟨c, u, hskip, hstart⟩ := exists_start_of_ne_miss hne
  have hskip : skip (y ++ []) = c :: (u ++ []) := by simpa using hskip
  refine resumes_of_start hskip hstart (fun heq => ?_) h
  subst heq
  obtain ⟨d, v, hd, huw⟩ :=
    digit_of_expression h (skip_replace (opensComment_of_ne (by decide) _) hskip)
  cases u with
  | nil =>
    have hspace := hw d (by rw [← List.nil_append w, huw]; rfl)
    rw [(not_layout_of_isDigit hd).1] at hspace
    cases hspace
  | cons c u =>
    obtain ⟨rfl, -⟩ := List.cons.inj huw
    exact ⟨c, u, hd, List.append_nil _⟩

/-- The expressions of a block can be completed up to the closing brace. -/
theorem items_repeat : Repeats n (ClosedBy '\x7d') (Resumes []) (itemOf expression) where
  advances := itemOf_advances expression_advances
  openFail := by
    have total : ∀ (e : Expr) s, ∃ b r,
        (optional (token ";") >>= fun _ => pure e : Parser Expr) s = .ok b r := by
      intro e s
      cases h : token ";" s with
      | ok a t => exact ⟨e, t, bind_ok (optional_ok h)⟩
      | miss t => exact ⟨e, s, bind_ok (optional_miss h)⟩
      | fail fault t => exact absurd h (token_neverFails _ _ _ _)
    have items := (ih.mono ClosedBy.toDetached).bind_total total
      ⟨[], fun (w : List Char) (hw : ClosedBy '\x7d' w) => ⟨hw, fun e => by
        obtain ⟨t, ht⟩ := token_miss ";" rfl (by rw [hw.first]; decide)
        exact ⟨e, bind_ok (optional_miss ht)⟩⟩⟩
    exact items.openFail
  before hw := item_local (expression_local hw n)
  overBefore hw hne h := by
    obtain ⟨f, t, hf, -⟩ := bind_eq_ok_iff.mp h
    exact resumes_of_ne_miss hw (fun t ht => hne t (bind_miss ht)) hf
  ends hw := by
    obtain ⟨t, ht⟩ := expression_miss_of_first hw.first (by decide)
    exact ⟨t, bind_miss ht⟩

/-- A block can be completed: by an empty one, if its opening brace is missing. -/
theorem block_open : Open (n + 1) Anywhere block := by
  have body : Open n Anywhere
      (many (itemOf expression) >>= fun body => token "\x7d" >>= fun _ => pure body) :=
    (items_repeat ih).open_many.closed rfl (by decide)
      (fun hw => items_local (expression_local hw n)) (fun h => ⟨_, h⟩) id
  have fails : OpenFail (n + 1) Anywhere block :=
    .bind_succ (token_neverFails _) (token_advances (by decide)) (fun _ => body.committed.openFail)
      fun _ => token_local rfl (by decide)
  refine fails.open_of_start ((layout_bind_ignoresLayout _).bind _) (fun h => ?_)
    ⟨"\n\x7b\x7d".toList, fun w _ => ⟨[], block_line w⟩⟩
  rcases bind_eq_miss_iff.mp h with hmiss | ⟨_, t, -, hmiss⟩
  · exact token_eq_miss hmiss
  · exact absurd hmiss (committed_ne_miss _ _ _)

/-! ### Operands and operators -/

omit ih in
/-- A primary expression misses after layout, where its last alternative does. -/
theorem primary_eq_miss {s r : List Char} (h : primary s = .miss r) : skip s = r := by
  have hname := (orElse_eq_miss_iff.mp h).2
  iterate 3 replace hname := (orElse_eq_miss_iff.mp hname).2
  exact identifier_eq_miss (map_eq_miss_iff.mp hname)

omit ih in
/-- A chain misses where its first operand does. -/
theorem chainOf_eq_miss {ops : List Operator} {operand : Parser Expr} {s r : List Char}
    (h : chainOf ops operand s = .miss r) : operand s = .miss r := by
  rcases bind_eq_miss_iff.mp h with hmiss | ⟨e, t, -, hmiss⟩
  · exact hmiss
  · rcases bind_eq_miss_iff.mp hmiss with hmiss | ⟨links, u, -, hmiss⟩
    · exact absurd hmiss (manyWithin_ne_miss _ _ _ _)
    · cases hmiss

/-- An operand fails at the end in parentheses, in a print or in a call. -/
theorem primary_open : Open (n + 1) Detached primary := by
  have fails : OpenFail (n + 1) Anywhere primary := by
    intro s hs hfail
    rcases orElse_eq_fail_iff.mp hfail with hfail | ⟨-, hfail⟩
    · exact (parenthesized_openFail ih s hs hfail).of_ok fun h => ⟨_, primary_of_parenthesized_ok h⟩
    rcases orElse_eq_fail_iff.mp hfail with hfail | ⟨-, hfail⟩
    · exact (print_openFail ih s hs hfail).of_ok fun h => ⟨_, primary_of_print_ok h⟩
    rcases orElse_eq_fail_iff.mp hfail with hfail | ⟨-, hfail⟩
    · exact (call_openFail ih s hs hfail).of_ok fun h => ⟨_, primary_of_call_ok h⟩
    rcases orElse_eq_fail_iff.mp hfail with hfail | ⟨-, hfail⟩
    · exact absurd (map_eq_fail_iff.mp hfail) (integer_ne_unexpected _ _)
    · exact absurd (map_eq_fail_iff.mp hfail) (identifier_neverFails _ _ _)
  exact (fails.mono fun _ => trivial).open_of_start (primaryOf_ignoresLayout expression)
    primary_eq_miss ⟨"1".toList, fun w hw => ⟨.int 1, primary_one hw.apart⟩⟩

omit ih in
/-- Operators with their operands can be completed, if the operands can. -/
theorem links_repeat {level : Nat} {operand : Parser Expr} (hl : level < 3) (ho : OperandLike operand)
    (hs : SettlesOperand operand) (hp : Open n Detached operand)
    (before : ∀ {w}, Apart w → LocalBelow [] w n (OverAt [] w (level + 1)) operand) :
    Repeats n Detached (fun w => OverAt [] w (level + 1)) (linkOf (operatorsAt level) operand) where
  advances := linkOf_advances _ ho.advances.trims
  openFail := by
    intro s hlen hfail
    rcases bind_eq_fail_iff.mp hfail with hfail | ⟨op, t, hop, hfail⟩
    · exact absurd hfail (operatorAmong_neverFails _ _ _ _)
    rcases bind_eq_fail_iff.mp hfail with hfail | ⟨e, u, -, hpure⟩
    · have hlt := (operatorAmong_advances _).shorter hop
      -- otherwise the operand would miss and not fail
      obtain ⟨c, hc, hstart⟩ : ∃ c, first t = some c ∧ startsOperand c := by
        by_contra hno
        push Not at hno
        obtain ⟨u, hu⟩ := hs.elsewhere fun c hc => by simpa using hno c hc
        rw [hfail] at hu
        cases hu
      have hright : Completable Detached (operand >>= fun e => pure (op, e)) t :=
        (hp t (by omega) (.inr hfail)).bind (Ended.pure fun e => (op, e))
      refine Completable.bind_of_ok (f := fun op => operand >>= fun e => pure (op, e)) hright
        fun hw _ => ?_
      exact operatorAmong_keeps (w := []) hw hl (by simpa using hop) (by simpa using hc) hstart
    · cases hpure
  before hw := linkOf_local hw hl ho (before hw)
  overBefore _ _ h := overAt_of_link hl h
  ends hw := by
    obtain ⟨t, ht⟩ := operatorAmong_miss fun op hop t =>
      no_operator_of_stops hw.stops op t
    exact ⟨t, bind_miss ht⟩

omit ih in
/-- A chain can be completed by the operand that is missing. -/
theorem chain_open {level : Nat} {operand : Parser Expr} (hl : level < 3) (ho : OperandLike operand)
    (hs : SettlesOperand operand) (hp : Open n Detached operand)
    (before : ∀ {w}, Apart w → LocalBelow [] w n (OverAt [] w (level + 1)) operand) :
    Open n Detached (chainOf (operatorsAt level) operand) :=
  (links_repeat hl ho hs hp before).open_after hp before chained

/-- A comparison can be completed, as three levels of chains. -/
theorem comparison_open : Open (n + 1) Detached comparison := by
  have primary : ∀ {w Q}, Apart w → LocalBelow [] w (n + 1) Q primary :=
    fun hw => primary_local (expression_local hw n) hw
  have hproduct := primary_operandLike.chainOf (operatorsAt 2)
  have hsum := hproduct.chainOf (operatorsAt 1)
  have settles := primaryOf_settles expression_settles
  have product := chain_open (by decide : 2 < 3) primary_operandLike settles (primary_open ih) primary
  have sum := chain_open (by decide : 1 < 3) hproduct (settles.chainOf _) product
    fun hw => chainOf_local hw (by decide) primary_operandLike (primary hw)
  exact chain_open (by decide : 0 < 3) hsum ((settles.chainOf _).chainOf _) sum
    fun hw => chainOf_local hw (by decide) hproduct
      (chainOf_local hw (by decide) primary_operandLike (primary hw))

/-! ### Conditionals, loops and assignments -/

/-- A condition and a block can be completed, and then what is left of the construct. -/
theorem condition_and_block_open {k : Expr → Block → Parser α} (hk : ∀ c b, Open n Detached (k c b))
    (hend : ∀ {w}, Detached w → ∀ c b, ∃ a, k c b w = .ok a w) :
    Open n Detached (comparison >>= fun c => block >>= fun b => k c b) := by
  have body : ∀ c, Open n Detached (block >>= fun b => k c b) := fun c =>
    ((block_open ih).of_le (Nat.le_succ n)).bind_anywhere (hk c)
      ⟨[], fun w hw => ⟨trivial, fun b => hend hw c b⟩⟩
      fun hw => (block_local (expression_local hw n)).mono (Nat.le_succ n)
  refine ((comparison_open ih).of_le (Nat.le_succ n)).bind body
    ⟨"\n\x7b\x7d".toList, fun w hw => ⟨detached_closer (by decide) _, fun c => ?_⟩⟩
    (fun hw => (comparison_local (expression_local hw n) hw).mono (Nat.le_succ n)) fun _ h => ?_
  · obtain ⟨a, ha⟩ := hend hw c []
    exact ⟨a, (bind_ok (block_line w)).trans ha⟩
  · obtain ⟨b, t, hb, -⟩ := bind_eq_ok_iff.mp h
    obtain ⟨u, hopen⟩ := (block_sound hb).exists_brace
    exact (over_of_first (hopen.first rfl) (by decide)).overAt 0

/-- A loop can be completed, having read its keyword. -/
theorem loop_openFail : OpenFail (n + 1) Detached loop := by
  have rest := condition_and_block_open ih (k := fun c b => pure (Expr.whileDo c b))
    (fun c b => .pure _) fun _ c b => ⟨_, rfl⟩
  exact .bind_succ (keyword_neverFails .loop) (keyword_advances .loop)
    (fun _ => rest.committed.openFail) fun hw => keyword_local hw .loop

/-- An assignment can be completed, by an expression. -/
theorem assignment_openFail : OpenFail (n + 1) Detached assignment := by
  have value : ∀ x, OpenFail n Detached (expression >>= fun e => pure (Expr.assign x e)) :=
    fun x => (ih.bind_pure (Expr.assign x)).openFail
  refine .bind_succ identifier_neverFails identifier_advances (fun x => ?_) fun hw =>
    identifier_local hw
  exact OpenFail.of_le (.bind_succ assignSign_neverFails assignSign_advances (fun _ => value x)
    fun hw => assignSign_local hw) (Nat.le_succ n)

section conditionals

variable (ihc : OpenFail n Detached conditional)

include ihc

/-- The second branch of a conditional is a block, or a conditional that fails at the end, or is
missing. -/
theorem branch_open :
    Open n Detached (blockOf expression <|> elseIfOf expression : Parser Block) := by
  have fails : OpenFail n Detached (blockOf expression <|> elseIfOf expression : Parser Block) := by
    intro s hs hfail
    rcases orElse_eq_fail_iff.mp hfail with hfail | ⟨-, hfail⟩
    · have hblock := block_open ih s (Nat.lt_succ_of_lt hs) (.inr hfail)
      exact (hblock.of_ok fun hok => ⟨_, orElse_ok hok⟩).mono fun _ => trivial
    · rw [elseIfOf_eq] at hfail
      exact (ihc s hs (map_eq_fail_iff.mp hfail)).of_ok fun hok => ⟨_, branch_of_conditional_ok hok⟩
  have hlayout : IgnoresLayout (blockOf expression <|> elseIfOf expression : Parser Block) := by
    have block : IgnoresLayout block := (layout_bind_ignoresLayout _).bind _
    have conditional : IgnoresLayout conditional := (layout_bind_ignoresLayout _).bind _
    rw [elseIfOf_eq]
    exact block.orElse (conditional.bind _)
  refine fails.open_of_start hlayout (fun {s} hmiss => ?_)
    ⟨"\n\x7b\x7d".toList, fun w _ => ⟨[], orElse_ok (block_line w)⟩⟩
  have hmiss := (orElse_eq_miss_iff.mp hmiss).2
  rw [elseIfOf_eq, map_eq_miss_iff] at hmiss
  rcases bind_eq_miss_iff.mp hmiss with hmiss | ⟨_, t, -, hmiss⟩
  · rcases keyword_eq_miss hmiss with hskip | ⟨-, c, hc, -⟩
    · exact hskip
    · cases hc
  · exact absurd hmiss (committed_ne_miss _ _ _)

/-- A conditional can be completed: it is open in the condition, in the first block and behind
`else`. -/
theorem conditional_openFail : OpenFail (n + 1) Detached conditional := by
  have otherwise : OpenFail n Detached (otherwiseOf expression) :=
    OpenFail.of_le (.bind_succ (keyword_neverFails .otherwise) (keyword_advances .otherwise)
      (fun _ => (branch_open ih ihc).committed.openFail) fun hw => keyword_local hw .otherwise)
      (Nat.le_succ n)
  refine .bind_succ (keyword_neverFails .conditional) (keyword_advances .conditional)
    (fun _ => Open.openFail (.committed (condition_and_block_open ih (fun c b => ?_) ?_)))
    fun hw => keyword_local hw .conditional
  · refine (Open.optional otherwise).bind_total (fun o s => ?_) ⟨[], fun w hw => ⟨hw, fun o => ?_⟩⟩
    · cases o <;> exact ⟨_, _, rfl⟩
    · cases o <;> exact ⟨_, rfl⟩
  · intro w hw c b
    obtain ⟨t, ht⟩ := keyword_bind_miss (fun _ => committed _) hw.stops.2
    exact ⟨.ifThen c b, bind_ok (optional_miss ht)⟩

omit ih ihc in
/-- An expression misses after layout, where its last alternative does. -/
theorem expression_eq_miss {s r : List Char} (h : expression s = .miss r) : skip s = r := by
  rw [expression_eq] at h
  iterate 4 replace h := (orElse_eq_miss_iff.mp h).2
  exact primary_eq_miss (chainOf_eq_miss (chainOf_eq_miss (chainOf_eq_miss h)))

/-- An expression can be completed if expressions and conditionals on shorter texts can. -/
theorem expression_open_succ : Open (n + 1) Detached expression := by
  have fails : OpenFail (n + 1) Detached expression := by
    intro s hs hfail
    rw [expression_eq] at hfail
    rcases orElse_eq_fail_iff.mp hfail with hfail | ⟨-, hfail⟩
    · exact (conditional_openFail ih ihc s hs hfail).of_ok fun hok =>
        ⟨_, expression_of_conditional_ok hok⟩
    rcases orElse_eq_fail_iff.mp hfail with hfail | ⟨-, hfail⟩
    · exact (loop_openFail ih s hs hfail).of_ok fun hok => ⟨_, expression_of_loop_ok hok⟩
    rcases orElse_eq_fail_iff.mp hfail with hfail | ⟨-, hfail⟩
    · have hblock := block_open ih s hs (.inr (map_eq_fail_iff.mp hfail))
      exact (hblock.of_ok fun hok => ⟨_, expression_of_block_ok hok⟩).mono fun _ => trivial
    rcases orElse_eq_fail_iff.mp hfail with hfail | ⟨-, hfail⟩
    · exact (assignment_openFail ih s hs hfail).of_ok fun hok =>
        ⟨_, expression_of_assignment_ok hok⟩
    · obtain ⟨t, ht⟩ := comparison_open ih s hs (.inr hfail)
      refine ⟨t, fun w hw => ?_⟩
      obtain ⟨e, he⟩ := ht w hw
      exact ⟨e, expression_of_comparison_ok he hw.stops⟩
  exact fails.open_of_start expression_ignoresLayout expression_eq_miss
    ⟨"1".toList, fun w hw => ⟨.int 1, expression_one hw⟩⟩

end conditionals

end nested

/-! ### Expressions, definitions and programs -/

/-- Expressions and conditionals can be completed, by one induction on the length of the text, since
a conditional may stand after `else` without being an expression of its own. -/
theorem expression_and_conditional_open (n : Nat) :
    Open n Detached expression ∧ OpenFail n Detached conditional := by
  induction n with
  | zero =>
    exact ⟨fun s hs => absurd hs (Nat.not_lt_zero _), fun s hs => absurd hs (Nat.not_lt_zero _)⟩
  | succ n ih => exact ⟨expression_open_succ ih.1 ih.2, conditional_openFail ih.1 ih.2⟩

/-- An expression that gives up at the end can be completed. -/
theorem expression_open (n : Nat) : Open n Detached expression :=
  (expression_and_conditional_open n).1

/-- No parameter starts with a closing parenthesis. -/
theorem identifier_miss_of_parenthesis (u : List Char) (h : first u = some ')') :
    ∃ t, identifier u = .miss t :=
  identifier_miss_of_first h (by decide)

/-- A list of parameters can be completed, by its parentheses if nothing of it is there. -/
theorem parameters_open (n : Nat) : Open n Anywhere parameters := by
  have opening : Open n Anywhere (token "(") := token_open rfl (by decide) (by decide)
  have names : Open n Anywhere
      (separated identifier (token ",") >>= fun xs => token ")" >>= fun _ => pure xs) :=
    list_open (Q := fun _ => Anywhere) (identifier_open.mono Detached.apart) identifier_advances
      (fun hw => identifier_local hw) identifier_miss_of_parenthesis (fun _ => trivial) id
  refine opening.bind_anywhere (fun _ => names) ⟨"\n)".toList, fun w _ => ⟨trivial, fun _ => ?_⟩⟩
    fun _ => token_local rfl (by decide)
  exact ⟨[], (bind_ok (separated_line identifier_miss_of_parenthesis w)).trans
    (bind_ok (parenthesis_line w))⟩

/-- A function definition can be completed, by what is missing of its name, its parameters and its
body. -/
theorem function_openFail (n : Nat) : OpenFail (n + 1) Anywhere function := by
  have body : ∀ (f : String) (xs : List String),
      Open n Anywhere (block >>= fun b => pure (Definition.function ⟨f, xs, b⟩)) := fun f xs =>
    ((block_open (expression_open n)).of_le (Nat.le_succ n)).bind_pure fun b =>
      Definition.function ⟨f, xs, b⟩
  have rest : ∀ f : String, Open n Anywhere
      (parameters >>= fun xs => block >>= fun b => pure (Definition.function ⟨f, xs, b⟩)) := fun f =>
    (parameters_open n).bind_anywhere (body f)
      ⟨"\n\x7b\x7d".toList, fun w _ => ⟨trivial, fun _ => ⟨_, bind_ok (block_line w)⟩⟩⟩
      fun hw => parameters_local hw
  refine .bind_succ (keyword_neverFails .function) (keyword_advances .function)
    (fun _ => Open.openFail (.committed ?_)) fun hw => keyword_local hw .function
  refine identifier_open.bind_anywhere rest
    ⟨"\n(\n)\n\x7b\x7d".toList, fun w _ => ⟨apart_newline _, fun f => ⟨.function ⟨f, [], []⟩, ?_⟩⟩⟩
    fun hw => identifier_local hw
  have hparameters (v : List Char) : parameters ('\n' :: '(' :: '\n' :: ')' :: v) = .ok [] v :=
    (bind_ok (token_line rfl (by decide) (by decide) _)).trans
      ((bind_ok (separated_line identifier_miss_of_parenthesis v)).trans
        (bind_ok (parenthesis_line v)))
  exact (bind_ok (hparameters _)).trans (bind_ok (block_line w))

/-- A definition of a global variable can be completed, by an expression. -/
theorem global_openFail (n : Nat) : OpenFail (n + 1) Detached global := by
  have hone : ∀ {w}, Detached w → expression ('\n' :: '1' :: w) = .ok (.int 1) w := by
    intro w hw
    rw [← expression_ignoresLayout, skip_cons_of_isSpace (by decide), expression_ignoresLayout,
      expression_one hw]
  have value : ∀ x, Open n Detached (expression >>= fun e => pure (Definition.global x e)) :=
    fun x => (expression_open n).bind_pure (Definition.global x)
  have rest : ∀ x, Open n Detached
      (assignSign >>= fun _ => expression >>= fun e => pure (Definition.global x e)) := fun x =>
    assignSign_open.bind_anywhere (fun _ => value x)
      ⟨"\n1".toList, fun w hw => ⟨apart_newline _, fun _ => ⟨_, bind_ok (hone hw)⟩⟩⟩
      fun hw => assignSign_local hw
  refine .bind_succ (keyword_neverFails .global) (keyword_advances .global)
    (fun _ => Open.openFail (.committed ?_)) fun hw => keyword_local hw .global
  refine identifier_open.bind_anywhere rest
    ⟨"\n=\n1".toList, fun w hw => ⟨apart_newline _, fun x => ⟨.global x (.int 1), ?_⟩⟩⟩
    fun hw => identifier_local hw
  have hsign : Sign ('\n' :: '=' :: '\n' :: '1' :: w) ('\n' :: '1' :: w) :=
    ⟨afterLayout_newline (afterLayout_cons (by decide) (by decide) _), by simp⟩
  exact (bind_ok (assignSign_eq_ok_iff.mpr hsign)).trans (bind_ok (hone hw))

/-- A definition can be completed, whichever of the two it is. -/
theorem definition_openFail (n : Nat) : OpenFail (n + 1) Detached definition := by
  intro s hs hfail
  rcases orElse_eq_fail_iff.mp hfail with hfail | ⟨-, hfail⟩
  · have hfunction := (function_openFail n s hs hfail).mono (K := Detached) fun _ => trivial
    exact hfunction.of_ok fun hok => ⟨_, orElse_ok hok⟩
  · exact (global_openFail n s hs hfail).of_ok fun hok => ⟨_, definition_of_global_ok hok⟩

/-- The definitions of a program are rounds that can be completed before the end of the text. -/
theorem definitions_repeat (n : Nat) : Repeats (n + 1) (· = []) (Over []) definition where
  advances := definition_advances
  openFail := (definition_openFail n).mono fun hw => hw ▸ detached_nil
  before hw := definition_local hw
  overBefore _ _ h := over_of_definition h
  ends hw := by
    subst hw
    exact definition_miss rfl

/-- A program that gives up at the end can be completed. -/
theorem program_open (n : Nat) : Open (n + 1) (· = []) program := by
  have definitions := (definitions_repeat n).open_many
  exact definitions.bind_total (fun ds s => ⟨⟨ds⟩, skip s, rfl⟩)
    ⟨[], fun w hw => ⟨hw, fun ds => ⟨⟨ds⟩, by subst hw; rfl⟩⟩⟩

/-- A text that is an expression and gives up at its end can be completed. -/
theorem expressionAndLayout_open (n : Nat) :
    Open n (· = []) (do let e ← expression; layout; return e) := by
  have single := (expression_open n).mono (K := (· = [])) fun hw => hw ▸ detached_nil
  exact single.bind_total (fun e s => ⟨e, skip s, rfl⟩)
    ⟨[], fun w hw => ⟨hw, fun e => ⟨e, by subst hw; rfl⟩⟩⟩

end Parser

end Scriptlet
