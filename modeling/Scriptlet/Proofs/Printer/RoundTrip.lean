import Scriptlet.Proofs.Printer.Operand

/-!
# Printing and reading back

A tree is read back from its printed text exactly if each name in it can be written as one. The
printer puts every operand that is not primary in parentheses, so an expression is read back in two
positions: on its own, and as an operand (`Reads`). The lemmas `reads_…` are the cases of an
induction on the tree; the other direction is `Program.wellNamed_of_parse`.

* `Expr.reads`: a well-named expression is read back in both positions.
* `definitions_text`: so are well-named definitions, one after the other.
* `reads_back_iff_wellNamed`: the statement for whole texts.
-/

namespace Scriptlet

open Scriptlet.Text
open Scriptlet.Grammar

namespace Parser

/-- An expression that is read back from its text, on its own and as an operand. -/
structure Reads (e : Expr) : Prop where
  alone : ReadsBack expression e.text e
  operand : ∀ {s r}, AfterLayout s (operand e.isPrimary e.text ++ r) → EndsWord r →
    r.head? ≠ some '(' → primary s = .ok e r

/-- A token of one character is read where it stands. -/
theorem token_cons {text : String} {c : Char} (ht : text.toList = [c]) (hspace : isSpace c = false)
    (hslash : c ≠ '/') (r : List Char) : token text (c :: r) = .ok () r := by
  refine token_eq_ok_iff.mpr ?_
  unfold Grammar.Symbol
  rw [ht]
  exact afterLayout_cons hspace hslash r

/-- A keyword is read where it is printed with a space after it. -/
theorem word_text {k : Keyword} (text : String) (ht : text.toList = k.letters ++ [' '])
    {s r : List Char} (hs : AfterLayout s (text.toList ++ r)) : Word k s (' ' :: r) := by
  rw [ht, List.append_assoc] at hs
  exact ⟨hs, endsWord_space r⟩

/-- A comparison that is read up to the end of an expression is that expression. -/
theorem expression_of_comparison_ok {s r : List Char} {e : Expr} (h : comparison s = .ok e r)
    (hr : Stops r) : expression s = .ok e r := by
  have hchain : Chain 0 s r e := comparisonOf_sound expression_advances expression_sound h
  rw [expression_of_chain (follow_of_stops hr).operator hchain rfl]
  exact h

/-- A primary expression is read back if it is read back as an operand. -/
theorem reads_of_primary {e : Expr} (hw : WellNamed e.names) (hp : e.isPrimary = true)
    (h : ∀ {s r}, AfterLayout s (e.text ++ r) → EndsWord r → r.head? ≠ some '(' →
      primary s = .ok e r) : Reads e := by
  refine ⟨⟨solid_text e hw, fun {s r} hs hr => ?_⟩, fun {s r} hs => h ?_⟩
  · exact expression_of_comparison_ok (comparison_single (h hs hr.2 hr.head?_ne) hr.1) hr.1
  · rwa [Scriptlet.operand, if_pos hp] at hs

/-- An expression that is not primary is read back if it is so on its own: as an operand it stands in
parentheses. -/
theorem reads_of_expression {e : Expr} (hw : WellNamed e.names) (hp : e.isPrimary = false)
    (h : ∀ {s r}, AfterLayout s (e.text ++ r) → Ends r → expression s = .ok e r) : Reads e := by
  refine ⟨⟨solid_text e hw, h⟩, fun {s r} hs _ _ => ?_⟩
  have hopen : Symbol "(" s (e.text ++ ')' :: r) := by
    have hnot : ¬ e.isPrimary = true := by simp [hp]
    rw [Scriptlet.operand, if_neg hnot, List.cons_append, List.append_assoc] at hs
    exact hs
  have hexpr : expression (e.text ++ ')' :: r) = .ok e (')' :: r) :=
    h ((solid_text e hw).append _).afterLayout (ends_of_closer (by decide) r)
  have hclose : token ")" (')' :: r) = .ok () r := token_cons rfl (by decide) (by decide) r
  rw [primary_of_parenthesis hopen]
  exact (bind_ok (token_eq_ok_iff.mpr hopen)).trans
    (committed_ok ((bind_ok hexpr).trans (bind_ok hclose)))

/-! ### Blocks -/

/-- A printed block starts with a brace. -/
theorem braced_eq_cons (texts : List (List Char)) : ∃ t, braced texts = '\x7b' :: t := by
  cases texts with
  | nil => exact ⟨_, rfl⟩
  | cons text texts => exact ⟨_, rfl⟩

/-- No layout stands at the start of a printed block. -/
theorem solid_braced (texts : List (List Char)) : Solid (braced texts) := by
  obtain ⟨t, ht⟩ := braced_eq_cons texts
  rw [ht]
  exact solid_cons (by decide) (by decide) t

/-- The expressions of a printed block are read back. -/
theorem items_text {e : Expr} {es : List Expr} (h : ∀ f ∈ e :: es, Reads f) (r : List Char)
    {s : List Char}
    (hs : AfterLayout s ("; ".toList.intercalate ((e :: es).map Expr.text) ++ ' ' :: '\x7d' :: r)) :
    many (itemOf expression) s = .ok (e :: es) (' ' :: '\x7d' :: r) := by
  have hadvances := itemOf_advances expression_advances
  induction es generalizing e s with
  | nil =>
    have he := (h e List.mem_cons_self).alone
    rw [List.map_singleton, List.intercalate_singleton] at hs
    have hfirst : first (' ' :: '\x7d' :: r) = some '\x7d' :=
      first_of_afterLayout (afterLayout_space (afterLayout_cons (by decide) (by decide) r))
    have hok := he.read hs (ends_of_space_closer (by decide) r)
    -- no semicolon follows the last expression, and the brace starts no other one
    obtain ⟨t, ht⟩ := token_miss ";" (s := ' ' :: '\x7d' :: r) rfl (by rw [hfirst]; decide)
    obtain ⟨u, hu⟩ := expression_miss_of_first hfirst (by decide)
    have hitem : itemOf expression s = .ok e (' ' :: '\x7d' :: r) :=
      (bind_ok hok).trans (bind_ok (optional_miss ht))
    exact many_ok hadvances hitem (many_miss (bind_miss hu))
  | cons f es ih =>
    have he := (h e List.mem_cons_self).alone
    have hrest := fun g hg => h g (List.mem_cons_of_mem e hg)
    have hf := (hrest f List.mem_cons_self).alone
    rw [List.map_cons, List.map_cons, List.intercalate_cons_cons, List.append_assoc,
      List.append_assoc] at hs
    have hok := he.read hs (ends_of_closer (c := ';') (by decide) _)
    have hsemi : token ";" ("; ".toList ++
        ("; ".toList.intercalate ((f :: es).map Expr.text) ++ ' ' :: '\x7d' :: r)) =
        .ok () (' ' :: ("; ".toList.intercalate ((f :: es).map Expr.text) ++ ' ' :: '\x7d' :: r)) :=
      token_cons rfl (by decide) (by decide) _
    have hitem : itemOf expression s =
        .ok e (' ' :: ("; ".toList.intercalate ((f :: es).map Expr.text) ++ ' ' :: '\x7d' :: r)) :=
      (bind_ok hok).trans (bind_ok (optional_ok hsemi))
    have hsolid : Solid ("; ".toList.intercalate ((f :: es).map Expr.text)) := by
      rw [List.map_cons, intercalate_cons]
      exact hf.solid.append _
    exact many_ok hadvances hitem
      (ih hrest (afterLayout_space (hsolid.append _).afterLayout))

/-- A printed block is read back if its expressions are. -/
theorem block_text {b : Block} (h : ∀ e ∈ b, Reads e) {s r : List Char}
    (hs : AfterLayout s (braced (Expr.texts b) ++ r)) : block s = .ok b r := by
  rw [Expr.texts_eq_map] at hs
  have hclose : ∀ t, AfterLayout t ('\x7d' :: r) → token "\x7d" t = .ok () r :=
    fun t ht => token_eq_ok_iff.mpr ht
  cases b with
  | nil =>
    have hopen : Symbol "\x7b" s ('\x7d' :: r) := hs
    have hsolid := (solid_cons (c := '\x7d') (by decide) (by decide) r).afterLayout
    obtain ⟨t, ht⟩ := expression_miss_of_first (first_of_afterLayout hsolid) (by decide)
    have hitems : many (itemOf expression) ('\x7d' :: r) = .ok [] ('\x7d' :: r) :=
      many_miss (bind_miss ht)
    exact (bind_ok (token_eq_ok_iff.mpr hopen)).trans
      (committed_ok ((bind_ok hitems).trans (bind_ok (hclose _ hsolid))))
  | cons e es =>
    have hopen : Symbol "\x7b" s
        (' ' :: ("; ".toList.intercalate ((e :: es).map Expr.text) ++ ' ' :: '\x7d' :: r)) := by
      simpa [braced, Grammar.Symbol] using hs
    have hsolid : Solid ("; ".toList.intercalate ((e :: es).map Expr.text)) := by
      rw [List.map_cons, intercalate_cons]
      exact (h e List.mem_cons_self).alone.solid.append _
    have hitems := items_text h r (afterLayout_space (hsolid.append _).afterLayout)
    have hend := hclose (' ' :: '\x7d' :: r)
      (afterLayout_space (afterLayout_cons (by decide) (by decide) r))
    exact (bind_ok (token_eq_ok_iff.mpr hopen)).trans
      (committed_ok ((bind_ok hitems).trans (bind_ok hend)))

/-- A printed condition is read back before the block after it. -/
theorem condition_text {e : Expr} (h : Reads e) (texts : List (List Char)) {s r : List Char}
    (hs : AfterLayout s (Scriptlet.operand e.isPrimary e.text ++ ' ' :: (braced texts ++ r))) :
    comparison s = .ok e (' ' :: (braced texts ++ r)) := by
  obtain ⟨t, ht⟩ := braced_eq_cons texts
  rw [ht] at hs ⊢
  have hends : Ends (' ' :: ('\x7b' :: t ++ r)) := ends_of_space_closer (by decide) _
  exact comparison_single (h.operand hs hends.2 hends.head?_ne) hends.1

/-- A printed condition and the block after it are read back, and then what is left. -/
theorem condition_and_block_text {e : Expr} {b : Block} (hw : WellNamed e.names) (he : Reads e)
    (hb : ∀ f ∈ b, Reads f) (k : Expr → Block → Parser Expr) (r : List Char) :
    (comparison >>= fun c => block >>= fun d => k c d)
        (' ' :: (Scriptlet.operand e.isPrimary e.text ++ ' ' :: (braced (Expr.texts b) ++ r))) =
      k e b r := by
  have hcondition := condition_text he (Expr.texts b) (r := r)
    (afterLayout_space ((solid_operand hw).append _).afterLayout)
  have hbody := block_text hb (afterLayout_space ((solid_braced (Expr.texts b)).append r).afterLayout)
  exact (bind_ok hcondition).trans (bind_ok hbody)

/-! ### The expressions -/

/-- A printed integer is read back. -/
theorem reads_int (v : Value) : Reads (.int v) :=
  reads_of_primary wellNamed_nil rfl fun hs hr _ => by
    have hnumber := number_text v hs hr
    rw [primary_of_number hnumber.first]
    exact orElse_ok (map_eq_ok_iff.mpr ⟨v, integer_eq_ok_iff.mpr hnumber, rfl⟩)

/-- A printed variable is read back. -/
theorem reads_var {x : String} (hw : WellNamed (Expr.var x).names) : Reads (.var x) :=
  reads_of_primary hw rfl fun hs hr hparen =>
    primary_of_name (name_text (wellNamed_cons.mp hw).1 hs hr) hparen

/-- A print is read back if what it prints is. -/
theorem reads_print {e : Expr} (hw : WellNamed (Expr.print e).names) (he : Reads e) :
    Reads (.print e) :=
  reads_of_primary hw rfl fun {s r} hs _ _ => by
    have hword : Word .print s ('(' :: (e.text ++ ')' :: r)) := by
      have hspelling : "println(".toList = Keyword.print.letters ++ ['('] := rfl
      refine ⟨?_, by simp [EndsWord, isNameChar]⟩
      rw [Expr.text_print, hspelling] at hs
      simpa only [List.append_assoc, List.cons_append, List.nil_append] using hs
    have hopen : token "(" ('(' :: (e.text ++ ')' :: r)) = .ok () (e.text ++ ')' :: r) :=
      token_cons rfl (by decide) (by decide) _
    have hexpr : expression (e.text ++ ')' :: r) = .ok e (')' :: r) :=
      he.alone.read (he.alone.solid.append _).afterLayout (ends_of_closer (by decide) r)
    have hclose : token ")" (')' :: r) = .ok () r := token_cons rfl (by decide) (by decide) r
    rw [primary_of_print hword]
    exact (bind_ok (keyword_eq_ok_iff.mpr hword)).trans
      (committed_ok ((bind_ok hopen).trans ((bind_ok hexpr).trans (bind_ok hclose))))

/-- A call is read back if its arguments are. -/
theorem reads_call {f : String} {es : List Expr} (hw : WellNamed (Expr.call f es).names)
    (hes : ∀ e ∈ es, Reads e) : Reads (.call f es) :=
  reads_of_primary hw rfl fun {s r} hs _ _ => by
    have hname : Name s ('(' :: (", ".toList.intercalate (es.map Expr.text) ++ ')' :: r)) f := by
      refine name_text (wellNamed_cons.mp hw).1 ?_ (by simp [EndsWord, isNameChar])
      simpa [listed, Expr.texts_eq_map] using hs
    have hopen : literal ['('] ('(' :: (", ".toList.intercalate (es.map Expr.text) ++ ')' :: r)) =
        .ok () (", ".toList.intercalate (es.map Expr.text) ++ ')' :: r) :=
      literal_eq_ok_iff.mpr rfl
    have hargs := separated_text expression_advances
      (fun _ hu => expression_miss_of_first hu (by decide)) (fun e he => (hes e he).alone) r
    have hclose : token ")" (')' :: r) = .ok () r := token_cons rfl (by decide) (by decide) r
    rw [primary_of_call hname]
    exact (bind_ok (identifier_eq_ok_iff.mpr hname)).trans ((bind_ok hopen).trans
      (committed_ok ((bind_ok hargs).trans (bind_ok hclose))))

/-- An assignment is read back if its value is. -/
theorem reads_assign {x : String} {e : Expr} (hw : WellNamed (Expr.assign x e).names)
    (he : Reads e) : Reads (.assign x e) :=
  reads_of_expression hw rfl fun {s r} hs hr => by
    have hname : Name s (" = ".toList ++ (e.text ++ r)) x := by
      refine name_text (wellNamed_cons.mp hw).1 ?_ (endsWord_space _)
      rwa [Expr.text_assign, List.append_assoc, List.append_assoc] at hs
    have hsign : Sign (" = ".toList ++ (e.text ++ r)) (' ' :: (e.text ++ r)) :=
      ⟨afterLayout_space (afterLayout_cons (by decide) (by decide) _), by simp⟩
    have hexpr := he.alone.read (afterLayout_space (he.alone.solid.append r).afterLayout) hr
    have hassign : assignment s = .ok (.assign x e) r :=
      (bind_ok (identifier_eq_ok_iff.mpr hname)).trans
        ((bind_ok (assignSign_eq_ok_iff.mpr hsign)).trans (bind_ok hexpr))
    rw [expression_of_name hname]
    exact orElse_ok hassign

/-- The symbol of an operator is read between two spaces. -/
theorem symbol_text (op : Operator) (r : List Char) :
    Symbol op.symbol (' ' :: (op.symbol.toList ++ ' ' :: r)) (' ' :: r) := by
  refine afterLayout_space (afterLayout_iff.mpr ?_)
  cases op <;> rfl

/-- An operator is read back if its operands are. -/
theorem reads_binary {op : Operator} {e f : Expr} (hw : WellNamed (Expr.binary op e f).names)
    (he : Reads e) (hf : Reads f) : Reads (.binary op e f) :=
  reads_of_expression hw rfl fun {s r} hs hr => by
    have hwf := (wellNamed_append.mp hw).2
    let right := Scriptlet.operand f.isPrimary f.text ++ r
    have hleft : primary s = .ok e (' ' :: (op.symbol.toList ++ ' ' :: right)) := by
      refine he.operand ?_ (endsWord_space _) (by simp)
      simpa [right] using hs
    have hright : primary (' ' :: right) = .ok f r :=
      hf.operand (afterLayout_space ((solid_operand hwf).append r).afterLayout) hr.2 hr.head?_ne
    have hpair := comparison_pair hleft (symbol_text op right) (by simp) hright hr.1
    exact expression_of_comparison_ok hpair hr.1

/-- A block is read back if its expressions are. -/
theorem reads_block {b : Block} (hw : WellNamed (Expr.block b).names) (hb : ∀ e ∈ b, Reads e) :
    Reads (.block b) :=
  reads_of_expression hw rfl fun {s r} hs _ => by
    obtain ⟨t, ht⟩ := braced_eq_cons (Expr.texts b)
    have hopen : Symbol "\x7b" s (t ++ r) := by
      rwa [Expr.text_block, ht] at hs
    rw [expression_of_brace hopen]
    exact map_eq_ok_iff.mpr ⟨b, block_text hb hs, rfl⟩

/-- A loop is read back if its condition and its body are. -/
theorem reads_whileDo {e : Expr} {b : Block} (hw : WellNamed (Expr.whileDo e b).names)
    (he : Reads e) (hb : ∀ f ∈ b, Reads f) : Reads (.whileDo e b) :=
  reads_of_expression hw rfl fun {s r} hs _ => by
    have hwe := (wellNamed_append.mp hw).1
    have hword : Word .loop s (' ' :: (Scriptlet.operand e.isPrimary e.text ++
        ' ' :: (braced (Expr.texts b) ++ r))) := by
      refine word_text "while " rfl ?_
      simpa only [Expr.text_whileDo, List.append_assoc, List.cons_append] using hs
    rw [expression_of_loop hword]
    exact (bind_ok (keyword_eq_ok_iff.mpr hword)).trans
      (committed_ok (condition_and_block_text hwe he hb _ r))

/-- A conditional with one branch is read back if its condition and the branch are. -/
theorem reads_ifThen {e : Expr} {b : Block} (hw : WellNamed (Expr.ifThen e b).names)
    (he : Reads e) (hb : ∀ f ∈ b, Reads f) : Reads (.ifThen e b) :=
  reads_of_expression hw rfl fun {s r} hs hr => by
    have hwe := (wellNamed_append.mp hw).1
    have hword : Word .conditional s (' ' :: (Scriptlet.operand e.isPrimary e.text ++
        ' ' :: (braced (Expr.texts b) ++ r))) := by
      refine word_text "if " rfl ?_
      simpa only [Expr.text_ifThen, List.append_assoc, List.cons_append] using hs
    have helse : ∃ t, otherwiseOf expression r = .miss t := keyword_bind_miss _ hr.1.2
    obtain ⟨t, ht⟩ := helse
    rw [expression_of_conditional hword]
    exact (bind_ok (keyword_eq_ok_iff.mpr hword)).trans
      (committed_ok ((condition_and_block_text hwe he hb _ r).trans (bind_ok (optional_miss ht))))

/-- A conditional with two branches is read back if its condition and its blocks are. -/
theorem reads_ifElse {e : Expr} {b d : Block} (hw : WellNamed (Expr.ifElse e b d).names)
    (he : Reads e) (hb : ∀ f ∈ b, Reads f) (hd : ∀ f ∈ d, Reads f) : Reads (.ifElse e b d) :=
  reads_of_expression hw rfl fun {s r} hs _ => by
    have hwe := (wellNamed_append.mp (wellNamed_append.mp hw).1).1
    let rest := " else ".toList ++ (braced (Expr.texts d) ++ r)
    have hword : Word .conditional s (' ' :: (Scriptlet.operand e.isPrimary e.text ++
        ' ' :: (braced (Expr.texts b) ++ rest))) := by
      refine word_text "if " rfl ?_
      simpa only [Expr.text_ifElse, List.append_assoc, List.cons_append, rest] using hs
    have helse : Word .otherwise rest (' ' :: (braced (Expr.texts d) ++ r)) :=
      ⟨afterLayout_space (afterLayout_cons (by decide) (by decide) _), endsWord_space _⟩
    have hother := block_text hd
      (afterLayout_space ((solid_braced (Expr.texts d)).append r).afterLayout)
    have hotherwise : otherwiseOf expression rest = .ok d r :=
      (bind_ok (keyword_eq_ok_iff.mpr helse)).trans (committed_ok (orElse_ok hother))
    rw [expression_of_conditional hword]
    exact (bind_ok (keyword_eq_ok_iff.mpr hword)).trans (committed_ok
      ((condition_and_block_text hwe he hb _ rest).trans (bind_ok (optional_ok hotherwise))))

mutual

/-- A well-named expression is read back. -/
theorem reads : (e : Expr) → WellNamed e.names → Reads e
  | .int v, _ => reads_int v
  | .var _, hw => reads_var hw
  | .assign _ e, hw => reads_assign hw (reads e (wellNamed_cons.mp hw).2)
  | .binary _ l r, hw => by
    obtain ⟨hl, hr⟩ := wellNamed_append.mp hw
    exact reads_binary hw (reads l hl) (reads r hr)
  | .block b, hw => reads_block hw (readsAll b hw)
  | .whileDo e b, hw => by
    obtain ⟨he, hb⟩ := wellNamed_append.mp hw
    exact reads_whileDo hw (reads e he) (readsAll b hb)
  | .ifThen e b, hw => by
    obtain ⟨he, hb⟩ := wellNamed_append.mp hw
    exact reads_ifThen hw (reads e he) (readsAll b hb)
  | .ifElse e b d, hw => by
    obtain ⟨heb, hd⟩ := wellNamed_append.mp hw
    obtain ⟨he, hb⟩ := wellNamed_append.mp heb
    exact reads_ifElse hw (reads e he) (readsAll b hb) (readsAll d hd)
  | .print e, hw => reads_print hw (reads e hw)
  | .call _ a, hw => reads_call hw (readsAll a (wellNamed_cons.mp hw).2)

/-- Well-named expressions are read back. -/
theorem readsAll : (es : List Expr) → WellNamed (Expr.namesOf es) → ∀ e ∈ es, Reads e
  | [], _ => nofun
  | e :: es, hw => by
    obtain ⟨he, hes⟩ := wellNamed_append.mp hw
    exact List.forall_mem_cons.mpr ⟨reads e he, readsAll es hes⟩

end

/-! ### Definitions -/

/-- Names are read back. -/
theorem readsBack_name {x : String} (h : isName x.toList) : ReadsBack identifier x.toList x :=
  ⟨solid_of_isName h, fun hs hr => identifier_eq_ok_iff.mpr (name_text h hs hr.2)⟩

/-- The parameters of a printed function are read back. -/
theorem parameters_text {xs : List String} (h : WellNamed xs) (r : List Char) :
    parameters (listed (xs.map String.toList) ++ r) = .ok xs r := by
  have hopen : token "(" (listed (xs.map String.toList) ++ r) =
      .ok () (", ".toList.intercalate (xs.map String.toList) ++ ')' :: r) := by
    rw [listed, List.cons_append, List.append_assoc]
    exact token_cons rfl (by decide) (by decide) _
  have hnames := separated_text identifier_advances
    (fun _ hu => identifier_miss_of_first hu (by decide)) (fun x hx => readsBack_name (h x hx)) r
  have hclose : token ")" (')' :: r) = .ok () r := token_cons rfl (by decide) (by decide) r
  exact (bind_ok hopen).trans ((bind_ok hnames).trans (bind_ok hclose))

/-- A well-named function is read back. -/
theorem function_text {f : Function} (hw : WellNamed (Definition.function f).names)
    {s r : List Char} (hs : AfterLayout s ((Definition.function f).text ++ r)) :
    definition s = .ok (.function f) r := by
  obtain ⟨hhead, hbody⟩ := wellNamed_append.mp hw
  obtain ⟨hf, hparams⟩ := wellNamed_cons.mp hhead
  let body := braced (Expr.texts f.body) ++ r
  let params := listed (f.parameters.map String.toList) ++ ' ' :: body
  have hword : Word .function s (' ' :: (f.name.toList ++ params)) := by
    refine word_text "define " rfl ?_
    simpa only [Definition.text_function, List.append_assoc, List.cons_append, body, params] using hs
  have hname : Name (' ' :: (f.name.toList ++ params)) params f.name := by
    refine name_text hf (afterLayout_space ((solid_of_isName hf).append _).afterLayout) ?_
    simp [params, listed, EndsWord, isNameChar]
  have hparameters : parameters params = .ok f.parameters (' ' :: body) :=
    parameters_text hparams (' ' :: body)
  have hblock : block (' ' :: body) = .ok f.body r :=
    block_text (readsAll f.body hbody) (afterLayout_space ((solid_braced _).append r).afterLayout)
  have hfunction : function s = .ok (.function f) r :=
    (bind_ok (keyword_eq_ok_iff.mpr hword)).trans (committed_ok
      ((bind_ok (identifier_eq_ok_iff.mpr hname)).trans
        ((bind_ok hparameters).trans (bind_ok hblock))))
  exact orElse_ok hfunction

/-- A well-named global variable is read back. -/
theorem global_text {x : String} {e : Expr} (hw : WellNamed (Definition.global x e).names)
    {s r : List Char} (hs : AfterLayout s ((Definition.global x e).text ++ r)) (hr : Ends r) :
    definition s = .ok (.global x e) r := by
  obtain ⟨hx, he⟩ := wellNamed_cons.mp hw
  have hreads := (reads e he).alone
  let initial := " = ".toList ++ (e.text ++ r)
  have hword : Word .global s (' ' :: (x.toList ++ initial)) := by
    refine word_text "global " rfl ?_
    simpa only [Definition.text_global, List.append_assoc, initial] using hs
  have hname : Name (' ' :: (x.toList ++ initial)) initial x :=
    name_text hx (afterLayout_space ((solid_of_isName hx).append _).afterLayout) (endsWord_space _)
  have hsign : Sign initial (' ' :: (e.text ++ r)) :=
    ⟨afterLayout_space (afterLayout_cons (by decide) (by decide) _), by simp⟩
  have hexpr := hreads.read (afterLayout_space (hreads.solid.append r).afterLayout) hr
  have hmiss : ∃ t, function s = .miss t :=
    keyword_bind_miss _ fun t ht => absurd (ht.keyword_eq hword) (by decide)
  obtain ⟨t, ht⟩ := hmiss
  have hglobal : global s = .ok (.global x e) r :=
    (bind_ok (keyword_eq_ok_iff.mpr hword)).trans (committed_ok
      ((bind_ok (identifier_eq_ok_iff.mpr hname)).trans
        ((bind_ok (assignSign_eq_ok_iff.mpr hsign)).trans (bind_ok hexpr))))
  exact (orElse_miss ht).trans hglobal

/-- A printed definition starts with a keyword other than `else`. -/
theorem exists_word_of_definition (d : Definition) {s r : List Char}
    (hs : AfterLayout s (d.text ++ r)) : ∃ k t, Word k s t ∧ k ≠ .otherwise := by
  cases d with
  | function f =>
    rw [Definition.text_function, List.append_assoc, List.append_assoc, List.append_assoc] at hs
    exact ⟨.function, _, word_text "define " rfl hs, by decide⟩
  | global x e =>
    rw [Definition.text_global, List.append_assoc, List.append_assoc, List.append_assoc] at hs
    exact ⟨.global, _, word_text "global " rfl hs, by decide⟩

/-- A printed definition is solid. -/
theorem solid_definition (d : Definition) : Solid d.text := by
  cases d with
  | function f => exact solid_cons (by decide) (by decide) _
  | global x e => exact solid_cons (by decide) (by decide) _

/-- Printed definitions are solid, or there are none. -/
theorem afterLayout_definitions (ds : List Definition) :
    AfterLayout (Program.text ⟨ds⟩) (Program.text ⟨ds⟩) := by
  cases ds with
  | nil => exact afterLayout_iff.mpr rfl
  | cons d ds => exact (((solid_definition d).append _).append _).afterLayout

/-- A line break before printed definitions ends an expression. -/
theorem ends_newline (ds : List Definition) : Ends ('\n' :: Program.text ⟨ds⟩) := by
  have hlayout := afterLayout_newline (afterLayout_definitions ds)
  refine ⟨?_, by simp [EndsWord, isNameChar]⟩
  cases ds with
  | nil => exact stops_of_layout (afterLayout_iff.mp hlayout)
  | cons d ds =>
    rw [Program.text, List.flatMap_cons, List.append_assoc] at hlayout ⊢
    obtain ⟨k, t, hword, hk⟩ := exists_word_of_definition d hlayout
    exact hword.stops hk

/-- Well-named definitions are read back, and only layout is left over. -/
theorem definitions_text {ds : List Definition} (hw : WellNamed (ds.flatMap Definition.names))
    {s : List Char} (hs : AfterLayout s (Program.text ⟨ds⟩)) :
    ∃ r, many definition s = .ok ds r ∧ skip r = [] := by
  induction ds generalizing s with
  | nil =>
    have hskip : skip s = [] := afterLayout_iff.mp hs
    obtain ⟨t, ht⟩ := definition_miss hskip
    exact ⟨s, many_miss ht, hskip⟩
  | cons d ds ih =>
    obtain ⟨hd, hds⟩ := wellNamed_append.mp hw
    obtain ⟨r, hr, hskip⟩ := ih hds (afterLayout_newline (afterLayout_definitions ds))
    have hdefinition : definition s = .ok d ('\n' :: Program.text ⟨ds⟩) := by
      rw [Program.text, List.flatMap_cons, List.append_assoc] at hs
      cases d with
      | function f => exact function_text hd hs
      | global x e => exact global_text hd hs (ends_newline ds)
    exact ⟨r, many_ok definition_advances hdefinition hr, hskip⟩

/-! ### Whole texts -/

/-- A well-named program is read back from its text. -/
theorem parse_text_program {p : Program} (hw : WellNamed p.names) : Program.parse p.text = .ok p := by
  obtain ⟨r, hr, hskip⟩ := definitions_text hw (afterLayout_definitions p.definitions)
  have hlayout : layout r = .ok () [] := congrArg (Reply.ok ()) hskip
  exact readAll_eq_ok_iff.mpr ((bind_ok hr).trans (bind_ok hlayout))

/-- A well-named expression is read back from its text. -/
theorem parse_text_expr {e : Expr} (hw : WellNamed e.names) : Expr.parse e.text = .ok e := by
  have hends : Ends [] := ⟨stops_of_layout rfl, nofun⟩
  have hsolid := (solid_text e hw).append []
  have hexpr : expression (e.text ++ []) = .ok e [] := (reads e hw).alone.read hsolid.afterLayout hends
  rw [List.append_nil] at hexpr
  have hlayout : layout [] = .ok () [] := rfl
  exact readAll_eq_ok_iff.mpr ((bind_ok hexpr).trans (bind_ok hlayout))

/-- A tree is read back from its printed text exactly if every name in it can be written as one. In
particular each tree that is read from any text is read back. -/
theorem reads_back_iff_wellNamed :
    (∀ p : Program, Program.ofString p.display = .ok p ↔ WellNamed p.names) ∧
    (∀ e : Expr, Expr.ofString e.display = .ok e ↔ WellNamed e.names) ∧
    (∀ source p, Program.ofString source = .ok p → Program.ofString p.display = .ok p) ∧
    ∀ source e, Expr.ofString source = .ok e → Expr.ofString e.display = .ok e := by
  have program : ∀ p : Program, Program.ofString p.display = .ok p ↔ WellNamed p.names := by
    intro p
    rw [Program.ofString, Program.display, String.toList_ofList]
    exact ⟨Program.wellNamed_of_parse, parse_text_program⟩
  have expr : ∀ e : Expr, Expr.ofString e.display = .ok e ↔ WellNamed e.names := by
    intro e
    rw [Expr.ofString, Expr.display, String.toList_ofList]
    exact ⟨Expr.wellNamed_of_parse, parse_text_expr⟩
  refine ⟨program, expr, fun source p h => ?_, fun source e h => ?_⟩
  · exact (program p).mpr (Program.wellNamed_of_parse h)
  · exact (expr e).mpr (Expr.wellNamed_of_parse h)

end Parser

end Scriptlet
