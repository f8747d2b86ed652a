import Scriptlet.Proofs.Eval.Observation
import Scriptlet.Proofs.Renaming.Locals
import Scriptlet.Proofs.Scopes.Refinement

/-!
# Steps that cannot be told apart

Two runs over two scopes go on alike if they know the same global variables and print to the same
sink, if the functions that they know differ in the names of their parameters at most, and if the
variables of the calls that they are in are related (`Scopes.Alike`). How these are to be related is
left open: a call starts with variables of its own and gives its caller's back afterwards, so that what
holds between the callers passes through a call, whatever it is (`Simulates.call`).

* `evalCall_simulates`: calls do the same if their arguments do.
* `evalAtFuel_follows`: within calls of a function and of the renamed one, an expression and the renamed
  one do the same.
-/

namespace Scriptlet

/-- The rest of two runs cannot tell the scopes apart, if the variables of the calls that go on are
related as they should. -/
structure Scopes.Alike (L : Option (Table Value) → Option (Table Value) → Prop) (s t : Scopes) :
    Prop where
  globals : ∀ name : String, t.globals.get? name = s.globals.get? name
  functions : ∀ name : String,
    Option.Rel Function.Alpha (s.functions.get? name) (t.functions.get? name)
  sink : t.sink = s.sink
  locals : L s.locals t.locals

namespace Scopes.Alike

variable {L : Option (Table Value) → Option (Table Value) → Prop} {s t : Scopes}

/-- Both sides give a value to the same global variable. -/
theorem defineGlobal (h : s.Alike L t) (x : String) (v : Value) :
    Scopes.Alike L { s with globals := s.globals.insert x v }
      { t with globals := t.globals.insert x v } where
  globals := by
    intro y
    rw [Table.get?_insert, Table.get?_insert, h.globals]
  functions := h.functions
  sink := h.sink
  locals := h.locals

/-- Functions of one name become known on both sides. -/
theorem register (h : s.Alike L t) {f g : Function} (hfg : f.Alpha g) :
    Scopes.Alike L { s with functions := s.functions.insert f.name f }
      { t with functions := t.functions.insert g.name g } where
  globals := h.globals
  functions := by
    intro name
    rw [Table.get?_insert, Table.get?_insert, hfg.name_eq]
    split
    · exact .some hfg
    · exact h.functions name
  sink := h.sink
  locals := h.locals

end Scopes.Alike

namespace Scoped

variable {α β γ δ : Type} {L L' : Option (Table Value) → Option (Table Value) → Prop}

/-- Two steps end alike: with related values or with the same error, in scopes that are alike, or both
for lack of fuel. -/
inductive EndAlike (L : Option (Table Value) → Option (Table Value) → Prop) (R : α → β → Prop) :
    Option (Except EvalError α × Scopes) → Option (Except EvalError β × Scopes) → Prop where
  | value {a : α} {b : β} {s t : Scopes} : R a b → s.Alike L t →
      EndAlike L R (some (.ok a, s)) (some (.ok b, t))
  | error {reason : EvalError} {s t : Scopes} : s.Alike L t →
      EndAlike L R (some (.error reason, s)) (some (.error reason, t))
  | outOfFuel : EndAlike L R none none

/-- Sequences end alike if their first parts do and their second parts do wherever these lead. -/
theorem EndAlike.bind {R : α → β → Prop} {S : γ → δ → Prop} {p : Scoped α} {q : Scoped β}
    {f : α → Scoped γ} {g : β → Scoped δ} {s t : Scopes}
    (h : EndAlike L R (runFrom p s) (runFrom q t))
    (hfg : ∀ a b s' t', runFrom p s = some (.ok a, s') → R a b → s'.Alike L t' →
      EndAlike L S (runFrom (f a) s') (runFrom (g b) t')) :
    EndAlike L S (runFrom (p >>= f) s) (runFrom (q >>= g) t) := by
  rw [runFrom_bind, runFrom_bind]
  revert h hfg
  generalize runFrom p s = ends
  generalize runFrom q t = ends'
  intro h hfg
  cases h with
  | value hab hst => exact hfg _ _ _ _ rfl hab hst
  | error hst => exact .error hst
  | outOfFuel => exact .outOfFuel

/-- From scopes that are alike, two steps end alike. -/
def Simulates (L : Option (Table Value) → Option (Table Value) → Prop) (R : α → β → Prop)
    (p : Scoped α) (q : Scoped β) : Prop :=
  ∀ s t : Scopes, s.Alike L t → EndAlike L R (runFrom p s) (runFrom q t)

namespace Simulates

variable {R : α → β → Prop} {S : γ → δ → Prop} {p p' : Scoped α} {q q' : Scoped β}

/-- Related values are given alike. -/
theorem pure {a : α} {b : β} (h : R a b) : Simulates L R (pure a) (pure b) :=
  fun _ _ hst => .value h hst

/-- The same error is raised alike. -/
theorem throw (reason : EvalError) :
    Simulates L R (throw reason : Scoped α) (throw reason : Scoped β) :=
  fun _ _ hst => .error hst

/-- Two steps that do not end are alike. -/
theorem outOfFuel : Simulates L R (outOfFuel : Scoped α) (outOfFuel : Scoped β) :=
  fun _ _ _ => .outOfFuel

/-- A result that is there already is given alike. -/
theorem ofExcept (result : Except EvalError α) :
    Simulates L Eq (MonadExcept.ofExcept result : Scoped α) (MonadExcept.ofExcept result) := by
  cases result with
  | ok a => exact .pure rfl
  | error reason => exact .throw reason

/-- What is read is related if it is so in all scopes that are alike. -/
theorem read {f : Scopes → α} {g : Scopes → β} (h : ∀ s t : Scopes, s.Alike L t → R (f s) (g t)) :
    Simulates L R (read f) (read g) :=
  fun s t hst => .value (h s t hst) hst

/-- Changes that leave scopes alike are made alike. -/
theorem modify {f g : Scopes → Scopes} (h : ∀ s t : Scopes, s.Alike L t → (f s).Alike L (g t)) :
    Simulates L Eq (modify f : Scoped Unit) (modify g) :=
  fun s t hst => .value rfl (h s t hst)

/-- Equivalent conditions choose alike. -/
theorem ite {c d : Prop} [Decidable c] [Decidable d] (hcd : c ↔ d) (h : Simulates L R p q)
    (h' : Simulates L R p' q') :
    Simulates L R (if c then p else p') (if d then q else q') := by
  by_cases hc : c
  · rw [if_pos hc, if_pos (hcd.mp hc)]
    exact h
  · rw [if_neg hc, if_neg (mt hcd.mpr hc)]
    exact h'

/-- Sequences end alike if their parts do. -/
theorem bind {f : α → Scoped γ} {g : β → Scoped δ} (h : Simulates L R p q)
    (hfg : ∀ a b, R a b → Simulates L S (f a) (g b)) : Simulates L S (p >>= f) (q >>= g) := by
  intro s t hst
  apply (h s t hst).bind
  intro a b s' t' _ hab
  exact hfg a b hab s' t'

/-- Calls end alike if their bodies do, wherever they are made. -/
theorem call {l l' : Table Value} (hl : L' (some l) (some l')) (h : Simulates L' R p q) :
    Simulates L R (call l p) (call l' q) := by
  intro s t hst
  rw [runFrom_call, runFrom_call]
  have hbody := h { s with locals := some l } { t with locals := some l' }
    ⟨hst.globals, hst.functions, hst.sink, hl⟩
  have hleave : ∀ {u w : Scopes}, u.Alike L' w →
      { u with locals := s.locals }.Alike L { w with locals := t.locals } :=
    fun huw => ⟨huw.globals, huw.functions, huw.sink, hst.locals⟩
  revert hbody
  generalize runFrom p { s with locals := some l } = ends
  generalize runFrom q { t with locals := some l' } = ends'
  intro hbody
  cases hbody with
  | value hab huw => exact .value hab (hleave huw)
  | error huw => exact .error (hleave huw)
  | outOfFuel => exact .outOfFuel

end Simulates

/-! ### Steps -/

open Simulates

/-- The same value is printed alike. -/
theorem printValue_simulates (v : Value) : Simulates L Eq (printValue v) (printValue v) := by
  intro s t hst
  rw [runFrom_printValue, runFrom_printValue, hst.sink]
  obtain ⟨failure, sink⟩ := s.sink.print (Value.text v)
  cases failure with
  | none => exact .value rfl ⟨hst.globals, hst.functions, rfl, hst.locals⟩
  | some reason => exact .error ⟨hst.globals, hst.functions, rfl, hst.locals⟩

/-- The functions of a name that are found differ in the names of their parameters at most. -/
theorem findFunction_simulates (name : String) (given : Nat) :
    Simulates L (fun f g => f.Alpha g ∧ f.parameters.length = given)
      (findFunction name given) (findFunction name given) := by
  have hread : Simulates L (Option.Rel Function.Alpha)
      (read (·.functions.get? name)) (read (·.functions.get? name)) :=
    .read fun s t hst => hst.functions name
  apply hread.bind
  rintro found found' (@⟨f, g, hfg⟩ | -)
  · have hlength := hfg.length_parameters
    simp only [hlength]
    by_cases hgiven : f.parameters.length = given
    · simp only [hgiven, if_true]
      exact .pure ⟨hfg, hgiven⟩
    · simp only [hgiven, if_false]
      exact .throw _
  · exact .throw _

section renamed

variable {N : String → Prop} {ρ : String → String} {x : String}

/-- A name and its new name have the same value, and a name without one has kept its name. -/
theorem readVariable_simulates (hx : N x) :
    Simulates (LocalsRenamed N ρ) Eq (readVariable x) (readVariable (ρ x)) := by
  have hread : Simulates (LocalsRenamed N ρ)
      (fun found found' => found' = found ∧ (found = none → ρ x = x))
      (read (·.get? x)) (read (·.get? (ρ x))) := by
    apply Simulates.read
    intro s t hst
    have hvalue := hst.locals.value hx
    change localOf? t.locals (ρ x) = localOf? s.locals x at hvalue
    change (localOf? t.locals (ρ x)).or _ = (localOf? s.locals x).or _ ∧
      ((localOf? s.locals x).or _ = none → _)
    rw [hvalue]
    cases hlocal : localOf? s.locals x with
    | some v => exact ⟨rfl, nofun⟩
    | none =>
      have hsame := hst.locals.eq_of_unbound hx hlocal
      rw [hsame, hst.globals]
      exact ⟨rfl, fun _ => rfl⟩
  apply hread.bind
  rintro found found' ⟨rfl, hsame⟩
  cases found' with
  | none =>
    rw [hsame rfl]
    exact .throw _
  | some v => exact .pure rfl

/-- An assignment goes to the variable with the new name, or to the same global one. -/
theorem assign_alike (hρ : Faithful N ρ) (hx : N x) (v : Value) {s t : Scopes}
    (h : s.Alike (LocalsRenamed N ρ) t) :
    (s.assign x v).Alike (LocalsRenamed N ρ) (t.assign (ρ x) v) := by
  have hvalue := h.locals.value hx
  have hunbound := h.locals.eq_of_unbound hx
  cases hs : s.locals with
  | none =>
    have ht : t.locals = none := by
      have hnone := h.locals.isSome
      rwa [hs, Option.isSome_none, Option.isSome_eq_false_iff, Option.isNone_iff_eq_none] at hnone
    rw [Scopes.assign_of_global hs, Scopes.assign_of_global ht, hunbound (by rw [hs]; rfl)]
    exact h.defineGlobal x v
  | some l =>
    obtain ⟨l', ht⟩ : ∃ l', t.locals = some l' := by
      have hsome := h.locals.isSome
      rwa [hs, Option.isSome_some, Option.isSome_iff_exists] at hsome
    rw [hs, ht] at hvalue
    rw [hs] at hunbound
    have hlocals := h.locals
    rw [hs, ht] at hlocals
    have hwrite : LocalsRenamed N ρ (some (l.insert x v)) (some (l'.insert (ρ x) v)) :=
      hlocals.insert hρ hx v
    have hcontains : l'.contains (ρ x) = l.contains x := congrArg Option.isSome hvalue
    rw [Scopes.assign_of_call hs, Scopes.assign_of_call ht, hcontains]
    by_cases hbound : l.contains x
    · rw [if_pos hbound, if_pos hbound]
      exact ⟨h.globals, h.functions, h.sink, hwrite⟩
    · -- a name that is not bound in the call is unchanged, so that the same global variable is meant
      have hsame : ρ x = x := hunbound (Option.not_isSome_iff_eq_none.mp hbound)
      have hglobals : t.globals.contains (ρ x) = s.globals.contains x := by
        rw [hsame]
        exact congrArg Option.isSome (h.globals x)
      rw [if_neg hbound, if_neg hbound, hglobals]
      by_cases hglobal : s.globals.contains x
      · rw [if_pos hglobal, if_pos hglobal, hsame]
        exact h.defineGlobal x v
      · rw [if_neg hglobal, if_neg hglobal]
        exact ⟨h.globals, h.functions, h.sink, hwrite⟩

end renamed

/-! ### Expressions -/

/-- An evaluator gives the same for an expression and the renamed one, in calls whose variables are
related by that renaming. -/
def Follows (eval : Expr → Scoped Value) : Prop :=
  ∀ (N : String → Prop) (ρ : String → String) (e : Expr), Faithful N ρ → (∀ x ∈ e.names, N x) →
    Simulates (LocalsRenamed N ρ) Eq (eval e) (eval (e.rename ρ))

section nested

variable {eval : Expr → Scoped Value} {es : List Expr} {g : Expr → Expr}
  (h : ∀ e ∈ es, Simulates L Eq (eval e) (eval (g e)))

include h

/-- Expressions one after the other are evaluated alike if each of them is. -/
theorem evalFrom_simulates (last : Value) :
    Simulates L Eq (es.foldlM (fun _ e => eval e) last)
      ((es.map g).foldlM (fun _ e => eval e) last) := by
  induction es generalizing last with
  | nil => exact .pure rfl
  | cons e es ih =>
    obtain ⟨he, hes⟩ := List.forall_mem_cons.mp h
    rw [List.map_cons, List.foldlM_cons, List.foldlM_cons]
    apply he.bind
    rintro v _ rfl
    exact ih hes v

/-- Blocks are evaluated alike if their expressions are. -/
theorem evalBlock_simulates : Simulates L Eq (evalBlock eval es) (evalBlock eval (es.map g)) :=
  evalFrom_simulates h 0

/-- Arguments are evaluated alike if each of them is, and there are as many values. -/
theorem evalArguments_simulates :
    Simulates L (fun vs ws => vs = ws ∧ vs.length = es.length) (es.mapM eval)
      ((es.map g).mapM eval) := by
  induction es with
  | nil =>
    rw [List.map_nil, List.mapM_nil]
    exact .pure ⟨rfl, rfl⟩
  | cons e es ih =>
    obtain ⟨he, hes⟩ := List.forall_mem_cons.mp h
    rw [List.map_cons, List.mapM_cons, List.mapM_cons]
    apply he.bind
    rintro v _ rfl
    apply (ih hes).bind
    rintro vs _ ⟨rfl, hlength⟩
    exact .pure ⟨rfl, congrArg Nat.succ hlength⟩

/-- Loops are evaluated alike, in each of their rounds. -/
theorem evalLoop_simulates {c d : Expr} (hc : Simulates L Eq (eval c) (eval d)) (rounds : Nat) :
    Simulates L Eq (evalLoop eval c es rounds) (evalLoop eval d (es.map g) rounds) := by
  induction rounds with
  | zero => exact .outOfFuel
  | succ rounds ih =>
    apply hc.bind
    rintro v _ rfl
    apply Simulates.ite Iff.rfl (.pure rfl)
    exact (evalBlock_simulates h).bind fun _ _ _ => ih

/-- The callers of a function and of the renamed one may be in calls that have nothing to do with each
other, as long as the arguments do the same. -/
theorem evalCall_simulates (he : Follows eval) (name : String) :
    Simulates L Eq (evalCall eval name es) (evalCall eval name (es.map g)) := by
  unfold evalCall
  rw [List.length_map]
  apply (findFunction_simulates name es.length).bind
  rintro f f' ⟨⟨ρ, hρ⟩, hgiven⟩
  apply (evalArguments_simulates h).bind
  rintro values _ ⟨rfl, hlength⟩
  -- from here on the callers' variables play no part, and the body's are its parameters
  apply Simulates.call (LocalsRenamed.bindAll hρ (hgiven.trans hlength.symm))
  have hbody : f'.body = f.body.map (Expr.rename ρ) := by
    rw [hρ.eq, ← Expr.renameAll_eq_map]
    rfl
  rw [hbody]
  apply evalBlock_simulates
  intro e hmem
  apply he _ _ e hρ.faithful
  intro x hx
  exact .inr (Expr.mem_namesOf.mpr ⟨e, hmem, hx⟩)

end nested

/-- An expression follows a renaming if its parts do. -/
theorem evalExpr_simulates {eval : Expr → Scoped Value} (he : Follows eval) (rounds : Nat)
    {N : String → Prop} {ρ : String → String} {e : Expr} (hρ : Faithful N ρ)
    (hnames : ∀ x ∈ e.names, N x) :
    Simulates (LocalsRenamed N ρ) Eq (evalExpr eval rounds e)
      (evalExpr eval rounds (e.rename ρ)) := by
  have hall : ∀ {es : List Expr}, (∀ x ∈ Expr.namesOf es, N x) →
      ∀ e ∈ es, Simulates (LocalsRenamed N ρ) Eq (eval e) (eval (e.rename ρ)) := by
    intro es hes e hmem
    exact he N ρ e hρ fun x hx => hes x (Expr.mem_namesOf.mpr ⟨e, hmem, hx⟩)
  cases e with
  | int v => exact .pure rfl
  | var x => exact readVariable_simulates (hnames x (List.mem_singleton.mpr rfl))
  | assign x e =>
    obtain ⟨hx, hnames⟩ := List.forall_mem_cons.mp hnames
    apply Simulates.ite (hρ.empty hx).symm (.throw _)
    apply (he N ρ e hρ hnames).bind
    rintro v _ rfl
    have hassign : Simulates (LocalsRenamed N ρ) Eq (modify fun s => s.assign x v : Scoped Unit)
        (modify fun s => s.assign (ρ x) v) := .modify fun s t hst => assign_alike hρ hx v hst
    exact hassign.bind fun _ _ _ => .pure rfl
  | binary op l r =>
    obtain ⟨hl, hr⟩ := List.forall_mem_append.mp hnames
    apply (he N ρ l hρ hl).bind
    rintro v _ rfl
    apply (he N ρ r hρ hr).bind
    rintro w _ rfl
    exact .ofExcept _
  | block b =>
    rw [Expr.rename, Expr.renameAll_eq_map]
    exact evalBlock_simulates (hall hnames)
  | whileDo c b =>
    obtain ⟨hc, hb⟩ := List.forall_mem_append.mp hnames
    rw [Expr.rename, Expr.renameAll_eq_map]
    exact evalLoop_simulates (hall hb) (he N ρ c hρ hc) rounds
  | ifThen c b =>
    obtain ⟨hc, hb⟩ := List.forall_mem_append.mp hnames
    rw [Expr.rename, Expr.renameAll_eq_map]
    apply (he N ρ c hρ hc).bind
    rintro v _ rfl
    exact .ite Iff.rfl (.pure rfl) (evalBlock_simulates (hall hb))
  | ifElse c b d =>
    obtain ⟨hcb, hd⟩ := List.forall_mem_append.mp hnames
    obtain ⟨hc, hb⟩ := List.forall_mem_append.mp hcb
    rw [Expr.rename, Expr.renameAll_eq_map, Expr.renameAll_eq_map]
    apply (he N ρ c hρ hc).bind
    rintro v _ rfl
    exact .ite Iff.rfl (evalBlock_simulates (hall hd)) (evalBlock_simulates (hall hb))
  | print e =>
    apply (he N ρ e hρ hnames).bind
    rintro v _ rfl
    exact (printValue_simulates v).bind fun _ _ _ => .pure rfl
  | call f arguments =>
    obtain ⟨-, hnames⟩ := List.forall_mem_cons.mp hnames
    rw [Expr.rename, Expr.renameAll_eq_map]
    exact evalCall_simulates (hall hnames) he f

/-- Evaluation follows every renaming that keeps the names of the expression apart. -/
theorem evalAtFuel_follows (fuel : Nat) : Follows (evalAtFuel fuel) := by
  induction fuel with
  | zero => exact fun _ _ _ _ _ => .outOfFuel
  | succ fuel ih => exact fun _ _ _ hρ hnames => evalExpr_simulates ih fuel hρ hnames

/-! ### What is seen of the ends -/

/-- Ends that are alike look the same from outside of calls. -/
theorem EndAlike.visible_eq {ends ends' : Option (Except EvalError α × Scopes)}
    (h : EndAlike L Eq ends ends') :
    ends'.map (fun (result, s) => (result, s.globals.get?, s.sink)) =
      ends.map fun (result, s) => (result, s.globals.get?, s.sink) := by
  have hsame : ∀ {s t : Scopes} (result : Except EvalError α), s.Alike L t →
      (result, t.globals.get?, t.sink) = (result, s.globals.get?, s.sink) := by
    intro s t result hst
    rw [hst.sink, funext hst.globals]
  cases h with
  | value hab hst =>
    cases hab
    exact congrArg some (hsame _ hst)
  | error hst => exact congrArg some (hsame _ hst)
  | outOfFuel => rfl

end Scoped

/-- What is seen of a run is seen in its scopes. -/
theorem Outcome.visible_eq_onScopes {α : Type} (outcome : Outcome α) :
    outcome.visible = outcome.onScopes.map fun (result, s) => (result, s.globals.get?, s.sink) := by
  have hglobals : ∀ m : Machine, m.globalOf? = m.scopes.globals.get? := by
    intro m
    funext x
    exact Environment.own?_eq_get? _ x
  cases outcome with
  | value a m => simp [Outcome.visible, ending?, onScopes, hglobals, Machine.scopes]
  | error reason m => simp [Outcome.visible, ending?, onScopes, hglobals, Machine.scopes]
  | outOfFuel => rfl

end Scriptlet
