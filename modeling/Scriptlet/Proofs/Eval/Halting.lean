import Mathlib.Order.Filter.AtTopBot.Basic
import Scriptlet.Proofs.Eval.Evaluative

/-!
# Evaluations that come to an end

An action halts with a program if it ends, with a value or an error, wherever only functions of the
program are known, and only those are known afterwards (`Action.Halts`). The steps of evaluation halt,
and sequences and calls halt if what they are made of does. An expression that holds no loop therefore
halts if the bodies of the functions that it calls do. How much fuel it takes is not kept account of:
what holds at all large enough fuels holds there together with other such facts.

* `eventually_halts`: an expression without loops halts at all large enough fuels if the bodies of the
  functions that it calls do.
-/

namespace Scriptlet

open Filter
open Scriptlet.Action

/-! ### Expressions without loops -/

mutual

/-- Whether no loop stands anywhere in an expression. -/
def Expr.loopFree : Expr → Bool
  | .int _ => true
  | .var _ => true
  | .assign _ e => e.loopFree
  | .binary _ l r => l.loopFree && r.loopFree
  | .block b => Expr.allLoopFree b
  | .whileDo _ _ => false
  | .ifThen e b => e.loopFree && Expr.allLoopFree b
  | .ifElse e b d => e.loopFree && Expr.allLoopFree b && Expr.allLoopFree d
  | .print e => e.loopFree
  | .call _ a => Expr.allLoopFree a

/-- Whether no loop stands anywhere in several expressions. -/
def Expr.allLoopFree : List Expr → Bool
  | [] => true
  | e :: es => e.loopFree && Expr.allLoopFree es

end

/-! ### Actions that halt -/

/-- Only functions of the program are known, under their own names. -/
def Machine.KnowsOnly (p : Program) (m : Machine) : Prop :=
  ∀ (name : String) (f : Function), m.functions.get? name = some f →
    .function f ∈ p.definitions ∧ f.name = name

/-- An action has ended where only functions of the program are known. -/
inductive Outcome.Halted {α : Type} (p : Program) : Outcome α → Prop where
  | value {a : α} {m : Machine} : m.KnowsOnly p → Outcome.Halted p (.value a m)
  | error {reason : EvalError} {m : Machine} : m.KnowsOnly p → Outcome.Halted p (.error reason m)

namespace Action

/-- From wherever only functions of the program are known, the action comes to an end. -/
def Halts {α : Type} (p : Program) (act : Action α) : Prop :=
  ∀ m : Machine, m.KnowsOnly p → (act m).Halted p

variable {α β : Type} {p : Program} {act : Action α}

/-- Reading a variable halts. -/
theorem readVariable_halts (name : String) : Halts p (readVariable name) := by
  intro m hm
  unfold readVariable
  rw [bind_value (read_apply _ m)]
  cases m.valueOf? name with
  | none => exact .error hm
  | some v => exact .value hm

/-- Printing a value halts. -/
theorem printValue_halts (v : Value) : Halts p (printValue v) := by
  intro m hm
  unfold printValue
  split
  · exact .value hm
  · exact .error hm

namespace Halts

/-- A value is given at once. -/
theorem pure (a : α) : Halts p (pure a : Action α) :=
  fun _ hm => .value hm

/-- A failure ends at once. -/
theorem fail (reason : EvalError) : Halts p (fail reason : Action α) :=
  fun _ hm => .error hm

/-- A result that is there already is given at once. -/
theorem ofExcept (result : Except EvalError α) : Halts p (ofExcept result) := by
  cases result with
  | ok a => exact .pure a
  | error reason => exact .fail reason

/-- A change halts if it makes no other function known. -/
theorem change {f : Machine → Machine} (h : ∀ m : Machine, m.KnowsOnly p → (f m).KnowsOnly p) :
    Halts p (change f) :=
  fun m hm => .value (h m hm)

/-- A report halts. -/
theorem record (event : Event) : Halts p (record event) :=
  change fun _ hm => hm

/-- A choice halts if its alternatives do. -/
theorem ite {c : Prop} [Decidable c] {act' : Action α} (h : Halts p act) (h' : Halts p act') :
    Halts p (if c then act else act') := by
  split
  · exact h
  · exact h'

/-- A sequence halts if its parts do. -/
theorem bind {f : α → Action β} (h : Halts p act) (hf : ∀ a, Halts p (f a)) :
    Halts p (act >>= f) := by
  intro m hm
  have hends := h m hm
  generalize hout : act m = outcome at hends
  cases hends with
  | value hn =>
    rw [bind_value hout]
    exact hf _ _ hn
  | error hn =>
    rw [bind_error hout]
    exact .error hn

/-- What surrounds an action that halts halts, if its two changes make no other function known. -/
theorem within {enter leave : Machine → Machine} (h : Halts p act)
    (henter : ∀ m : Machine, m.KnowsOnly p → (enter m).KnowsOnly p)
    (hleave : ∀ m : Machine, m.KnowsOnly p → (leave m).KnowsOnly p) :
    Halts p (within enter leave act) := by
  intro m hm
  have hends := h _ (henter m hm)
  generalize hout : act (enter m) = outcome at hends
  cases hends with
  | value hn =>
    rw [within_value hout]
    exact .value (hleave _ hn)
  | error hn =>
    rw [within_error hout]
    exact .error (hleave _ hn)

/-- Reports around an action do not keep it from halting. -/
theorem within_record (h : Halts p act) (event event' : Event) :
    Halts p (Action.within (·.record event) (·.record event') act) :=
  h.within (fun _ hm => hm) fun _ hm => hm

/-- Expressions halt one after the other if each of them does. -/
theorem evalFrom {eval : Expr → Action Value} (last : Value) {b : Block}
    (h : ∀ e ∈ b, Halts p (eval e)) : Halts p (evalFrom eval last b) := by
  induction b generalizing last with
  | nil => exact .pure last
  | cons e es ih =>
    obtain ⟨he, hes⟩ := List.forall_mem_cons.mp h
    exact he.bind fun v => ih v hes

/-- A block halts if its expressions do. -/
theorem evalBlock {eval : Expr → Action Value} {b : Block} (h : ∀ e ∈ b, Halts p (eval e)) :
    Halts p (evalBlock eval b) :=
  .evalFrom 0 h

/-- Arguments halt if each of them does. -/
theorem evalArguments {eval : Expr → Action Value} {es : List Expr} (h : ∀ e ∈ es, Halts p (eval e)) :
    Halts p (evalArguments eval es) := by
  induction es with
  | nil => exact .pure []
  | cons e es ih =>
    obtain ⟨he, hes⟩ := List.forall_mem_cons.mp h
    exact he.bind fun v => (ih hes).bind fun vs => .pure (v :: vs)

/-- What is done with a function that is found need halt for the functions of the program only. -/
theorem findFunction_bind {q : Function → Action α} {name : String} {given : Nat}
    (h : ∀ f, .function f ∈ p.definitions → f.name = name → Halts p (q f)) :
    Halts p (findFunction name given >>= q) := by
  intro m hm
  have hfind := findFunction_apply name given m
  cases hget : m.functions.get? name with
  | none =>
    rw [hget] at hfind
    rw [bind_error hfind]
    exact .error hm
  | some f =>
    obtain ⟨hf, hname⟩ := hm name f hget
    rw [hget] at hfind
    dsimp only at hfind
    split at hfind
    case isTrue =>
      rw [bind_value hfind]
      exact h f hf hname m hm
    case isFalse =>
      rw [bind_error hfind]
      exact .error hm

/-- A call halts if its arguments and the bodies of the functions of its name do. -/
theorem evalCall {eval : Expr → Action Value} {name : String} {arguments : List Expr}
    (harguments : ∀ e ∈ arguments, Halts p (eval e))
    (hbodies : ∀ f, .function f ∈ p.definitions → f.name = name → ∀ e ∈ f.body, Halts p (eval e)) :
    Halts p (evalCall eval name arguments) := by
  apply within_record
  apply findFunction_bind
  intro f hf hname
  apply (evalArguments harguments).bind
  intro values
  exact (evalBlock (hbodies f hf hname)).within (fun _ hm => hm) fun _ hm => hm

end Halts

end Action

/-! ### Evaluation at large fuels -/

variable {p : Program}

/-- The bodies of all functions of a name halt. -/
def Program.BodiesHalt (p : Program) (name : String) (fuel : Nat) : Prop :=
  ∀ f, .function f ∈ p.definitions → f.name = name → ∀ e ∈ f.body, Halts p (evalAtFuel fuel e)

/-- An expression is evaluated at one fuel more than its parts. -/
theorem eventually_evaluate {e : Expr}
    (h : ∀ᶠ fuel in atTop, Halts p (evalExpr (evalAtFuel fuel) fuel e)) :
    ∀ᶠ fuel in atTop, Halts p (evalAtFuel fuel e) := by
  rw [← map_add_atTop_eq_nat 1, eventually_map]
  filter_upwards [h] with fuel h
  exact (Halts.record (.evaluate e)).bind fun _ => h

mutual

/-- An expression without loops halts at all large enough fuels if the bodies of the functions that it
calls do. -/
theorem eventually_halts : (e : Expr) → e.loopFree →
    (∀ name ∈ e.callees, ∀ᶠ fuel in atTop, p.BodiesHalt name fuel) →
    ∀ᶠ fuel in atTop, Halts p (evalAtFuel fuel e)
  | .int v, _, _ => eventually_evaluate (.of_forall fun _ => .pure v)
  | .var x, _, _ => eventually_evaluate (.of_forall fun _ => readVariable_halts x)
  | .assign x e, hloop, hcallees => by
    apply eventually_evaluate
    filter_upwards [eventually_halts e hloop hcallees] with fuel he
    exact .ite (.fail _) (he.bind fun v => .bind (.change fun _ hm => hm) fun _ => .pure v)
  | .binary op l r, hloop, hcallees => by
    obtain ⟨hl, hr⟩ := Bool.and_eq_true_iff.mp hloop
    obtain ⟨hcl, hcr⟩ := List.forall_mem_append.mp hcallees
    apply eventually_evaluate
    filter_upwards [eventually_halts l hl hcl, eventually_halts r hr hcr] with fuel hl hr
    exact hl.bind fun v => hr.bind fun w => .ofExcept _
  | .block b, hloop, hcallees => by
    apply eventually_evaluate
    filter_upwards [eventually_all_halt b hloop hcallees] with fuel hb
    exact .evalBlock hb
  | .ifThen c b, hloop, hcallees => by
    obtain ⟨hc, hb⟩ := Bool.and_eq_true_iff.mp hloop
    obtain ⟨hcc, hcb⟩ := List.forall_mem_append.mp hcallees
    apply eventually_evaluate
    filter_upwards [eventually_halts c hc hcc, eventually_all_halt b hb hcb] with fuel hc hb
    exact hc.bind fun v => .ite (.pure 1) (.evalBlock hb)
  | .ifElse c b d, hloop, hcallees => by
    obtain ⟨hcb, hd⟩ := Bool.and_eq_true_iff.mp hloop
    obtain ⟨hc, hb⟩ := Bool.and_eq_true_iff.mp hcb
    obtain ⟨hccb, hcd⟩ := List.forall_mem_append.mp hcallees
    obtain ⟨hcc, hcb⟩ := List.forall_mem_append.mp hccb
    apply eventually_evaluate
    filter_upwards [eventually_halts c hc hcc, eventually_all_halt b hb hcb,
      eventually_all_halt d hd hcd] with fuel hc hb hd
    exact hc.bind fun v => .ite (.evalBlock hd) (.evalBlock hb)
  | .print e, hloop, hcallees => by
    apply eventually_evaluate
    filter_upwards [eventually_halts e hloop hcallees] with fuel he
    exact he.bind fun v => (printValue_halts v).bind fun _ => .pure v
  | .call f arguments, hloop, hcallees => by
    obtain ⟨hf, ha⟩ := List.forall_mem_cons.mp hcallees
    apply eventually_evaluate
    filter_upwards [eventually_all_halt arguments hloop ha, hf] with fuel ha hf
    exact .evalCall ha hf

/-- Expressions without loops all halt at large enough fuels if the bodies of the functions that they
call do. -/
theorem eventually_all_halt : (es : List Expr) → Expr.allLoopFree es →
    (∀ name ∈ Expr.calleesOf es, ∀ᶠ fuel in atTop, p.BodiesHalt name fuel) →
    ∀ᶠ fuel in atTop, ∀ e ∈ es, Halts p (evalAtFuel fuel e)
  | [], _, _ => .of_forall fun _ => nofun
  | e :: es, hloop, hcallees => by
    obtain ⟨he, hes⟩ := Bool.and_eq_true_iff.mp hloop
    obtain ⟨hce, hces⟩ := List.forall_mem_append.mp hcallees
    filter_upwards [eventually_halts e he hce, eventually_all_halt es hes hces] with fuel he hes
    exact List.forall_mem_cons.mpr ⟨he, hes⟩

end

end Scriptlet
