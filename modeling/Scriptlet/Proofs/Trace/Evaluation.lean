import Scriptlet.Proofs.Eval.Evaluative
import Scriptlet.Proofs.Eval.Observation
import Scriptlet.Proofs.Trace.Nesting

/-!
# What evaluation reports

An action tells a trace if, however it ends, what it has added to the journal is one that `Told` builds
from expressions and calls. Actions that report nothing do, and so do sequences. The report of an
expression that calls and the report that enters the call come from two places, the evaluation of any
expression and the call itself, so that a call tells a trace only together with its expression
(`evalCall_tells`). The statement for evaluation is by induction on fuel, with one case for expressions
that call and one for all others.

* `evalAtFuel_tells`, `evalBlockAtFuel_tells`: every evaluation tells a trace, also one that fails.
-/

namespace Scriptlet

namespace Journal

/-- Adds several reports, one after the other. -/
def recordAll (j : Journal) (events : List Event) : Journal :=
  events.foldl record j

/-- Without reports the journal stays. -/
@[simp] theorem recordAll_nil (j : Journal) : j.recordAll [] = j := rfl

/-- The first report is made first. -/
@[simp] theorem recordAll_cons (j : Journal) (event : Event) (events : List Event) :
    j.recordAll (event :: events) = (j.record event).recordAll events := rfl

/-- Reports after reports are made in this order. -/
@[simp] theorem recordAll_append (j : Journal) (events events' : List Event) :
    j.recordAll (events ++ events') = (j.recordAll events).recordAll events' :=
  List.foldl_append

/-- A journal that keeps everything has new reports at its end. -/
theorem events_recordAll {j : Journal} (h : j.listening) (events : List Event) :
    (j.recordAll events).events = j.events ++ events := by
  induction events generalizing j with
  | nil => rw [recordAll_nil, List.append_nil]
  | cons event events ih =>
    have hlistening : (j.record event).listening := by rwa [listening_record]
    rw [recordAll_cons, ih hlistening, events_record h, List.append_assoc, List.singleton_append]

end Journal

namespace Action

variable {α β : Type} {p : Action α}

/-- However the action ends, it has reported expressions and whole calls. -/
def Tells (p : Action α) : Prop :=
  ∀ (m : Machine) (result : Except EvalError α) (n : Machine), (p m).ending? = some (result, n) →
    ∃ told, Told Event.IsStep told ∧ n.journal = m.journal.recordAll told

namespace Tells

/-- An action that reports nothing. -/
theorem silent (h : ∀ m result n, (p m).ending? = some (result, n) → n.journal = m.journal) :
    Tells p :=
  fun m result n hends => ⟨[], .nil, h m result n hends⟩

/-- A value is given without a report. -/
theorem pure (a : α) : Tells (pure a) := by
  apply silent
  rintro m _ _ ⟨⟩
  rfl

/-- An error is raised without a report. -/
theorem fail (reason : EvalError) : Tells (fail reason : Action α) := by
  apply silent
  rintro m _ _ ⟨⟩
  rfl

/-- An action that does not end tells nothing that could be looked at. -/
theorem outOfFuel : Tells (outOfFuel : Action α) :=
  silent fun _ _ _ h => nomatch h

/-- A result that is there already is given without a report. -/
theorem ofExcept (result : Except EvalError α) : Tells (ofExcept result) := by
  cases result with
  | ok a => exact pure a
  | error reason => exact fail reason

/-- A change that leaves the journal as it is tells nothing. -/
theorem change {f : Machine → Machine} (h : ∀ m, (f m).journal = m.journal) : Tells (change f) := by
  apply silent
  rintro m _ _ ⟨⟩
  exact h m

/-- A sequence tells what its parts tell, one after the other. -/
theorem bind {f : α → Action β} (hp : Tells p) (hf : ∀ a, Tells (f a)) : Tells (p >>= f) := by
  intro m result n hends
  cases hfirst : p m with
  | value a k =>
    rw [bind_value hfirst] at hends
    obtain ⟨told, htold, hk⟩ := hp m (.ok a) k (by rw [hfirst]; rfl)
    obtain ⟨told', htold', hn⟩ := hf a k result n hends
    exact ⟨told ++ told', htold.append htold', by rw [hn, hk, Journal.recordAll_append]⟩
  | error reason k =>
    rw [bind_error hfirst] at hends
    cases hends
    exact hp m (.error reason) n (by rw [hfirst]; rfl)
  | outOfFuel =>
    rw [bind_outOfFuel hfirst] at hends
    cases hends

/-- What actions tell is built up along sequences. -/
theorem sequential : Sequential fun _ => Tells :=
  ⟨pure, outOfFuel, bind⟩

end Tells

/-- How an action ends between two changes, and at which machine it ended itself. -/
theorem within_ending?_eq_some {enter leave : Machine → Machine} {m n : Machine}
    {result : Except EvalError α} (h : (within enter leave p m).ending? = some (result, n)) :
    ∃ k, (p (enter m)).ending? = some (result, k) ∧ n = leave k := by
  rw [within_eq_mapState, Outcome.ending?_mapState] at h
  obtain ⟨⟨_, k⟩, hends, heq⟩ := Option.map_eq_some_iff.mp h
  cases heq
  exact ⟨k, hends, rfl⟩

/-- The frame of a call is not reported. -/
theorem Tells.withinFrame (hp : Tells p) (bindings : List (String × Value)) :
    Tells (within (·.enterFrame bindings) (·.leaveFrame) p) := by
  intro m result n h
  obtain ⟨k, hends, rfl⟩ := within_ending?_eq_some h
  exact hp (m.enterFrame bindings) result k hends

end Action

open Scriptlet.Action

/-! ### Steps -/

/-- A variable is read without a report. -/
theorem readVariable_tells (name : String) : Tells (readVariable name) := by
  apply Tells.silent
  intro m result n h
  unfold readVariable at h
  rw [bind_value (read_apply _ m)] at h
  cases hvalue : m.valueOf? name <;> rw [hvalue] at h <;> cases h <;> rfl

/-- A value is printed without a report. -/
theorem printValue_tells (v : Value) : Tells (printValue v) := by
  apply Tells.silent
  intro m result n h
  unfold printValue at h
  split at h <;> cases h <;> rfl

/-- A function is looked up without a report. -/
theorem findFunction_tells (name : String) (given : Nat) : Tells (findFunction name given) := by
  apply Tells.silent
  intro m result n h
  rw [findFunction_apply] at h
  split at h
  · cases h
    rfl
  · split at h <;> cases h <;> rfl

/-! ### Evaluation -/

section nested

variable {eval : Expr → Action Value} (heval : ∀ e, Tells (eval e))

include heval

/-- A block tells what its expressions tell. -/
theorem evalBlock_tells (b : Block) : Tells (evalBlock eval b) :=
  Tells.sequential.evalBlock fun e _ => heval e

/-- A call reports its two ends, and between them a trace: nothing if there is no function to call, and
otherwise what its arguments and the body tell. -/
theorem evalCall_tells (name : String) (arguments : List Expr) {m n : Machine}
    {result : Except EvalError Value}
    (h : (evalCall eval name arguments m).ending? = some (result, n)) :
    ∃ told, Told Event.IsStep told ∧ n.journal =
      m.journal.recordAll (.enterCall name arguments.length :: (told ++ [.exitCall])) := by
  obtain ⟨k, hends, rfl⟩ := within_ending?_eq_some h
  have hcall : Tells (do
      let f ← findFunction name arguments.length
      let values ← evalArguments eval arguments
      within (·.enterFrame (f.parameters.zip values)) (·.leaveFrame) (evalBlock eval f.body)) :=
    (findFunction_tells name _).bind fun f =>
      (Tells.sequential.evalArguments fun e _ => heval e).bind fun values =>
        (evalBlock_tells heval f.body).withinFrame _
  obtain ⟨told, htold, hk⟩ := hcall _ result k hends
  refine ⟨told, htold, ?_⟩
  rw [Journal.recordAll_cons, Journal.recordAll_append]
  exact congrArg (·.record .exitCall) hk

/-- An expression that does not call tells what its parts tell. -/
theorem evalExpr_tells (rounds : Nat) {e : Expr} (he : ∀ f arguments, e ≠ .call f arguments) :
    Tells (evalExpr eval rounds e) := by
  cases e with
  | int v => exact .pure v
  | var x => exact readVariable_tells x
  | assign x e =>
    refine Sequential.branch (.fail _) ((heval e).bind fun v => ?_)
    have hassign : Tells (change fun m => (m.assign x v).2) := .change fun m => rfl
    exact hassign.bind fun _ => .pure v
  | binary op l r => exact (heval l).bind fun v => (heval r).bind fun w => .ofExcept _
  | block b => exact evalBlock_tells heval b
  | whileDo c b => exact Tells.sequential.evalLoop (heval c) (fun e _ => heval e) rounds
  | ifThen c b => exact (heval c).bind fun v => Sequential.branch (.pure 1) (evalBlock_tells heval b)
  | ifElse c b d =>
    exact (heval c).bind fun v => Sequential.branch (evalBlock_tells heval d) (evalBlock_tells heval b)
  | print e => exact (heval e).bind fun v => (printValue_tells v).bind fun _ => .pure v
  | call f arguments => exact absurd rfl (he f arguments)

end nested

/-- Evaluation tells reports of expressions and nested calls, at any fuel. -/
theorem evalAtFuel_tells (fuel : Nat) (e : Expr) : Tells (evalAtFuel fuel e) := by
  induction fuel generalizing e with
  | zero => exact .outOfFuel
  | succ fuel ih =>
    intro m result n h
    rw [evalAtFuel_succ] at h
    by_cases he : ∃ f arguments, e = .call f arguments
    · obtain ⟨f, arguments, rfl⟩ := he
      obtain ⟨told, htold, hn⟩ := evalCall_tells ih f arguments h
      exact ⟨_, .call htold .nil, hn⟩
    · have hother : ∀ f arguments, e ≠ .call f arguments := fun f arguments heq =>
        he ⟨f, arguments, heq⟩
      obtain ⟨told, htold, hn⟩ := evalExpr_tells ih fuel hother _ result n h
      refine ⟨_, .report ?_ htold, hn⟩
      cases e <;> first | trivial | exact absurd rfl (hother _ _)

/-- The evaluation of blocks tells reports of expressions and nested calls. -/
theorem evalBlockAtFuel_tells (fuel : Nat) (b : Block) : Tells (evalBlockAtFuel fuel b) :=
  evalBlock_tells (evalAtFuel_tells fuel) b

end Scriptlet
