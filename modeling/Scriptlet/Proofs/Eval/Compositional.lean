import Scriptlet.Proofs.Eval.Evaluative

/-!
# Properties that pass from steps to runs

Evaluation and runs are put together from a few steps: reading and writing variables, looking up and
registering functions, printing and reporting. A property of actions that all of these steps have, and
that sequences and calls inherit (`Compositional`), is one of the properties of evaluation
(`Compositional.evaluative`), and holds of every run, at any fuel.

* `Compositional.evalAtFuel`, `Compositional.evalBlockAtFuel`: evaluation has the property.
* `Compositional.runAtFuel`: runs of programs have it.
-/

namespace Scriptlet

open Scriptlet.Action

/-- A property that the steps of a run have, and that what is put together from actions has if the
actions do. -/
structure Compositional (P : (α : Type) → Action α → Prop) : Prop where
  pure : ∀ {α : Type} (a : α), P α (pure a)
  fail : ∀ {α : Type} (reason : EvalError), P α (fail reason)
  outOfFuel : ∀ {α : Type}, P α outOfFuel
  bind : ∀ {α β : Type} {p : Action α} {f : α → Action β},
    P α p → (∀ a, P β (f a)) → P β (p >>= f)
  readValue : ∀ name : String, P _ (read fun m => m.valueOf? name)
  readFunction : ∀ name : String, P _ (read fun m => m.functions.get? name)
  assign : ∀ (name : String) (v : Value), P _ (change fun m => (m.assign name v).2)
  defineGlobal : ∀ (name : String) (v : Value), P _ (change fun m => m.defineGlobal name v)
  register : ∀ f : Function, P _ (change fun m => m.register f)
  printValue : ∀ v : Value, P _ (printValue v)
  record : ∀ event : Event, P _ (record event)
  /-- The reports at the two ends of a call. -/
  withinCall : ∀ {α : Type} {p : Action α} (name : String) (given : Nat),
    P α p → P α (within (·.record (.enterCall name given)) (·.record .exitCall) p)
  /-- The reports at the two ends of a run. -/
  withinMain : ∀ {α : Type} {p : Action α} (definitions : Nat),
    P α p → P α (within (·.record (.enterMain definitions)) (·.record .exitMain) p)
  /-- The frame of a call. -/
  withinFrame : ∀ {α : Type} {p : Action α} (bindings : List (String × Value)),
    P α p → P α (within (·.enterFrame bindings) (·.leaveFrame) p)

namespace Compositional

variable {P : (α : Type) → Action α → Prop}

variable (hP : Compositional P)

include hP

/-- What gives a result or an error at once has the property. -/
theorem ofExcept {α : Type} (result : Except EvalError α) : P α (ofExcept result) := by
  cases result with
  | ok a => exact hP.pure a
  | error reason => exact hP.fail reason

/-- Variables have it, bound or not. -/
theorem readVariable (name : String) : P _ (readVariable name) := by
  apply hP.bind (hP.readValue name)
  intro found
  cases found with
  | none => exact hP.fail _
  | some v => exact hP.pure v

/-- The search for a function has it, whether it is found or not. -/
theorem findFunction (name : String) (given : Nat) : P _ (findFunction name given) := by
  apply hP.bind (hP.readFunction name)
  intro found
  cases found with
  | none => exact hP.fail _
  | some f => exact Sequential.branch (hP.pure f) (hP.fail _)

/-- The steps of an evaluation are among the steps of a run. -/
theorem evaluative : Evaluative (fun _ => True) P where
  pure := hP.pure
  outOfFuel := hP.outOfFuel
  bind := hP.bind
  readVariable := hP.readVariable
  findFunction := fun name given hq =>
    hP.bind (hP.findFunction name given) fun f => hq f fun _ _ => trivial
  operator := fun _ _ _ => hP.ofExcept _
  assign := fun name v _ => hP.assign name v
  emptyTarget := fun _ => hP.fail _
  printValue := hP.printValue
  evaluate := fun _ => hP.record _
  withinCall := hP.withinCall
  withinFrame := hP.withinFrame

/-- Expressions have it at every fuel. -/
theorem evalAtFuel (fuel : Nat) (e : Expr) : P _ (evalAtFuel fuel e) :=
  hP.evaluative.evalAtFuel fuel e fun _ _ => trivial

/-- Blocks have it at every fuel. -/
theorem evalBlockAtFuel (fuel : Nat) (b : Block) : P _ (evalBlockAtFuel fuel b) :=
  hP.evaluative.evalBlockAtFuel fuel fun _ _ => trivial

/-! ### Runs -/

/-- A definition has it, as the check of a function or the evaluation of a global variable. -/
theorem declareAtFuel (fuel : Nat) (d : Definition) : P _ (declareAtFuel fuel d) := by
  cases d with
  | function f =>
    cases h : f.malformation? with
    | some reason =>
      simp only [Scriptlet.declareAtFuel, h]
      exact hP.fail _
    | none =>
      simp only [Scriptlet.declareAtFuel, h]
      exact hP.register f
  | global x e =>
    apply hP.bind (hP.evalAtFuel fuel e)
    intro v
    exact hP.bind (hP.defineGlobal x v) fun _ => hP.record _

/-- Definitions in order have it. -/
theorem declareAllAtFuel (fuel : Nat) (ds : List Definition) : P _ (declareAllAtFuel fuel ds) := by
  induction ds with
  | nil => exact hP.pure ()
  | cons d ds ih => exact hP.bind (hP.declareAtFuel fuel d) fun _ => ih

/-- The entry point has it, if there is one. -/
theorem enterProgramAtFuel (fuel : Nat) : P _ (enterProgramAtFuel fuel) := by
  apply hP.bind (hP.readFunction entryName)
  intro found
  cases found with
  | none => exact hP.fail _
  | some main =>
    apply hP.bind (hP.evalBlockAtFuel fuel main.body)
    intro v
    exact hP.bind (hP.record _) fun _ => hP.pure v

/-- Runs of programs have it. -/
theorem runAtFuel (fuel : Nat) (p : Program) : P _ (runAtFuel fuel p) := by
  apply hP.withinMain
  apply Sequential.branch _ (hP.fail _)
  exact hP.bind (hP.declareAllAtFuel fuel p.definitions) fun _ => hP.enterProgramAtFuel fuel

end Compositional

end Scriptlet
