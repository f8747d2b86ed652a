import Scriptlet.Eval.Program

/-!
# What is seen of a run

A run that ends has a value or an error and leaves a machine (`Outcome.ending?`). A sequence ends in one
of its parts (`Action.bind_eq_value_iff`, `Action.bind_eq_error_iff`). Of the machine one may look at
everything, or only at what the rest of a program can tell apart outside of calls: the global variables
and the sink (`Outcome.visible`). The expressions that a run came to, in order, are in its journal if
someone listens (`Journal.evaluated`).
-/

namespace Scriptlet

/-- How an action ends, if it does, and the machine that it leaves. -/
def Outcome.ending? {α : Type} : Outcome α → Option (Except EvalError α × Machine)
  | .value a m => some (.ok a, m)
  | .error reason m => some (.error reason, m)
  | .outOfFuel => none

/-- The same ending at another machine. -/
def Outcome.mapState {α : Type} (f : Machine → Machine) : Outcome α → Outcome α
  | .value a m => .value a (f m)
  | .error reason m => .error reason (f m)
  | .outOfFuel => .outOfFuel

/-- Two changes of the machine after an ending are one change. -/
theorem Outcome.mapState_mapState {α : Type} (f g : Machine → Machine) (outcome : Outcome α) :
    (outcome.mapState f).mapState g = outcome.mapState fun m => g (f m) := by
  cases outcome <;> rfl

/-- A change of the machine leaves how an action ends as it is. -/
theorem Outcome.ending?_mapState {α : Type} (f : Machine → Machine) (outcome : Outcome α) :
    (outcome.mapState f).ending? = outcome.ending?.map fun (result, m) => (result, f m) := by
  cases outcome <;> rfl

/-- An action that ends with a value has this value. -/
theorem Outcome.ending?_eq_ok_iff {α : Type} {outcome : Outcome α} {a : α} {m : Machine} :
    outcome.ending? = some (.ok a, m) ↔ outcome = .value a m := by
  cases outcome <;> simp [ending?]

/-- An action that ends with an error has this error. -/
theorem Outcome.ending?_eq_error_iff {α : Type} {outcome : Outcome α} {reason : EvalError}
    {m : Machine} : outcome.ending? = some (.error reason, m) ↔ outcome = .error reason m := by
  cases outcome <;> simp [ending?]

/-! ### Sequences -/

namespace Action

variable {α β : Type} {p : Action α} {f : α → Action β} {m n : Machine}

/-- What surrounds an action changes the machines before and after it, and nothing else. -/
theorem within_eq_mapState (enter leave : Machine → Machine) (p : Action α) (m : Machine) :
    within enter leave p m = (p (enter m)).mapState leave := by
  unfold within
  cases p (enter m) <;> rfl

/-- A sequence gives a value exactly if its parts do. -/
theorem bind_eq_value_iff {b : β} :
    (p >>= f) m = .value b n ↔ ∃ a k, p m = .value a k ∧ f a k = .value b n := by
  cases h : p m with
  | value a k =>
    rw [bind_value h]
    constructor
    · exact fun hf => ⟨a, k, rfl, hf⟩
    · rintro ⟨_, _, heq, hf⟩
      cases heq
      exact hf
  | error reason k => simp [bind_error h]
  | outOfFuel => simp [bind_outOfFuel h]

/-- A sequence fails exactly if its first part does, or its second part after the first one. -/
theorem bind_eq_error_iff {reason : EvalError} :
    (p >>= f) m = .error reason n ↔
      p m = .error reason n ∨ ∃ a k, p m = .value a k ∧ f a k = .error reason n := by
  cases h : p m with
  | value a k =>
    rw [bind_value h]
    constructor
    · exact fun hf => .inr ⟨a, k, rfl, hf⟩
    · rintro (heq | ⟨_, _, heq, hf⟩)
      · cases heq
      · cases heq
        exact hf
  | error reason k => simp [bind_error h]
  | outOfFuel => simp [bind_outOfFuel h]

end Action

/-! ### What can be looked at -/

/-- The value of a global variable. -/
def Machine.globalOf? (m : Machine) (name : String) : Option Value :=
  m.environment.own? Environment.global name

/-- How an action ends, if it does, with the global variables and the sink that it leaves. -/
def Outcome.visible {α : Type} (outcome : Outcome α) :
    Option (Except EvalError α × (String → Option Value) × Sink) :=
  outcome.ending?.map fun (result, m) => (result, m.globalOf?, m.sink)

/-- The expression that comes next, in a report of one. -/
def Event.expression? : Event → Option Expr
  | .evaluate e => some e
  | .enterMain _ | .exitMain | .enterCall _ _ | .exitCall | .globalDefined _ _ | .mainReturned _ =>
    none

/-- The expressions that were come to, in order. -/
def Journal.evaluated (j : Journal) : List Expr :=
  j.events.filterMap Event.expression?

namespace Journal

/-- A journal that keeps everything has a reported expression at its end. -/
theorem evaluated_record_evaluate {j : Journal} (h : j.listening) (e : Expr) :
    (j.record (.evaluate e)).evaluated = j.evaluated ++ [e] := by
  unfold evaluated
  rw [events_record h, List.filterMap_append]
  rfl

/-- Other reports are about no expression. -/
theorem evaluated_record {event : Event} (h : event.expression? = none) (j : Journal) :
    (j.record event).evaluated = j.evaluated := by
  by_cases hj : j.listening
  · unfold evaluated
    rw [events_record hj, List.filterMap_append, List.filterMap_cons_none h, List.filterMap_nil,
      List.append_nil]
  · unfold record
    rw [if_neg hj]

/-- A report takes nothing back. -/
theorem evaluated_prefix_record (j : Journal) (event : Event) :
    j.evaluated <+: (j.record event).evaluated := by
  by_cases hj : j.listening
  · unfold evaluated
    rw [events_record hj, List.filterMap_append]
    exact List.prefix_append _ _
  · have hsame : j.record event = j := if_neg hj
    exact hsame.symm ▸ List.prefix_refl j.evaluated

end Journal

end Scriptlet
