import Scriptlet.Proofs.Eval.Evaluative

/-!
# What evaluation never does

Wherever it starts and however it ends, an evaluation makes no function known and none forgotten, and
is back in the frame in which it started (`Machine.SamePlace`). It never misses an entry point, and no
tree is malformed to it but an assignment to the empty name, which it has to come upon in what it
evaluates or in a function that is known (`EvalError.Raised`).

* `evalAtFuel_confined`, `evalBlockAtFuel_confined`: this holds of every evaluation.
-/

namespace Scriptlet

open Scriptlet.Action

/-- The same functions are known, and the same frame is the current one. -/
structure Machine.SamePlace (before after : Machine) : Prop where
  functions : after.functions = before.functions
  current : after.environment.current = before.environment.current

/-- An evaluation may raise an error if it assigns to names of a kind only. -/
def EvalError.Raised (N : String → Prop) : EvalError → Prop
  | .malformed .emptyTarget => N ""
  | .malformed .unnamedFunction => False
  | .malformed (.repeatedParameter _ _) => False
  | .missingEntryPoint => False
  | .divisionByZero => True
  | .unboundVariable _ => True
  | .undefinedFunction _ => True
  | .arityMismatch _ _ _ => True
  | .overflow _ => True
  | .output _ => True

/-- An action that starts at a machine ends in the same place, and with an error only if that may be
raised. -/
inductive Outcome.Confined {α : Type} (N : String → Prop) (m : Machine) : Outcome α → Prop where
  | value {a : α} {n : Machine} : m.SamePlace n → Outcome.Confined N m (.value a n)
  | error {reason : EvalError} {n : Machine} :
      m.SamePlace n → reason.Raised N → Outcome.Confined N m (.error reason n)
  | outOfFuel : Outcome.Confined N m .outOfFuel

variable {N : String → Prop}

/-! ### Places -/

namespace Machine.SamePlace

variable {m n k : Machine}

/-- A machine is in its own place. -/
theorem refl (m : Machine) : m.SamePlace m :=
  ⟨rfl, rfl⟩

/-- The same place of the same place is the same place. -/
theorem trans (h : m.SamePlace k) (h' : k.SamePlace n) : m.SamePlace n :=
  ⟨h'.functions.trans h.functions, h'.current.trans h.current⟩

/-- The functions of the same place assign to the same names. -/
theorem assignsOnly (h : m.SamePlace n) (hm : m.AssignsOnly N) : n.AssignsOnly N := by
  unfold Machine.AssignsOnly
  rw [h.functions]
  exact hm

/-- An assignment adds no frame. -/
theorem assign (m : Machine) (name : String) (v : Value) : m.SamePlace (m.assign name v).2 := by
  refine ⟨rfl, ?_⟩
  show (m.environment.set _ name v).depth - 1 = m.environment.depth - 1
  rw [Environment.depth_set]

/-- From the frame of a call one gets back to the frame of its caller. -/
theorem leaveFrame {bindings : List (String × Value)} (h : (m.enterFrame bindings).SamePlace n) :
    m.SamePlace n.leaveFrame := by
  refine ⟨h.functions, ?_⟩
  have hentered : n.environment.depth - 1 = m.environment.depth := by
    have hpushed : (m.enterFrame bindings).environment.current = m.environment.depth := by
      show (Environment.setAll _ _ bindings).depth - 1 = m.environment.depth
      rw [Environment.depth_setAll, Environment.depth_push, Nat.add_sub_cancel]
    exact h.current.trans hpushed
  show n.environment.pop.depth - 1 = m.environment.depth - 1
  unfold Environment.pop
  split
  case isTrue =>
    have hpop : (Environment.mk n.environment.frames.pop).depth = n.environment.depth - 1 :=
      Array.size_pop
    rw [hpop, hentered]
  case isFalse => omega

end Machine.SamePlace

/-! ### Confined actions -/

namespace Action

variable {α β : Type} {p : Action α}

/-- The action is confined wherever the functions that are known assign to the names only. -/
def Confined (N : String → Prop) (p : Action α) : Prop :=
  ∀ m : Machine, m.AssignsOnly N → (p m).Confined N m

namespace Confined

/-- A confined action that gives a value ends in the place in which it started. -/
theorem of_value {m n : Machine} {a : α} (hp : Confined N p) (hm : m.AssignsOnly N)
    (h : p m = .value a n) : m.SamePlace n := by
  have hends := hp m hm
  rw [h] at hends
  cases hends with
  | value hn => exact hn

/-- A confined action that fails does so in that place as well, with an error that may be raised. -/
theorem of_error {m n : Machine} {reason : EvalError} (hp : Confined N p) (hm : m.AssignsOnly N)
    (h : p m = .error reason n) : m.SamePlace n ∧ reason.Raised N := by
  have hends := hp m hm
  rw [h] at hends
  cases hends with
  | error hn hreason => exact ⟨hn, hreason⟩

/-- What is confined to a place is so as seen from an earlier machine in that place. -/
theorem from_earlier {m k : Machine} {outcome : Outcome α} (hk : m.SamePlace k)
    (h : outcome.Confined N k) : outcome.Confined N m := by
  cases h with
  | value hn => exact .value (hk.trans hn)
  | error hn hreason => exact .error (hk.trans hn) hreason
  | outOfFuel => exact .outOfFuel

/-- A value is given in the same place. -/
theorem pure (a : α) : Confined N (pure a : Action α) :=
  fun m _ => .value (.refl m)

/-- A failure for an error that may be raised stays in place. -/
theorem fail {reason : EvalError} (h : reason.Raised N) : Confined N (fail reason : Action α) :=
  fun m _ => .error (.refl m) h

/-- An action that does not end need not be in any place. -/
theorem outOfFuel : Confined N (outOfFuel : Action α) :=
  fun _ _ => .outOfFuel

/-- A change is confined if it stays in place. -/
theorem change {f : Machine → Machine} (h : ∀ m : Machine, m.SamePlace (f m)) :
    Confined N (change f) :=
  fun m _ => .value (h m)

/-- A sequence is confined if its parts are. -/
theorem bind {f : α → Action β} (hp : Confined N p) (hf : ∀ a, Confined N (f a)) :
    Confined N (p >>= f) := by
  intro m hm
  cases h : p m with
  | value a k =>
    have hk := hp.of_value hm h
    rw [bind_value h]
    exact from_earlier hk (hf a k (hk.assignsOnly hm))
  | error reason k =>
    obtain ⟨hk, hreason⟩ := hp.of_error hm h
    rw [bind_error h]
    exact .error hk hreason
  | outOfFuel =>
    rw [bind_outOfFuel h]
    exact .outOfFuel

/-- What surrounds an action may restore the place that the action ends in. -/
theorem within {enter leave : Machine → Machine} (hp : Confined N p)
    (hfunctions : ∀ m, (enter m).functions = m.functions)
    (hleave : ∀ m n, (enter m).SamePlace n → m.SamePlace (leave n)) :
    Confined N (within enter leave p) := by
  intro m hm
  have henter : (enter m).AssignsOnly N := by
    unfold Machine.AssignsOnly
    rw [hfunctions m]
    exact hm
  cases h : p (enter m) with
  | value a k =>
    rw [within_value h]
    exact .value (hleave m k (hp.of_value henter h))
  | error reason k =>
    obtain ⟨hk, hreason⟩ := hp.of_error henter h
    rw [within_error h]
    exact .error (hleave m k hk) hreason
  | outOfFuel =>
    rw [within_outOfFuel h]
    exact .outOfFuel

end Confined

end Action

/-! ### Evaluation -/

/-- A variable that is unbound may be reported anywhere. -/
theorem readVariable_confined (name : String) : Confined N (readVariable name) := by
  have hread : Confined N (read fun m => m.valueOf? name) := fun m _ => .value (.refl m)
  refine hread.bind fun found => ?_
  cases found with
  | none => exact .fail trivial
  | some v => exact .pure v

/-- Printing is confined, whether the sink takes the value or not. -/
theorem printValue_confined (v : Value) : Confined N (printValue v) := by
  intro m _
  unfold printValue
  split
  · exact .value ⟨rfl, rfl⟩
  · exact .error ⟨rfl, rfl⟩ trivial

/-- Operators raise errors of their own only. -/
theorem operator_confined (op : Operator) (l r : Value) : Confined N (ofExcept (op.apply l r)) := by
  unfold Operator.apply
  split
  · exact .fail trivial
  · split
    · exact .pure _
    · exact .fail trivial

/-- The steps of evaluation are confined. The functions that are found are known ones. -/
theorem confined_evaluative (N : String → Prop) : Evaluative N fun _ => Confined N where
  pure := .pure
  outOfFuel := .outOfFuel
  bind := .bind
  readVariable := readVariable_confined
  findFunction := by
    intro α q name given hq m hm
    have hfound := findFunction_apply name given m
    cases h : m.functions.get? name with
    | none =>
      rw [h] at hfound
      rw [bind_error hfound]
      exact .error (.refl m) trivial
    | some f =>
      rw [h] at hfound
      dsimp only at hfound
      split at hfound
      · rw [bind_value hfound]
        exact hq f (hm name f h) m hm
      · rw [bind_error hfound]
        exact .error (.refl m) trivial
  operator := operator_confined
  assign := fun name v _ => .change fun m => .assign m name v
  emptyTarget := fun h => .fail h
  printValue := printValue_confined
  evaluate := fun _ => .change fun _ => ⟨rfl, rfl⟩
  withinCall := fun _ _ hp =>
    hp.within (fun _ => rfl) fun _ _ hk => ⟨hk.functions, hk.current⟩
  withinFrame := fun _ hp => hp.within (fun _ => rfl) fun _ _ hk => hk.leaveFrame

/-- An expression that assigns to the names only is confined at any fuel. -/
theorem evalAtFuel_confined (fuel : Nat) {e : Expr} (he : ∀ x ∈ e.targets, N x) :
    Confined N (evalAtFuel fuel e) :=
  (confined_evaluative N).evalAtFuel fuel e he

/-- A block that assigns to the names only is confined at any fuel. -/
theorem evalBlockAtFuel_confined (fuel : Nat) {b : Block} (hb : ∀ x ∈ Expr.targetsOf b, N x) :
    Confined N (evalBlockAtFuel fuel b) :=
  (confined_evaluative N).evalBlockAtFuel fuel hb

/-! ### Evaluation of any trees -/

variable {fuel : Nat} {m n : Machine} {reason : EvalError}

/-- Whatever functions are known, they assign to names. -/
theorem Machine.assignsOnly_any (m : Machine) : m.AssignsOnly fun _ => True :=
  fun _ _ _ _ _ => trivial

/-- If any name may be assigned to, every expression is confined. -/
theorem evalAtFuel_confined_any (fuel : Nat) (e : Expr) :
    Confined (fun _ => True) (evalAtFuel fuel e) :=
  evalAtFuel_confined fuel fun _ _ => trivial

/-- If any name may be assigned to, every block is confined. -/
theorem evalBlockAtFuel_confined_any (fuel : Nat) (b : Block) :
    Confined (fun _ => True) (evalBlockAtFuel fuel b) :=
  evalBlockAtFuel_confined fuel fun _ _ => trivial

/-- A confined action that gives a value ends in the place in which it started. -/
theorem Action.Confined.samePlace {α : Type} {p : Action α} {a : α}
    (hp : Confined (fun _ => True) p) (h : p m = .value a n) : m.SamePlace n :=
  hp.of_value m.assignsOnly_any h

/-- A confined action that fails has not missed an entry point. -/
theorem Action.Confined.samePlace_of_error {α : Type} {p : Action α}
    (hp : Confined (fun _ => True) p) (h : p m = .error reason n) :
    m.SamePlace n ∧ reason ≠ .missingEntryPoint := by
  obtain ⟨hn, hraised⟩ := hp.of_error m.assignsOnly_any h
  refine ⟨hn, ?_⟩
  rintro rfl
  exact hraised

end Scriptlet
