import Scriptlet.Environment
import Scriptlet.Eval.Error
import Scriptlet.Eval.Event

/-!
# The machine

What a run reads and changes: the variables, the functions that are known, the sink that it prints
to and its journal. An action goes from one state of the machine to the next and gives a value, or
stops with an error in the state that it has reached, or runs out of fuel.
-/

namespace Scriptlet

/-- The state of a run. -/
structure Machine where
  environment : Environment
  functions : Table Function
  sink : Sink
  journal : Journal
  deriving DecidableEq, Repr, Inhabited

/-- How an action ends. -/
inductive Outcome (α : Type) where
  | value (result : α) (state : Machine)
  | error (reason : EvalError) (state : Machine)
  /-- The action was given too little fuel to end. -/
  | outOfFuel
  deriving DecidableEq, Repr, Inhabited

/-- A step of a run. -/
def Action (α : Type) : Type := Machine → Outcome α

namespace Action

variable {α β : Type}

/-- Steps run one after the other, up to the first one that fails or is out of fuel. -/
@[always_inline] instance : Monad Action where
  pure a := fun m => .value a m
  bind p f := fun m =>
    match p m with
    | .value a m => f a m
    | .error reason m => .error reason m
    | .outOfFuel => .outOfFuel

/-- `pure` changes nothing. -/
theorem pure_apply (a : α) (m : Machine) : (pure a : Action α) m = .value a m := rfl

/-- The second action starts in the state in which the first one ended. -/
theorem bind_value {p : Action α} {f : α → Action β} {m n : Machine} {a : α}
    (h : p m = .value a n) : (p >>= f) m = f a n := by
  simp only [bind, h]

/-- An error of the first action ends the sequence. -/
theorem bind_error {p : Action α} {f : α → Action β} {m n : Machine} {reason : EvalError}
    (h : p m = .error reason n) : (p >>= f) m = .error reason n := by
  simp only [bind, h]

/-- An action that needs more fuel leaves the sequence without an end. -/
theorem bind_outOfFuel {p : Action α} {f : α → Action β} {m : Machine}
    (h : p m = .outOfFuel) : (p >>= f) m = .outOfFuel := by
  simp only [bind, h]

/-- Ends without a result for lack of fuel. -/
def outOfFuel : Action α := fun _ => .outOfFuel

/-- Stops with an error. -/
def fail (reason : EvalError) : Action α := fun m => .error reason m

/-- Gives a value or stops with an error, and changes nothing. -/
def ofExcept : Except EvalError α → Action α
  | .ok a => pure a
  | .error reason => fail reason

/-- Gives a part of the state. -/
@[inline] def read (f : Machine → α) : Action α := fun m => .value (f m) m

/-- Changes the state. -/
@[inline] def change (f : Machine → Machine) : Action Unit := fun m => .value () (f m)

/-- Surrounds an action by two changes. The second one is made on every way out, also after an
error. -/
@[inline] def within (enter leave : Machine → Machine) (p : Action α) : Action α := fun m =>
  match p (enter m) with
  | .value a m => .value a (leave m)
  | .error reason m => .error reason (leave m)
  | .outOfFuel => .outOfFuel

/-- Reading changes nothing. -/
theorem read_apply (f : Machine → α) (m : Machine) : read f m = .value (f m) m := rfl

/-- A change gives no value. -/
theorem change_apply (f : Machine → Machine) (m : Machine) : change f m = .value () (f m) := rfl

/-- An error leaves the state as it is. -/
theorem fail_apply (reason : EvalError) (m : Machine) :
    (fail reason : Action α) m = .error reason m := rfl

/-- A value gets out through the second change. -/
theorem within_value {enter leave : Machine → Machine} {p : Action α} {m n : Machine} {a : α}
    (h : p (enter m) = .value a n) : within enter leave p m = .value a (leave n) := by
  simp only [within, h]

/-- An error gets out through the second change. -/
theorem within_error {enter leave : Machine → Machine} {p : Action α} {m n : Machine}
    {reason : EvalError} (h : p (enter m) = .error reason n) :
    within enter leave p m = .error reason (leave n) := by
  simp only [within, h]

/-- Two changes around an action give it no fuel. -/
theorem within_outOfFuel {enter leave : Machine → Machine} {p : Action α} {m : Machine}
    (h : p (enter m) = .outOfFuel) : within enter leave p m = .outOfFuel := by
  simp only [within, h]

end Action

namespace Machine

/-- A machine that knows no variable and no function. -/
def fresh (sink : Sink) (journal : Journal) : Machine :=
  ⟨.initial, .empty, sink, journal⟩

/-- Reports an event. -/
def record (m : Machine) (event : Event) : Machine :=
  { m with journal := m.journal.record event }

/-- The value of a variable, as the current frame sees it. -/
def valueOf? (m : Machine) (name : String) : Option Value :=
  m.environment.get? m.environment.current name

/-- Gives a value to a variable, as the current frame sees it. The value it had comes along. -/
def assign (m : Machine) (name : String) (value : Value) : Option Value × Machine :=
  let (previous, environment) := m.environment.assign m.environment.current name value
  (previous, { m with environment })

/-- Defines a global variable. -/
def defineGlobal (m : Machine) (name : String) (value : Value) : Machine :=
  { m with environment := m.environment.set Environment.global name value }

/-- Makes a function known. One of the same name is forgotten. -/
def register (m : Machine) (f : Function) : Machine :=
  { m with functions := m.functions.insert f.name f }

/-- Enters the frame of a call, which sees its parameters and the global variables. -/
def enterFrame (m : Machine) (bindings : List (String × Value)) : Machine :=
  let pushed := m.environment.push Environment.global
  { m with environment := pushed.setAll pushed.current bindings }

/-- Leaves the frame of a call. -/
def leaveFrame (m : Machine) : Machine :=
  { m with environment := m.environment.pop }

end Machine

end Scriptlet
