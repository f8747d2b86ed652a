import Scriptlet.Proofs.Eval.Confined

/-!
# More functions

A machine that knows more functions than another one, and is like it otherwise (`Machine.ExtendedBy`),
evaluates alike: an evaluation that ends without having missed a function ends with the same value or
error, and the two machines that are left are like each other again (`Outcome.ExtendedBy`). A function
that is missed is the only thing that can be told from a table that holds more, and ends the evaluation
at once.

* `evalAtFuel_monotonic`, `evalBlockAtFuel_monotonic`: this holds of every evaluation, at any fuel.
-/

namespace Scriptlet

open Scriptlet.Action

/-- The second machine knows the functions that the first one knows, and maybe others. Its variables and
its sink are the same. -/
structure Machine.ExtendedBy (m n : Machine) : Prop where
  environment : n.environment = m.environment
  sink : n.sink = m.sink
  functions : ∀ (name : String) (f : Function),
    m.functions.get? name = some f → n.functions.get? name = some f

/-- Unless the first action has missed a function or run out of fuel, the second one ends alike. -/
inductive Outcome.ExtendedBy {α : Type} : Outcome α → Outcome α → Prop where
  | value {a : α} {m n : Machine} : m.ExtendedBy n → ExtendedBy (.value a m) (.value a n)
  | error {reason : EvalError} {m n : Machine} :
      m.ExtendedBy n → ExtendedBy (.error reason m) (.error reason n)
  | undefined {name : String} {m : Machine} {outcome : Outcome α} :
      ExtendedBy (.error (.undefinedFunction name) m) outcome
  | outOfFuel {outcome : Outcome α} : ExtendedBy .outOfFuel outcome

namespace Machine.ExtendedBy

variable {m n : Machine}

/-- A change of the variables that depends on them alone is the same on both machines. -/
theorem map (h : m.ExtendedBy n) (f : Environment → Environment) :
    ({ m with environment := f m.environment } : Machine).ExtendedBy
      { n with environment := f n.environment } :=
  ⟨congrArg f h.environment, h.sink, h.functions⟩

/-- Reports are not compared. -/
theorem record (h : m.ExtendedBy n) (event event' : Event) :
    (m.record event).ExtendedBy (n.record event') :=
  ⟨h.environment, h.sink, h.functions⟩

/-- Variables have the same values. -/
theorem valueOf?_eq (h : m.ExtendedBy n) (name : String) : n.valueOf? name = m.valueOf? name := by
  unfold Machine.valueOf?
  rw [h.environment]

/-- The same assignment leaves them alike. -/
theorem assign (h : m.ExtendedBy n) (name : String) (v : Value) :
    (m.assign name v).2.ExtendedBy (n.assign name v).2 :=
  h.map fun env => (env.assign env.current name v).2

/-- The same definition of a global variable leaves machines alike. -/
theorem defineGlobal (h : m.ExtendedBy n) (name : String) (v : Value) :
    (m.defineGlobal name v).ExtendedBy (n.defineGlobal name v) :=
  h.map fun env => env.set Environment.global name v

/-- The same start of a call leaves machines alike. -/
theorem enterFrame (h : m.ExtendedBy n) (bindings : List (String × Value)) :
    (m.enterFrame bindings).ExtendedBy (n.enterFrame bindings) :=
  h.map fun env =>
    (env.push Environment.global).setAll (env.push Environment.global).current bindings

/-- The end of a call leaves machines alike. -/
theorem leaveFrame (h : m.ExtendedBy n) : m.leaveFrame.ExtendedBy n.leaveFrame :=
  h.map Environment.pop

/-- A function that is known already may become known to the other machine, too. -/
theorem register (h : m.ExtendedBy n) {f : Function} (hf : n.functions.get? f.name = some f) :
    (m.register f).ExtendedBy n := by
  refine ⟨h.environment, h.sink, ?_⟩
  intro name g hg
  have hinsert : (m.functions.insert f.name f).get? name = some g := hg
  rw [Table.get?_insert] at hinsert
  split at hinsert
  case isTrue hname =>
    rw [← hname, hf]
    exact hinsert
  case isFalse => exact h.functions name g hinsert

end Machine.ExtendedBy

/-- Sequences end alike if their first parts do, and their second parts do after those. -/
theorem Outcome.ExtendedBy.bind {α β : Type} {p q : Action α} {f g : α → Action β} {m n : Machine}
    (h : (p m).ExtendedBy (q n))
    (hrest : ∀ a k l, q n = .value a l → k.ExtendedBy l → (f a k).ExtendedBy (g a l)) :
    ((p >>= f) m).ExtendedBy ((q >>= g) n) := by
  generalize hp : p m = left at h
  generalize hq : q n = right at h
  cases h with
  | value hkl =>
    rw [bind_value hp, bind_value hq]
    exact hrest _ _ _ hq hkl
  | error hkl =>
    rw [bind_error hp, bind_error hq]
    exact .error hkl
  | undefined =>
    rw [bind_error hp]
    exact .undefined
  | outOfFuel =>
    rw [bind_outOfFuel hp]
    exact .outOfFuel

/-! ### Monotonic actions -/

namespace Action

variable {α β : Type} {p : Action α}

/-- The action ends alike on machines that know more functions. -/
def Monotonic (p : Action α) : Prop :=
  ∀ m n : Machine, m.ExtendedBy n → (p m).ExtendedBy (p n)

namespace Monotonic

/-- A value is given alike. -/
theorem pure (a : α) : Monotonic (pure a : Action α) :=
  fun _ _ h => .value h

/-- A failure is the same. -/
theorem fail (reason : EvalError) : Monotonic (fail reason : Action α) :=
  fun _ _ h => .error h

/-- An action that does not end need not be compared. -/
theorem outOfFuel : Monotonic (outOfFuel : Action α) :=
  fun _ _ _ => .outOfFuel

/-- A change that leaves machines alike is monotonic. -/
theorem change {f : Machine → Machine}
    (h : ∀ m n : Machine, m.ExtendedBy n → (f m).ExtendedBy (f n)) : Monotonic (change f) :=
  fun m n hmn => .value (h m n hmn)

/-- A sequence is monotonic if its parts are. -/
theorem bind {f : α → Action β} (hp : Monotonic p) (hf : ∀ a, Monotonic (f a)) :
    Monotonic (p >>= f) :=
  fun m n hmn => (hp m n hmn).bind fun a k l _ hkl => hf a k l hkl

/-- What surrounds a monotonic action by changes that leave machines alike is monotonic. -/
theorem within {enter leave : Machine → Machine} (hp : Monotonic p)
    (henter : ∀ m n : Machine, m.ExtendedBy n → (enter m).ExtendedBy (enter n))
    (hleave : ∀ m n : Machine, m.ExtendedBy n → (leave m).ExtendedBy (leave n)) :
    Monotonic (within enter leave p) := by
  intro m n hmn
  have hinner := hp _ _ (henter m n hmn)
  generalize hm : p (enter m) = left at hinner
  generalize hn : p (enter n) = right at hinner
  cases hinner with
  | value hk =>
    rw [within_value hm, within_value hn]
    exact .value (hleave _ _ hk)
  | error hk =>
    rw [within_error hm, within_error hn]
    exact .error (hleave _ _ hk)
  | undefined =>
    rw [within_error hm]
    exact .undefined
  | outOfFuel =>
    rw [within_outOfFuel hm]
    exact .outOfFuel

end Monotonic

end Action

/-! ### Evaluation -/

/-- Variables are read alike, or are unbound in both. -/
theorem readVariable_monotonic (name : String) : Monotonic (readVariable name) := by
  intro m n h
  unfold readVariable
  rw [bind_value (read_apply _ m), bind_value (read_apply _ n), h.valueOf?_eq]
  cases m.valueOf? name with
  | none => exact .error h
  | some v => exact .value h

/-- Values are printed alike, as the sinks are the same. -/
theorem printValue_monotonic (v : Value) : Monotonic (printValue v) := by
  intro m n h
  unfold printValue
  rw [h.sink]
  split
  · exact .value ⟨h.environment, rfl, h.functions⟩
  · exact .error ⟨h.environment, rfl, h.functions⟩

/-- A function that is found is found on the other machine as well. -/
theorem findFunction_bind_monotonic {α : Type} {q : Function → Action α} (name : String)
    (given : Nat) (hq : ∀ f, Monotonic (q f)) : Monotonic (findFunction name given >>= q) := by
  intro m n h
  have hm := findFunction_apply name given m
  have hn := findFunction_apply name given n
  cases hfound : m.functions.get? name with
  | none =>
    rw [hfound] at hm
    rw [bind_error hm]
    exact .undefined
  | some f =>
    rw [hfound] at hm
    rw [h.functions name f hfound] at hn
    dsimp only at hm hn
    split at hm
    case isTrue hlength =>
      rw [if_pos hlength] at hn
      rw [bind_value hm, bind_value hn]
      exact hq f m n h
    case isFalse hlength =>
      rw [if_neg hlength] at hn
      rw [bind_error hm, bind_error hn]
      exact .error h

/-- The steps of evaluation are monotonic. -/
theorem monotonic_evaluative : Evaluative (fun _ => True) fun _ => Monotonic where
  pure := .pure
  outOfFuel := .outOfFuel
  bind := .bind
  readVariable := readVariable_monotonic
  findFunction := fun name given hq => findFunction_bind_monotonic name given fun f =>
    hq f fun _ _ => trivial
  operator := by
    intro op l r
    cases op.apply l r with
    | ok v => exact .pure v
    | error reason => exact .fail reason
  assign := fun name v _ => .change fun _ _ h => h.assign name v
  emptyTarget := fun _ => .fail _
  printValue := printValue_monotonic
  evaluate := fun _ => .change fun _ _ h => h.record _ _
  withinCall := fun _ _ hp => hp.within (fun _ _ h => h.record _ _) fun _ _ h => h.record _ _
  withinFrame := fun bindings hp =>
    hp.within (fun _ _ h => h.enterFrame bindings) fun _ _ h => h.leaveFrame

/-- Evaluation is monotonic at any fuel. -/
theorem evalAtFuel_monotonic (fuel : Nat) (e : Expr) : Monotonic (evalAtFuel fuel e) :=
  monotonic_evaluative.evalAtFuel fuel e fun _ _ => trivial

/-- The evaluation of blocks is monotonic. -/
theorem evalBlockAtFuel_monotonic (fuel : Nat) (b : Block) : Monotonic (evalBlockAtFuel fuel b) :=
  monotonic_evaluative.evalBlockAtFuel fuel fun _ _ => trivial

end Scriptlet
