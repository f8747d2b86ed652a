import Scriptlet.Proofs.Eval.Evaluative
import Scriptlet.Proofs.Eval.Frames
import Scriptlet.Session

/-!
# Frame discipline

However an evaluation ends, it leaves the machine with the frames and the functions that it found,
apart from what it may write (`Machine.Kept`). A run of a program brings in functions and global
variables, and a request may do so; both still leave the frames as many as they were, with the same
parents (`Machine.SameFrames`).

An action `Keeps` a relation if the relation holds of the machines before and after it, whichever way
the action ends and wherever it starts (`KeepsAt`, if it starts at one machine). Sequences and calls of
actions that keep a relation keep it as well, so that only the steps of evaluation need be looked at
(`keeps_evaluative`):

* `evalAtFuel_keeps`: evaluation keeps `Machine.Kept`.
* `runAtFuel_keeps`, `serve_sameFrames`: runs and requests keep `Machine.SameFrames`.
-/

namespace Scriptlet

/-- The machine that an action leaves behind, if it ends. -/
def Outcome.state? {α : Type} : Outcome α → Option Machine
  | .value _ m => some m
  | .error _ m => some m
  | .outOfFuel => none

/-! ### What is kept of a machine -/

/-- What an evaluation keeps of a machine: frames, and the functions that are known. -/
structure Machine.Kept (before after : Machine) : Prop where
  environment : before.environment.Kept after.environment
  functions : after.functions = before.functions

namespace Machine.Kept

variable {m n p : Machine}

/-- A machine that is not touched keeps everything. -/
theorem refl (m : Machine) : Machine.Kept m m :=
  ⟨.refl m.environment, rfl⟩

/-- What is kept from step to step is kept over both. -/
theorem trans (h : Machine.Kept m n) (h' : Machine.Kept n p) : Machine.Kept m p :=
  ⟨h.environment.trans h'.environment, h'.functions.trans h.functions⟩

/-- The frames that are kept stay rooted. -/
theorem rooted (h : Machine.Kept m n) (hm : m.environment.Rooted) : n.environment.Rooted :=
  h.environment.rooted hm

/-- A report touches neither frames nor functions. -/
theorem record (m : Machine) (event : Event) : Machine.Kept m (m.record event) :=
  ⟨.refl m.environment, rfl⟩

/-- A print touches neither frames nor functions. -/
theorem print (m : Machine) (sink : Sink) : Machine.Kept m { m with sink } :=
  ⟨.refl m.environment, rfl⟩

/-- An assignment writes to the frames that are seen, and forgets no name. -/
theorem assign (h : m.environment.Rooted) (name : String) (value : Value) :
    Machine.Kept m (m.assign name value).2 :=
  ⟨Environment.kept_assign h name value, rfl⟩

end Machine.Kept

/-- The frames when a call starts are those of the machine and the frame of the call. -/
theorem Machine.environment_enterFrame (m : Machine) (bindings : List (String × Value)) :
    (m.enterFrame bindings).environment = m.environment.enter bindings := by
  unfold enterFrame Environment.enter
  simp only [Environment.current_push]

/-- The frame of a call is rooted like the others. -/
theorem Machine.rooted_enterFrame {m : Machine} (h : m.environment.Rooted)
    (bindings : List (String × Value)) : (m.enterFrame bindings).environment.Rooted := by
  rw [environment_enterFrame]
  exact Environment.rooted_enter h bindings

/-- If the body of a call keeps what it must, the call does as well. -/
theorem Machine.Kept.leaveFrame {m n : Machine} (hm : m.environment.Rooted)
    {bindings : List (String × Value)} (h : (m.enterFrame bindings).Kept n) :
    m.Kept n.leaveFrame := by
  refine ⟨?_, h.functions⟩
  have hbody := h.environment
  rw [environment_enterFrame] at hbody
  exact Environment.kept_call hm hbody

/-- The frames of a machine keep their number and their parents, whatever they bind. -/
structure Machine.SameFrames (before after : Machine) : Prop where
  depth : after.environment.depth = before.environment.depth
  rooted : before.environment.Rooted → after.environment.Rooted

/-- What may stand between a machine and a later one: a relation that goes from step to step. -/
class Persistent (R : Machine → Machine → Prop) : Prop where
  refl : ∀ m, R m m
  trans : ∀ {m n p}, R m n → R n p → R m p
  rooted : ∀ {m n}, R m n → m.environment.Rooted → n.environment.Rooted

/-- What an evaluation keeps passes from step to step. -/
instance : Persistent Machine.Kept :=
  ⟨.refl, .trans, Machine.Kept.rooted⟩

/-- The number and the parents of frames pass from step to step. -/
instance : Persistent Machine.SameFrames :=
  ⟨fun _ => ⟨rfl, id⟩, fun h h' => ⟨h'.depth.trans h.depth, h'.rooted ∘ h.rooted⟩, fun h => h.rooted⟩

/-- What an evaluation keeps includes the number and the parents of frames. -/
theorem Machine.Kept.sameFrames {m n : Machine} (h : m.Kept n) : m.SameFrames n :=
  ⟨h.environment.depth, h.rooted⟩

/-! ### Actions that keep what they must -/

namespace Action

variable {α β : Type} {R S : Machine → Machine → Prop}

/-- However the action ends at a machine, the relation holds of that machine and the one after it. -/
def KeepsAt (R : Machine → Machine → Prop) (p : Action α) (m : Machine) : Prop :=
  ∀ n, (p m).state? = some n → R m n

/-- A sequence keeps what its first part keeps, and the second one where the first one ends. -/
theorem KeepsAt.bind [Persistent R] {p : Action α} {f : α → Action β} {m : Machine}
    (hp : KeepsAt R p m) (hf : ∀ a k, p m = .value a k → R m k → KeepsAt R (f a) k) :
    KeepsAt R (p >>= f) m := by
  intro n hn
  cases h : p m with
  | value a k =>
    have hk : R m k := hp k (by rw [h]; rfl)
    rw [bind_value h] at hn
    exact Persistent.trans hk (hf a k h hk n hn)
  | error reason k =>
    have hk : R m k := hp k (by rw [h]; rfl)
    rw [bind_error h] at hn
    cases hn
    exact hk
  | outOfFuel =>
    rw [bind_outOfFuel h] at hn
    cases hn

/-- What surrounds an action may restore more than the action itself does. -/
theorem KeepsAt.within {enter leave : Machine → Machine} {p : Action α} {m : Machine}
    (hp : KeepsAt R p (enter m)) (h : ∀ n, R (enter m) n → R m (leave n)) :
    KeepsAt R (within enter leave p) m := by
  intro n hn
  cases hout : p (enter m) with
  | value a k =>
    have hk : R (enter m) k := hp k (by rw [hout]; rfl)
    rw [within_value hout] at hn
    cases hn
    exact h k hk
  | error reason k =>
    have hk : R (enter m) k := hp k (by rw [hout]; rfl)
    rw [within_error hout] at hn
    cases hn
    exact h k hk
  | outOfFuel =>
    rw [within_outOfFuel hout] at hn
    cases hn

/-- However the action ends, the relation holds of the machines before and after it. -/
def Keeps (R : Machine → Machine → Prop) (p : Action α) : Prop :=
  ∀ m : Machine, m.environment.Rooted → ∀ n, (p m).state? = some n → R m n

/-- What keeps a relation keeps a wider one. -/
theorem Keeps.mono {p : Action α} (hp : Keeps R p) (h : ∀ {m n}, R m n → S m n) : Keeps S p :=
  fun m hm n hn => h (hp m hm n hn)

/-- An action that does not end keeps everything. -/
theorem Keeps.outOfFuel : Keeps R (outOfFuel : Action α) := by
  intro m _ n hn
  cases hn

/-- A change keeps a relation that holds of each rooted machine and the changed one. -/
theorem Keeps.change {f : Machine → Machine}
    (h : ∀ m : Machine, m.environment.Rooted → R m (f m)) : Keeps R (change f) := by
  intro m hm n hn
  cases hn
  exact h m hm

/-- A branch keeps what both of its sides keep. -/
theorem Keeps.ite {c : Prop} [Decidable c] {p q : Action α} (hp : Keeps R p) (hq : Keeps R q) :
    Keeps R (if c then p else q) := by
  split
  · exact hp
  · exact hq

/-- What surrounds an action keeps a relation that its two changes turn that of the action into. -/
theorem Keeps.within {enter leave : Machine → Machine} {p : Action α} (hp : Keeps R p)
    (hroot : ∀ m : Machine, m.environment.Rooted → (enter m).environment.Rooted)
    (h : ∀ m n : Machine, m.environment.Rooted → R (enter m) n → R m (leave n)) :
    Keeps R (within enter leave p) :=
  fun m hm => KeepsAt.within (hp _ (hroot m hm)) fun n => h m n hm

section persistent

variable [Persistent R]

/-- A value is given without touching the machine. -/
theorem Keeps.pure (a : α) : Keeps R (pure a : Action α) := by
  intro m _ n hn
  cases hn
  exact Persistent.refl m

/-- A failure does not touch the machine. -/
theorem Keeps.fail (reason : EvalError) :
    Keeps R (fail reason : Action α) := by
  intro m _ n hn
  cases hn
  exact Persistent.refl m

/-- A result that is there already does not touch the machine. -/
theorem Keeps.ofExcept (result : Except EvalError α) :
    Keeps R (ofExcept result) := by
  cases result with
  | ok a => exact .pure a
  | error reason => exact .fail reason

/-- Reading a part of the machine does not touch it. -/
theorem Keeps.read (f : Machine → α) : Keeps R (read f) := by
  intro m _ n hn
  cases hn
  exact Persistent.refl m

/-- A sequence keeps what its parts keep. -/
theorem Keeps.bind {p : Action α} {f : α → Action β} (hp : Keeps R p)
    (hf : ∀ a, Keeps R (f a)) : Keeps R (p >>= f) :=
  fun m hm => KeepsAt.bind (hp m hm) fun a k _ hk => hf a k (Persistent.rooted hk hm)

/-- A sequence keeps what its parts keep. -/
theorem Keeps.sequential : Sequential fun _ => Keeps R :=
  ⟨.pure, .outOfFuel, .bind⟩

/-- Reports around an action keep what the action keeps. -/
theorem KeepsAt.within_record (hrecord : ∀ (m : Machine) (event : Event), R m (m.record event))
    {p : Action α} {m : Machine} {event event' : Event} (hp : KeepsAt R p (m.record event)) :
    KeepsAt R (Action.within (·.record event) (·.record event') p) m :=
  hp.within fun n hn =>
    Persistent.trans (Persistent.trans (hrecord m event) hn) (hrecord n event')

/-- Two reports around an action keep what the action keeps, if reports do. -/
theorem Keeps.within_record (hrecord : ∀ (m : Machine) (event : Event), R m (m.record event))
    {p : Action α} (hp : Keeps R p) (event event' : Event) :
    Keeps R (Action.within (·.record event) (·.record event') p) :=
  fun m hm => KeepsAt.within_record hrecord (hp (m.record event) hm)

end persistent

/-- In a frame of its own, an action keeps the frames outside. -/
theorem Keeps.within_frame {p : Action α} (hp : Keeps Machine.Kept p)
    (bindings : List (String × Value)) :
    Keeps Machine.Kept (Action.within (·.enterFrame bindings) (·.leaveFrame) p) :=
  hp.within (fun _ hm => Machine.rooted_enterFrame hm bindings) fun _ _ hm => .leaveFrame hm

end Action

/-! ### Evaluation -/

open Scriptlet.Action

section steps

variable {R : Machine → Machine → Prop}

/-- Reading a variable does not touch the machine. -/
theorem readVariable_keeps [Persistent R] (name : String) : Keeps R (readVariable name) := by
  refine (Keeps.read _).bind fun found => ?_
  cases found with
  | none => exact .fail _
  | some v => exact .pure v

/-- A print writes to the sink alone, whether the sink takes it or not. -/
theorem printValue_keeps (hsink : ∀ (m : Machine) (sink : Sink), R m { m with sink }) (v : Value) :
    Keeps R (printValue v) := by
  intro m _ n hn
  unfold printValue at hn
  split at hn
  · cases hn
    exact hsink m _
  · cases hn
    exact hsink m _

/-- The search for a function does not touch the machine. -/
theorem findFunction_keeps [Persistent R] (name : String) (given : Nat) :
    Keeps R (findFunction name given) := by
  refine (Keeps.read _).bind fun found => ?_
  cases found with
  | none => exact .fail _
  | some f => exact .ite (.pure f) (.fail _)

end steps

/-- The steps of evaluation keep what they must, whatever they assign to. -/
theorem keeps_evaluative : Evaluative (fun _ => True) fun _ => Keeps Machine.Kept where
  pure := .pure
  outOfFuel := .outOfFuel
  bind := .bind
  readVariable := readVariable_keeps
  findFunction := fun name given hq =>
    (findFunction_keeps name given).bind fun f => hq f fun _ _ => trivial
  operator := fun _ _ _ => .ofExcept _
  assign := fun name v _ => .change fun _ hm => .assign hm name v
  emptyTarget := fun _ => .fail _
  printValue := printValue_keeps .print
  evaluate := fun _ => .change fun m _ => .record m _
  withinCall := fun _ _ hp => hp.within_record .record _ _
  withinFrame := fun bindings hp => hp.within_frame bindings

/-- Evaluation keeps what it must, at any fuel. -/
theorem evalAtFuel_keeps (fuel : Nat) (e : Expr) : Keeps Machine.Kept (evalAtFuel fuel e) :=
  keeps_evaluative.evalAtFuel fuel e fun _ _ => trivial

/-- Arguments keep frames and functions, as expressions do. -/
theorem evalArgumentsAtFuel_keeps (fuel : Nat) (es : List Expr) :
    Keeps Machine.Kept (evalArguments (evalAtFuel fuel) es) :=
  keeps_evaluative.sequential.evalArguments fun e _ => evalAtFuel_keeps fuel e

/-- Blocks keep frames and functions, as expressions do. -/
theorem evalBlockAtFuel_keeps (fuel : Nat) (b : Block) :
    Keeps Machine.Kept (evalBlockAtFuel fuel b) :=
  keeps_evaluative.evalBlockAtFuel fuel fun _ _ => trivial

/-! ### Runs -/

/-- Defining a global variable keeps the frames, though not what the global one binds. -/
theorem sameFrames_defineGlobal (m : Machine) (name : String) (value : Value) :
    m.SameFrames (m.defineGlobal name value) :=
  ⟨Environment.depth_set _ _ _ _, fun h => h.set _ _ _⟩

/-- A report touches no frame. -/
theorem sameFrames_record (m : Machine) (event : Event) : m.SameFrames (m.record event) :=
  (Machine.Kept.record m event).sameFrames

/-- A definition makes a function known or binds a global name, and touches no other frame. -/
theorem declareAtFuel_keeps (fuel : Nat) (d : Definition) :
    Keeps Machine.SameFrames (declareAtFuel fuel d) := by
  cases d with
  | function f =>
    cases h : f.malformation? with
    | some reason =>
      simp only [declareAtFuel, h]
      exact .fail _
    | none =>
      simp only [declareAtFuel, h]
      exact .change fun m _ => ⟨rfl, id⟩
  | global x e =>
    refine ((evalAtFuel_keeps fuel e).mono Machine.Kept.sameFrames).bind fun v => ?_
    refine (Keeps.change fun m _ => sameFrames_defineGlobal m x v).bind fun _ => ?_
    exact .change fun m _ => sameFrames_record m _

/-- Definitions in order keep the number and the parents of frames. -/
theorem declareAllAtFuel_keeps (fuel : Nat) (ds : List Definition) :
    Keeps Machine.SameFrames (declareAllAtFuel fuel ds) := by
  induction ds with
  | nil => exact .pure ()
  | cons d ds ih => exact (declareAtFuel_keeps fuel d).bind fun _ => ih

/-- The entry point is evaluated in the frame that is there. -/
theorem enterProgramAtFuel_keeps (fuel : Nat) :
    Keeps Machine.SameFrames (enterProgramAtFuel fuel) := by
  refine (Keeps.read _).bind fun found => ?_
  cases found with
  | none => exact .fail _
  | some main =>
    refine ((evalBlockAtFuel_keeps fuel main.body).mono Machine.Kept.sameFrames).bind fun v => ?_
    exact (Keeps.change fun m _ => sameFrames_record m _).bind fun _ => .pure v

/-- A run keeps the number of frames and their parents. -/
theorem runAtFuel_keeps (fuel : Nat) (p : Program) :
    Keeps Machine.SameFrames (runAtFuel fuel p) := by
  refine Keeps.within_record sameFrames_record ?_ _ _
  refine Keeps.ite ?_ (.fail _)
  exact (declareAllAtFuel_keeps fuel p.definitions).bind fun _ => enterProgramAtFuel_keeps fuel

/-- An action that has ended has left the machine that comes with its result. -/
theorem state?_of_ended? {α : Type} {outcome : Outcome α} {result : Except ScriptError α}
    {n : Machine} (h : outcome.ended? = some (result, n)) : outcome.state? = some n := by
  cases outcome with
  | value a m => exact congrArg (Option.map Prod.snd) h
  | error reason m => exact congrArg (Option.map Prod.snd) h
  | outOfFuel => cases h

/-- Serving a request keeps the number of frames and their parents, whatever it is answered. -/
theorem serve_sameFrames {fuel : Nat} {request : Request} {answer : Answer} {m n : Machine}
    (hm : m.environment.Rooted) (h : serve fuel request m = some (answer, n)) : m.SameFrames n := by
  -- a request to evaluate or to run leaves the machine that the evaluation or the run leaves
  have ended : ∀ {p : Action Value} {f : Except ScriptError Value × Machine → Answer × Machine},
      Keeps Machine.SameFrames p → (∀ x, (f x).2 = x.2) →
      (p m).ended?.map f = some (answer, n) → m.SameFrames n := by
    intro p f hp hf hserve
    obtain ⟨x, hended, heq⟩ := Option.map_eq_some_iff.mp hserve
    have hlast : x.2 = n := by rw [← hf x, heq]
    exact hp m hm n (hlast ▸ state?_of_ended? hended)
  have evaluation : ∀ e, Keeps Machine.SameFrames (evalAtFuel fuel e) := fun e =>
    (evalAtFuel_keeps fuel e).mono Machine.Kept.sameFrames
  cases request with
  | evaluate e => exact ended (evaluation e) (fun _ => rfl) h
  | evaluateSource s =>
    change (evaluateSource fuel s m).map _ = _ at h
    unfold evaluateSource at h
    split at h
    · exact ended (evaluation _) (fun _ => rfl) h
    · cases h
      exact Persistent.refl m
  | evaluateBlock b =>
    exact ended ((evalBlockAtFuel_keeps fuel b).mono Machine.Kept.sameFrames) (fun _ => rfl) h
  | runProgram p => exact ended (runAtFuel_keeps fuel p) (fun _ => rfl) h
  | runSource s =>
    change (runSource fuel s m).map _ = _ at h
    unfold runSource at h
    split at h
    · exact ended (runAtFuel_keeps fuel _) (fun _ => rfl) h
    · cases h
      exact Persistent.refl m
  | getVariable x =>
    cases h
    exact Persistent.refl m
  | setVariable x v =>
    cases h
    exact (Machine.Kept.assign hm x v).sameFrames

end Scriptlet
