import Scriptlet.Proofs.Eval.Fuel
import Scriptlet.Proofs.Scopes.Projection

/-!
# Frames refine scopes

An action `Refines` a step over two scopes if, at every machine whose frames are in order, it ends as
the step does at the scopes of that machine, and leaves a machine with the scopes that the step leaves.
It has to keep what actions keep as well: the scopes after a call are those of its caller only because
the body of the call has left the caller's frame alone.

Sequences and calls of actions that refine steps refine them, so that the statement for evaluation is
by induction on fuel (`evalAtFuel_refines`), and those for runs follow from it.

* `run_refines_two_scopes`: a run of a program and its run over two scopes end alike.
-/

namespace Scriptlet

/-- How an action ends, with what the rest of a run sees of the machine that it leaves. -/
def Outcome.onScopes {α : Type} : Outcome α → Option (Except EvalError α × Scopes)
  | .value a m => some (.ok a, m.scopes)
  | .error reason m => some (.error reason, m.scopes)
  | .outOfFuel => none

/-- An action that has an ending on the scopes is not out of fuel. -/
theorem ne_outOfFuel {α : Type} {outcome : Outcome α} (h : outcome.onScopes ≠ none) :
    outcome ≠ .outOfFuel := by
  rintro rfl
  exact h rfl

/-! ### Steps one after the other -/

namespace Scoped

variable {α β : Type}

/-- A sequence over scopes goes on from a value and stops at an error. -/
theorem runFrom_bind (p : Scoped α) (f : α → Scoped β) (s : Scopes) :
    runFrom (p >>= f) s = (runFrom p s).bind fun
      | (.ok a, t) => runFrom (f a) t
      | (.error reason, t) => some (.error reason, t) := by
  have hbind : runFrom (p >>= f) s =
      (runFrom p s).bind fun ended => ExceptT.bindCont f ended.1 ended.2 := rfl
  rw [hbind]
  congr
  funext ended
  obtain ⟨result, t⟩ := ended
  cases result <;> rfl

/-- A sequence that begins by reading goes on with what it has read. -/
theorem runFrom_read_bind (part : Scopes → α) (f : α → Scoped β) (s : Scopes) :
    runFrom (read part >>= f) s = runFrom (f (part s)) s := rfl

/-- A call runs in scopes of its own, and gives the caller's locals back. -/
theorem runFrom_call (locals : Table Value) (p : Scoped α) (s : Scopes) :
    runFrom (call locals p) s =
      (runFrom p { s with locals := some locals }).map fun (result, t) =>
        (result, { t with locals := s.locals }) := rfl

/-- A print changes the sink only, and fails if the sink does. -/
theorem runFrom_printValue (v : Value) (s : Scopes) :
    runFrom (printValue v) s =
      match s.sink.print (Value.text v) with
      | (none, sink) => some (.ok (), { s with sink })
      | (some reason, sink) => some (.error (.output reason), { s with sink }) := by
  unfold printValue
  rw [runFrom_read_bind]
  obtain ⟨failure, sink⟩ := s.sink.print (Value.text v)
  cases failure <;> rfl

end Scoped

/-! ### Actions that refine steps -/

namespace Action

variable {α β : Type} {R S : Machine → Machine → Prop}

/-- At machines whose frames are in order, the action ends as the step does at their scopes. -/
structure Refines (R : Machine → Machine → Prop) (p : Action α) (q : Scoped α) : Prop where
  keeps : Keeps R p
  agrees : ∀ m : Machine, m.environment.Rooted → (p m).onScopes = Scoped.runFrom q m.scopes

namespace Refines

/-- What refines within a relation does so within a wider one. -/
theorem mono {p : Action α} {q : Scoped α} (hp : Refines R p q) (h : ∀ {m n}, R m n → S m n) :
    Refines S p q :=
  ⟨hp.keeps.mono h, hp.agrees⟩

/-- An action that does not end refines one that does not. -/
theorem outOfFuel : Refines R (outOfFuel : Action α) Scoped.outOfFuel :=
  ⟨.outOfFuel, fun _ _ => rfl⟩

/-- A change of the machine refines one of the scopes that does the same to them. -/
theorem change {f : Machine → Machine} {g : Scopes → Scopes}
    (hkeeps : ∀ m : Machine, m.environment.Rooted → R m (f m))
    (h : ∀ m : Machine, m.environment.Rooted → (f m).scopes = g m.scopes) :
    Refines R (change f) (modify g) := by
  refine ⟨.change hkeeps, fun m hm => ?_⟩
  change some (Except.ok (), (f m).scopes) = some (Except.ok (), g m.scopes)
  rw [h m hm]

/-- The same condition chooses alike on both sides. -/
theorem ite {c : Prop} [Decidable c] {p p' : Action α} {q q' : Scoped α} (h : Refines R p q)
    (h' : Refines R p' q') : Refines R (if c then p else p') (if c then q else q') := by
  split
  · exact h
  · exact h'

/-- Reports around an action are not seen. -/
theorem within_record (hrecord : ∀ (m : Machine) (event : Event), R m (m.record event))
    [Persistent R] {p : Action α} {q : Scoped α} (hp : Refines R p q) (event event' : Event) :
    Refines R (within (·.record event) (·.record event') p) q := by
  refine ⟨hp.keeps.within_record hrecord event event', fun m hm => ?_⟩
  rw [← m.scopes_record event, ← hp.agrees (m.record event) hm]
  cases h : p (m.record event) with
  | value a n => rw [within_value h]; rfl
  | error reason n => rw [within_error h]; rfl
  | outOfFuel => rw [within_outOfFuel h]

section persistent

variable [Persistent R]

/-- A value is given on both sides. -/
theorem pure (a : α) : Refines R (pure a : Action α) (pure a) :=
  ⟨.pure a, fun _ _ => rfl⟩

/-- A failure is one on both sides. -/
theorem fail (reason : EvalError) : Refines R (fail reason : Action α) (throw reason) :=
  ⟨.fail reason, fun _ _ => rfl⟩

/-- A result that is there already is given on both sides. -/
theorem ofExcept (result : Except EvalError α) :
    Refines R (ofExcept result) (MonadExcept.ofExcept result) := by
  cases result with
  | ok a => exact .pure a
  | error reason => exact .fail reason

/-- What is read of the machine is read of the scopes, if it shows in them. -/
theorem read {f : Machine → α} {g : Scopes → α}
    (h : ∀ m : Machine, m.environment.Rooted → f m = g m.scopes) :
    Refines R (read f) (Scoped.read g) := by
  refine ⟨.read f, fun m hm => ?_⟩
  change some (Except.ok (f m), m.scopes) = some (Except.ok (g m.scopes), m.scopes)
  rw [h m hm]

/-- Sequences refine sequences, since the first parts leave scopes where the second ones go on. -/
theorem bind {p : Action α} {q : Scoped α} {f : α → Action β} {g : α → Scoped β}
    (hp : Refines R p q) (hf : ∀ a, Refines R (f a) (g a)) : Refines R (p >>= f) (q >>= g) := by
  refine ⟨hp.keeps.bind fun a => (hf a).keeps, fun m hm => ?_⟩
  rw [Scoped.runFrom_bind, ← hp.agrees m hm]
  cases h : p m with
  | value a n =>
    have hkept : R m n := hp.keeps m hm n (by rw [h]; rfl)
    rw [bind_value h]
    exact (hf a).agrees n (Persistent.rooted hkept hm)
  | error reason n =>
    rw [bind_error h]
    rfl
  | outOfFuel =>
    rw [bind_outOfFuel h]
    rfl

/-- A report after an action is not seen. -/
theorem then_record (hrecord : ∀ (m : Machine) (event : Event), R m (m.record event))
    {p : Action α} {q : Scoped α} (hp : Refines R p q) (event : α → Event) :
    Refines R (p >>= fun a => record (event a) >>= fun _ => Pure.pure a) q := by
  have hreport : ∀ a, Refines R (record (event a) >>= fun _ => Pure.pure a) (Pure.pure a) :=
    fun a => ⟨(Keeps.change fun m _ => hrecord m (event a)).bind fun _ => .pure a, fun _ _ => rfl⟩
  have hseq := hp.bind hreport
  rwa [bind_pure] at hseq

end persistent

/-- An action in a frame of its own refines a step with variables of its own. -/
theorem within_frame {p : Action α} {q : Scoped α} (hp : Refines Machine.Kept p q)
    (bindings : List (String × Value)) :
    Refines Machine.Kept (within (·.enterFrame bindings) (·.leaveFrame) p)
      (Scoped.call (Scoped.bindAll bindings) q) := by
  refine ⟨hp.keeps.within_frame bindings, fun m hm => ?_⟩
  have hroot := Machine.rooted_enterFrame hm bindings
  have hbody := hp.agrees _ hroot
  rw [Machine.scopes_enterFrame hm] at hbody
  rw [Scoped.runFrom_call, ← hbody]
  -- whatever the body leaves, the caller finds its own variables again
  have hleave : ∀ n, (p (m.enterFrame bindings)).state? = some n →
      n.leaveFrame.scopes = { n.scopes with locals := m.scopes.locals } :=
    fun n hn => Machine.scopes_leaveFrame hm (hp.keeps _ hroot n hn)
  cases h : p (m.enterFrame bindings) with
  | value a n =>
    rw [within_value h, Outcome.onScopes, hleave n (by rw [h]; rfl)]
    rfl
  | error reason n =>
    rw [within_error h, Outcome.onScopes, hleave n (by rw [h]; rfl)]
    rfl
  | outOfFuel =>
    rw [within_outOfFuel h]
    rfl

end Refines

end Action

/-! ### Evaluation -/

open Scriptlet.Action

/-- A variable is read from the locals or from the globals. -/
theorem readVariable_refines (name : String) :
    Refines Machine.Kept (readVariable name) (Scoped.readVariable name) := by
  refine (Refines.read fun m hm => m.valueOf?_eq_get? hm name).bind fun found => ?_
  cases found with
  | none => exact .fail _
  | some v => exact .pure v

/-- A value is printed to the same sink. -/
theorem printValue_refines (v : Value) :
    Refines Machine.Kept (printValue v) (Scoped.printValue v) := by
  refine ⟨printValue_keeps .print v, fun m _ => ?_⟩
  have hsink : m.scopes.sink = m.sink := rfl
  rw [Scoped.runFrom_printValue, hsink]
  unfold printValue
  obtain ⟨failure, sink⟩ := m.sink.print (Value.text v)
  cases failure <;> rfl

/-- The functions that are known are the same on both sides. -/
theorem readFunction_refines {R : Machine → Machine → Prop} [Persistent R] (name : String) :
    Refines R (Action.read fun m => m.functions.get? name)
      (Scoped.read fun s => s.functions.get? name) :=
  .read fun _ _ => rfl

/-- A function is looked up in the same table. -/
theorem findFunction_refines (name : String) (given : Nat) :
    Refines Machine.Kept (findFunction name given) (Scoped.findFunction name given) := by
  refine (readFunction_refines name).bind fun found => ?_
  cases found with
  | none => exact .fail _
  | some f => exact .ite (.pure f) (.fail _)

section nested

variable {eval : Expr → Action Value} {ref : Expr → Scoped Value}
  (he : ∀ e, Refines Machine.Kept (eval e) (ref e))

include he

/-- Expressions one after the other refine each other, as each of them does. -/
theorem evalFrom_refines (last : Value) (b : Block) :
    Refines Machine.Kept (evalFrom eval last b) (b.foldlM (fun _ e => ref e) last) := by
  induction b generalizing last with
  | nil => exact .pure last
  | cons e es ih =>
    rw [List.foldlM_cons]
    exact (he e).bind fun v => ih v

/-- Blocks refine each other if their expressions do. -/
theorem evalBlock_refines (b : Block) :
    Refines Machine.Kept (evalBlock eval b) (Scoped.evalBlock ref b) :=
  evalFrom_refines he 0 b

/-- Arguments refine each other if each of them does. -/
theorem evalArguments_refines (es : List Expr) :
    Refines Machine.Kept (evalArguments eval es) (es.mapM ref) := by
  induction es with
  | nil =>
    rw [List.mapM_nil]
    exact .pure []
  | cons e es ih =>
    rw [List.mapM_cons]
    exact (he e).bind fun v => ih.bind fun vs => .pure (v :: vs)

/-- Loops refine each other, in each of their rounds. -/
theorem evalLoop_refines (condition : Expr) (body : Block) (rounds : Nat) :
    Refines Machine.Kept (evalLoop eval condition body rounds)
      (Scoped.evalLoop ref condition body rounds) := by
  induction rounds with
  | zero => exact .outOfFuel
  | succ rounds ih =>
    refine (he condition).bind fun v => ?_
    exact .ite (.pure 1) ((evalBlock_refines he body).bind fun _ => ih)

/-- The frames of all pending calls are the variables that the calls restore. -/
theorem evalCall_refines (name : String) (arguments : List Expr) :
    Refines Machine.Kept (evalCall eval name arguments) (Scoped.evalCall ref name arguments) := by
  refine Refines.within_record .record ?_ _ _
  refine (findFunction_refines name _).bind fun f => ?_
  refine (evalArguments_refines he arguments).bind fun values => ?_
  exact (evalBlock_refines he f.body).within_frame _

/-- An expression refines its reading over two scopes if its parts do. -/
theorem evalExpr_refines (rounds : Nat) (e : Expr) :
    Refines Machine.Kept (evalExpr eval rounds e) (Scoped.evalExpr ref rounds e) := by
  cases e with
  | int v => exact .pure v
  | var x => exact readVariable_refines x
  | assign x e =>
    refine Refines.ite (.fail _) ((he e).bind fun v => ?_)
    have hassign : Refines Machine.Kept (change fun m => (m.assign x v).2)
        (modify fun s => s.assign x v) :=
      .change (fun m hm => .assign hm x v) fun m hm => Machine.scopes_assign hm x v
    exact hassign.bind fun _ => .pure v
  | binary op l r => exact (he l).bind fun v => (he r).bind fun w => .ofExcept _
  | block b => exact evalBlock_refines he b
  | whileDo c b => exact evalLoop_refines he c b rounds
  | ifThen c b => exact (he c).bind fun v => .ite (.pure 1) (evalBlock_refines he b)
  | ifElse c b d =>
    exact (he c).bind fun v => .ite (evalBlock_refines he d) (evalBlock_refines he b)
  | print e => exact (he e).bind fun v => (printValue_refines v).bind fun _ => .pure v
  | call f arguments => exact evalCall_refines he f arguments

end nested

/-- Evaluation refines evaluation over two scopes, at any fuel and however many calls are pending. -/
theorem evalAtFuel_refines (fuel : Nat) (e : Expr) :
    Refines Machine.Kept (evalAtFuel fuel e) (Scoped.evalAtFuel fuel e) := by
  induction fuel generalizing e with
  | zero => exact .outOfFuel
  | succ fuel ih =>
    have hexpr := evalExpr_refines ih fuel e
    exact ⟨evalAtFuel_keeps (fuel + 1) e, fun m hm => hexpr.agrees (m.record (.evaluate e)) hm⟩

/-! ### Runs -/

/-- A definition registers the same function, or defines the same global variable. -/
theorem declareAtFuel_refines (fuel : Nat) (d : Definition) :
    Refines Machine.SameFrames (declareAtFuel fuel d) (Scoped.declareAtFuel fuel d) := by
  cases d with
  | function f =>
    cases h : f.malformation? with
    | some reason =>
      simp only [declareAtFuel, Scoped.declareAtFuel, h]
      exact .fail _
    | none =>
      simp only [declareAtFuel, Scoped.declareAtFuel, h]
      exact .change (fun m _ => ⟨rfl, id⟩) fun m _ => m.scopes_register f
  | global x e =>
    refine ((evalAtFuel_refines fuel e).mono Machine.Kept.sameFrames).bind fun v => ?_
    have hdefine : Refines Machine.SameFrames (change fun m => m.defineGlobal x v)
        (modify fun s => { s with globals := s.globals.insert x v }) :=
      .change (fun m _ => sameFrames_defineGlobal m x v) fun m hm => m.scopes_defineGlobal hm x v
    exact hdefine.then_record sameFrames_record fun _ => .globalDefined x v

/-- Definitions in order refine each other, as each of them does. -/
theorem declareAllAtFuel_refines (fuel : Nat) (ds : List Definition) :
    Refines Machine.SameFrames (declareAllAtFuel fuel ds) (forM ds (Scoped.declareAtFuel fuel)) := by
  induction ds with
  | nil => exact .pure ()
  | cons d ds ih =>
    rw [List.forM_cons]
    exact (declareAtFuel_refines fuel d).bind fun _ => ih

/-- Runs of programs refine each other. -/
theorem runAtFuel_refines (fuel : Nat) (p : Program) :
    Refines Machine.SameFrames (runAtFuel fuel p) (Scoped.runAtFuel fuel p) := by
  refine Refines.within_record sameFrames_record ?_ _ _
  refine Refines.ite ?_ (.fail _)
  refine (declareAllAtFuel_refines fuel p.definitions).bind fun _ => ?_
  refine (readFunction_refines entryName).bind fun found => ?_
  cases found with
  | none => exact .fail _
  | some main =>
    have hbody := evalBlock_refines (evalAtFuel_refines fuel) main.body
    exact (hbody.mono Machine.Kept.sameFrames).then_record sameFrames_record .mainReturned

/-- A run of a program and its run over two scopes end alike: with the same value or the same error,
the same global variables, functions and sink, so that they have printed the same text. At the same
fuel, neither ends without the other; and if both end at all, they do so at whatever fuel. -/
theorem run_refines_two_scopes (p : Program) (sink : Sink) (journal : Journal) :
    (∀ fuel, (runAtFuel fuel p (.fresh sink journal)).onScopes =
      Scoped.runFrom (Scoped.runAtFuel fuel p) (.fresh sink)) ∧
    ∀ fuel fuel', (runAtFuel fuel p (.fresh sink journal)).onScopes ≠ none →
      Scoped.runFrom (Scoped.runAtFuel fuel' p) (.fresh sink) ≠ none →
        (runAtFuel fuel p (.fresh sink journal)).onScopes =
          Scoped.runFrom (Scoped.runAtFuel fuel' p) (.fresh sink) := by
  have hsame : ∀ fuel, (runAtFuel fuel p (.fresh sink journal)).onScopes =
      Scoped.runFrom (Scoped.runAtFuel fuel p) (.fresh sink) := by
    intro fuel
    rw [← Machine.scopes_fresh sink journal]
    exact (runAtFuel_refines fuel p).agrees _ Environment.rooted_initial
  refine ⟨hsame, fun fuel fuel' h h' => ?_⟩
  rw [← hsame fuel'] at h' ⊢
  rw [runAtFuel_unique (ne_outOfFuel h) (ne_outOfFuel h')]

/-- A call within a call fails. The global variable has been assigned, and the variables of both calls
are gone. -/
theorem run_refines_two_scopes_of_failing_call :
    let p : Program := ⟨[.global "g" (.int 1),
      .function ⟨"f", ["n"], [.assign "g" (.var "n"), .assign "x" (.int 4), .call "h" []]⟩,
      .function ⟨"h", [], [.assign "x" (.int 7), .var "n"]⟩,
      .function ⟨"main", [], [.call "f" [.int 2]]⟩]⟩
    let ends := (runAtFuel 6 p (.fresh .unlimited .silent)).onScopes
    ends = Scoped.runFrom (Scoped.runAtFuel 9 p) (.fresh .unlimited) ∧
      ends.map (fun (result, s) => (result, s.globals)) =
        some (.error (.unboundVariable "n"), ⟨[("g", 2)]⟩) :=
  ⟨(run_refines_two_scopes _ .unlimited .silent).2 6 9 (by nofun) (by nofun), rfl⟩

end Scriptlet
