import Scriptlet.Proofs.Eval.Observation
import Scriptlet.Proofs.Exact.Overflow
import Scriptlet.Proofs.Exact.Projection

/-!
# Values are exact integers

A run with values of 64 bits and the run over the integers go on in lockstep until an operator has a
result that is no value. There the one fails and the other goes on with an integer out of range, so that
nothing can be said about what follows, but what has happened up to there is the same. An action
`Tracks` a part of a run over the integers if this is so wherever the action starts; the steps of a run
do, and sequences and calls of actions that do so do.

* `evalAtFuel_tracks`: evaluation is in lockstep with that over the integers.
* `run_exact_until_overflow`: what a run gives, said by the run over the integers.
-/

namespace Scriptlet

/-! ### Lockstep -/

/-- The result of an application is a value. -/
def Ideal.Step.InRange : Ideal.Step → Prop
  | .evaluate _ => True
  | .apply op l r _ => Value.InRange (op.exact l r)

/-- From one machine to another, the expressions among some steps were come to, as far as someone
listens, and no operator among them overflowed. -/
structure Machine.Came (m n : Machine) (steps : List Ideal.Step) : Prop where
  listening : n.journal.listening = m.journal.listening
  evaluated : m.journal.listening →
    n.journal.evaluated = m.journal.evaluated ++ Ideal.evaluated steps
  inRange : ∀ step ∈ steps, step.InRange

namespace Machine.Came

variable {m n k : Machine} {steps more : List Ideal.Step}

/-- A machine that told nothing has come without a step. -/
theorem of_journal_eq (h : n.journal = m.journal) : m.Came n [] := by
  refine ⟨congrArg _ h, fun _ => ?_, nofun⟩
  rw [h]
  exact (List.append_nil _).symm

/-- Each machine has come to itself. -/
theorem refl (m : Machine) : m.Came m [] :=
  of_journal_eq rfl

/-- The steps on the way to a machine and on from it are the steps of the whole way. -/
theorem trans (h : m.Came n steps) (h' : n.Came k more) : m.Came k (steps ++ more) where
  listening := h'.listening.trans h.listening
  evaluated := by
    intro hm
    have hn : n.journal.listening := by
      rw [h.listening]
      exact hm
    rw [h'.evaluated hn, h.evaluated hm, List.append_assoc, Ideal.evaluated, Ideal.evaluated,
      Ideal.evaluated, List.filterMap_append]
  inRange := List.forall_mem_append.mpr ⟨h.inRange, h'.inRange⟩

/-- An application of an operator is no expression. -/
theorem apply (m : Machine) {op : Operator} {l r : Int} (h : Value.InRange (op.exact l r))
    (sink : Sink) : m.Came m [.apply op l r sink] :=
  ⟨rfl, fun _ => (List.append_nil _).symm, List.forall_mem_singleton.mpr h⟩

end Machine.Came

/-- Two changes do the same, one to a machine and the other over the integers. They have nothing to do
with the sink and with the expressions that are come to. -/
structure ChangesAlike (g : Machine → Machine) (g' : Ideal.State → Ideal.State) : Prop where
  ideal : ∀ m : Machine, (g m).ideal = g' m.ideal
  sink : ∀ m : Machine, (g m).sink = m.sink
  listening : ∀ m : Machine, (g m).journal.listening = m.journal.listening
  evaluated : ∀ m : Machine, (g m).journal.evaluated = m.journal.evaluated

namespace ChangesAlike

variable {g : Machine → Machine} {g' : Ideal.State → Ideal.State} {m n : Machine}
  {steps : List Ideal.Step}

/-- A change of the variables or functions makes no report. -/
theorem of_journal_eq (hideal : ∀ m : Machine, (g m).ideal = g' m.ideal)
    (hsink : ∀ m : Machine, (g m).sink = m.sink)
    (hjournal : ∀ m : Machine, (g m).journal = m.journal) : ChangesAlike g g' :=
  ⟨hideal, hsink, fun m => congrArg _ (hjournal m), fun m => congrArg _ (hjournal m)⟩

/-- Reports that are not about an expression are not made over the integers. -/
theorem record {event : Event} (h : event.expression? = none) : ChangesAlike (·.record event) id where
  ideal _ := rfl
  sink _ := rfl
  listening m := m.journal.listening_record event
  evaluated m := m.journal.evaluated_record h

/-- A change that is alike on both sides is no step. -/
theorem came (h : ChangesAlike g g') (m : Machine) : m.Came (g m) [] where
  listening := h.listening m
  evaluated _ := by
    rw [h.evaluated]
    exact (List.append_nil _).symm
  inRange := nofun

/-- The change before a part of a run and the one after it make no difference to what is come to. -/
theorem came_within {leave : Machine → Machine} {leave' : Ideal.State → Ideal.State}
    (h : ChangesAlike g g') (hleave : ChangesAlike leave leave') (hcame : (g m).Came n steps) :
    m.Came (leave n) steps := by
  have hall := ((h.came m).trans hcame).trans (hleave.came n)
  rwa [List.nil_append, List.append_nil] at hall

end ChangesAlike

namespace Action

variable {α β γ δ : Type}

/-- How an action ends, started from a machine, and what comes of the run over the integers: the same
integer or error in the same state; or an overflow, which the run over the integers passes with the same
operands, after it has come to the same expressions and printed the same. -/
inductive Lockstep (f : α → β) (m : Machine) : Outcome α → Ideal.Trace β → Prop where
  | value {a : α} {n : Machine} {steps : List Ideal.Step} : m.Came n steps →
      Lockstep f m (.value a n) ⟨.ok (f a), n.ideal, steps⟩
  | error {reason : EvalError} {n : Machine} {steps : List Ideal.Step} :
      reason.isOverflow = false → m.Came n steps →
      Lockstep f m (.error reason n) ⟨.error (.error reason), n.ideal, steps⟩
  | overflow {op : Operator} {l r : Int} {n : Machine} {earlier later : List Ideal.Step}
      {ending : Except Ideal.Stop β} {state : Ideal.State} :
      op.Overflows l r → m.Came n earlier →
      Lockstep f m (.error (.overflow op) n)
        ⟨ending, state, earlier ++ .apply op l r n.sink :: later⟩
  | outOfFuel {trace : Ideal.Trace β} : Lockstep f m .outOfFuel trace

/-- Wherever the action starts, it is in lockstep with a part of a run over the integers. -/
def Tracks (f : α → β) (p : Action α) (q : Ideal.Run β) : Prop :=
  ∀ m : Machine, Lockstep f m (p m) (q m.ideal)

/-- What has been in lockstep before is so with what came before. -/
theorem Lockstep.after {f : α → β} {m n : Machine} {steps : List Ideal.Step} {outcome : Outcome α}
    {trace : Ideal.Trace β} (hcame : m.Came n steps) (h : Lockstep f n outcome trace) :
    Lockstep f m outcome { trace with steps := steps ++ trace.steps } := by
  cases h with
  | value hrest => exact .value (hcame.trans hrest)
  | error hreason hrest => exact .error hreason (hcame.trans hrest)
  | overflow hoverflows hrest =>
    simp only [← List.append_assoc]
    exact .overflow hoverflows (hcame.trans hrest)
  | outOfFuel => exact .outOfFuel

namespace Tracks

variable {f : α → β} {g : γ → δ} {p p' : Action α} {q q' : Ideal.Run β}

/-- A value is given alike. -/
theorem pure (a : α) : Tracks f (pure a) (pure (f a)) :=
  fun m => .value (.refl m)

/-- A failure that is no overflow is the same on both sides. -/
theorem fail {reason : EvalError} (h : reason.isOverflow = false) :
    Tracks f (fail reason) (Ideal.Run.stop (.error reason)) :=
  fun m => .error h (.refl m)

/-- A run out of fuel is compared with nothing. -/
theorem outOfFuel : Tracks f outOfFuel q :=
  fun _ => .outOfFuel

/-- A part of the machine that is alike on both sides is read alike. -/
theorem read {part : Machine → α} {part' : Ideal.State → β} (h : ∀ m, part' m.ideal = f (part m)) :
    Tracks f (read part) (Ideal.Run.read part') := by
  intro m
  unfold Ideal.Run.read
  rw [h]
  exact .value (.refl m)

/-- A change that is alike on both sides is made alike. -/
theorem change {c : Machine → Machine} {c' : Ideal.State → Ideal.State} (h : ChangesAlike c c') :
    Tracks id (change c) (Ideal.Run.change c') := by
  intro m
  unfold Ideal.Run.change
  rw [← h.ideal]
  exact .value (h.came m)

/-- The report that an expression comes next is a step over the integers. -/
theorem record_evaluate (e : Expr) :
    Tracks id (record (.evaluate e)) (Ideal.Run.note fun _ => .evaluate e) := by
  intro m
  have hcame : m.Came (m.record (.evaluate e)) [.evaluate e] :=
    ⟨m.journal.listening_record _, fun h => Journal.evaluated_record_evaluate h e,
      List.forall_mem_singleton.mpr trivial⟩
  exact .value hcame

/-- Equivalent conditions choose alike. -/
theorem ite {c d : Prop} [Decidable c] [Decidable d] (hcd : c ↔ d) (h : Tracks f p q)
    (h' : Tracks f p' q') : Tracks f (if c then p else p') (if d then q else q') := by
  by_cases hc : c
  · rw [if_pos hc, if_pos (hcd.mp hc)]
    exact h
  · rw [if_neg hc, if_neg (mt hcd.mpr hc)]
    exact h'

/-- Sequences are in lockstep if their parts are. After an overflow nothing is asked of the second
part. -/
theorem bind {k : α → Action γ} {k' : β → Ideal.Run δ} (hp : Tracks f p q)
    (hk : ∀ a, Tracks g (k a) (k' (f a))) : Tracks g (p >>= k) (q >>= k') := by
  intro m
  have hfirst := hp m
  simp only [Bind.bind]
  revert hfirst
  generalize p m = outcome
  generalize q m.ideal = trace
  intro hfirst
  cases hfirst with
  | value hcame => exact (hk _ _).after hcame
  | error hreason hcame => exact .error hreason hcame
  | @overflow _ _ _ _ _ _ ending _ hoverflows hcame =>
    -- the run over the integers may go on; what it does then only comes later in its steps
    cases ending with
    | ok b =>
      simp only [List.append_assoc, List.cons_append]
      exact .overflow hoverflows hcame
    | error stop => exact .overflow hoverflows hcame
  | outOfFuel => exact .outOfFuel

/-- What surrounds an action is done in lockstep, on every way out. -/
theorem within {enter leave : Machine → Machine} {enter' leave' : Ideal.State → Ideal.State}
    (henter : ChangesAlike enter enter') (hleave : ChangesAlike leave leave') (hp : Tracks f p q) :
    Tracks f (within enter leave p) (Ideal.Run.within enter' leave' q) := by
  intro m
  have hbody := hp (enter m)
  rw [henter.ideal] at hbody
  rw [within_eq_mapState, Ideal.Run.within]
  revert hbody
  generalize p (enter m) = outcome
  generalize q (enter' m.ideal) = trace
  intro hbody
  cases hbody with
  | value hcame =>
    simp only [← hleave.ideal]
    exact .value (henter.came_within hleave hcame)
  | error hreason hcame =>
    simp only [← hleave.ideal]
    exact .error hreason (henter.came_within hleave hcame)
  | @overflow _ _ _ n _ _ _ _ hoverflows hcame =>
    rw [← hleave.sink n]
    exact .overflow hoverflows (henter.came_within hleave hcame)
  | outOfFuel => exact .outOfFuel

/-- Reports around an action are not made over the integers. -/
theorem within_record {event event' : Event} (h : event.expression? = none)
    (h' : event'.expression? = none) (hp : Tracks f p q) :
    Tracks f (Action.within (·.record event) (·.record event') p) q :=
  within (.record h) (.record h') hp

/-- A report after an action is not made over the integers. -/
theorem then_record (event : α → Event) (h : ∀ a, (event a).expression? = none)
    (hp : Tracks f p q) :
    Tracks f (p >>= fun a => record (event a) >>= fun _ => Pure.pure a) q := by
  intro m
  have hfirst := hp m
  simp only [Bind.bind]
  revert hfirst
  generalize p m = outcome
  generalize q m.ideal = trace
  intro hfirst
  cases hfirst with
  | @value a n steps hcame =>
    have hreport := hcame.trans ((ChangesAlike.record (h a)).came n)
    rw [List.append_nil] at hreport
    exact .value hreport
  | error hreason hcame => exact .error hreason hcame
  | overflow hoverflows hcame => exact .overflow hoverflows hcame
  | outOfFuel => exact .outOfFuel

end Tracks

end Action

/-! ### Steps -/

open Scriptlet.Action

/-- An operator has its exact result unless it overflows. -/
theorem apply_tracks (op : Operator) (v w : Value) :
    Tracks Int64.toInt (ofExcept (op.apply v w)) (Ideal.applyOperator op v.toInt w.toInt) := by
  intro m
  rw [Ideal.applyOperator_eq]
  rcases op.apply_cases v w with ⟨hrange, ⟨hzero, happly⟩ | ⟨hnonzero, u, happly, hu⟩⟩ | ⟨happly, hover⟩
  · rw [happly, if_pos hzero]
    exact .error rfl (.apply m hrange _)
  · rw [happly, if_neg hnonzero]
    have hvalue := Lockstep.value (f := Int64.toInt) (a := u) (.apply m hrange m.sink)
    rwa [hu] at hvalue
  · rw [happly]
    exact .overflow hover (.refl m)

/-- Variables have their integers, or are unbound on both sides. -/
theorem readVariable_tracks (name : String) :
    Tracks Int64.toInt (readVariable name) (Ideal.readVariable name) := by
  apply (Tracks.read fun m => m.valueOf?_ideal name).bind
  intro found
  cases found with
  | none => exact .fail rfl
  | some v => exact .pure v

/-- Values are printed alike, and the sink fails alike. -/
theorem printValue_tracks (v : Value) :
    Tracks id (printValue v) (Ideal.printInteger v.toInt) := by
  intro m
  have hsink : m.ideal.sink.print (Value.decimal v.toInt) = m.sink.print (Value.text v) := rfl
  unfold printValue Ideal.printInteger
  rw [hsink]
  obtain ⟨failure, sink⟩ := m.sink.print (Value.text v)
  cases failure with
  | none => exact .value (.of_journal_eq rfl)
  | some reason => exact .error rfl (.of_journal_eq rfl)

/-- Functions are found alike. -/
theorem findFunction_tracks (name : String) (given : Nat) :
    Tracks id (findFunction name given) (Ideal.findFunction name given) := by
  have hread : Tracks id (Action.read fun m => m.functions.get? name)
      (Ideal.Run.read fun s => s.functions.get? name) := .read fun _ => rfl
  apply hread.bind
  intro found
  cases found with
  | none => exact .fail rfl
  | some f => exact .ite Iff.rfl (.pure f) (.fail rfl)

/-! ### Expressions -/

section nested

variable {eval : Expr → Action Value} {ideal : Expr → Ideal.Run Int}
  (he : ∀ e, Tracks Int64.toInt (eval e) (ideal e))

include he

/-- Expressions one after the other track each other, as each of them does. -/
theorem evalFrom_tracks (last : Value) (b : Block) :
    Tracks Int64.toInt (evalFrom eval last b) (Ideal.evalFrom ideal last.toInt b) := by
  induction b generalizing last with
  | nil => exact .pure last
  | cons e es ih => exact (he e).bind fun v => ih v

/-- Blocks track each other if their expressions do. -/
theorem evalBlock_tracks (b : Block) :
    Tracks Int64.toInt (evalBlock eval b) (Ideal.evalBlock ideal b) :=
  evalFrom_tracks he 0 b

/-- Arguments track each other if each of them does. -/
theorem evalArguments_tracks (es : List Expr) :
    Tracks (List.map Int64.toInt) (evalArguments eval es) (Ideal.evalArguments ideal es) := by
  induction es with
  | nil => exact .pure []
  | cons e es ih => exact (he e).bind fun v => ih.bind fun vs => .pure (v :: vs)

/-- A condition is zero on both sides or on neither. -/
theorem evalLoop_tracks (condition : Expr) (body : Block) (rounds : Nat) :
    Tracks Int64.toInt (evalLoop eval condition body rounds)
      (Ideal.evalLoop ideal condition body rounds) := by
  induction rounds with
  | zero => exact .outOfFuel
  | succ rounds ih =>
    apply (he condition).bind
    intro v
    exact .ite Int64.toInt_inj.symm (.pure 1) ((evalBlock_tracks he body).bind fun _ => ih)

/-- A call finds the same function, enters the same frame and leaves it on every way out. -/
theorem evalCall_tracks (name : String) (arguments : List Expr) :
    Tracks Int64.toInt (evalCall eval name arguments) (Ideal.evalCall ideal name arguments) := by
  apply Tracks.within_record rfl rfl
  apply (findFunction_tracks name _).bind
  intro f
  apply (evalArguments_tracks he arguments).bind
  intro values
  have henter : ChangesAlike (·.enterFrame (f.parameters.zip values))
      (·.enterFrame (f.parameters.zip (values.map Int64.toInt))) := by
    refine .of_journal_eq (fun m => ?_) (fun _ => rfl) fun _ => rfl
    rw [List.zip_map_right]
    exact m.ideal_enterFrame _
  have hleave : ChangesAlike (·.leaveFrame) (·.leaveFrame) :=
    .of_journal_eq Machine.ideal_leaveFrame (fun _ => rfl) fun _ => rfl
  exact (evalBlock_tracks he f.body).within henter hleave

/-- An expression is in lockstep with its reading over the integers if its parts are. -/
theorem evalExpr_tracks (rounds : Nat) (e : Expr) :
    Tracks Int64.toInt (evalExpr eval rounds e) (Ideal.evalExpr ideal rounds e) := by
  cases e with
  | int v => exact .pure v
  | var x => exact readVariable_tracks x
  | assign x e =>
    apply Tracks.ite Iff.rfl (.fail rfl)
    apply (he e).bind
    intro v
    have hassign : ChangesAlike (fun m => (m.assign x v).2) (·.assign x v.toInt) :=
      .of_journal_eq (fun m => m.ideal_assign x v) (fun _ => rfl) fun _ => rfl
    exact (Tracks.change hassign).bind fun _ => .pure v
  | binary op l r =>
    exact (he l).bind fun v => (he r).bind fun w => apply_tracks op v w
  | block b => exact evalBlock_tracks he b
  | whileDo c b => exact evalLoop_tracks he c b rounds
  | ifThen c b =>
    exact (he c).bind fun v => .ite Int64.toInt_inj.symm (.pure 1) (evalBlock_tracks he b)
  | ifElse c b d =>
    exact (he c).bind fun v =>
      .ite Int64.toInt_inj.symm (evalBlock_tracks he d) (evalBlock_tracks he b)
  | print e => exact (he e).bind fun v => (printValue_tracks v).bind fun _ => .pure v
  | call f arguments => exact evalCall_tracks he f arguments

end nested

/-- Evaluation is in lockstep with that over the integers, at any fuel. -/
theorem evalAtFuel_tracks (fuel : Nat) (e : Expr) :
    Tracks Int64.toInt (evalAtFuel fuel e) (Ideal.evalAtFuel fuel e) := by
  induction fuel generalizing e with
  | zero => exact .outOfFuel
  | succ fuel ih => exact (Tracks.record_evaluate e).bind fun _ => evalExpr_tracks ih fuel e

/-! ### Runs -/

/-- Definitions track each other: a malformed function is refused on both sides. -/
theorem declareAtFuel_tracks (fuel : Nat) (d : Definition) :
    Tracks id (declareAtFuel fuel d) (Ideal.declareAtFuel fuel d) := by
  cases d with
  | function f =>
    simp only [declareAtFuel, Ideal.declareAtFuel]
    cases f.malformation? with
    | some reason => exact .fail rfl
    | none => exact .change (.of_journal_eq (fun m => m.ideal_register f) (fun _ => rfl) fun _ => rfl)
  | global x e =>
    apply (evalAtFuel_tracks fuel e).bind
    intro v
    have hdefine : ChangesAlike (·.defineGlobal x v) (·.defineGlobal x v.toInt) :=
      .of_journal_eq (fun m => m.ideal_defineGlobal x v) (fun _ => rfl) fun _ => rfl
    exact .then_record (fun _ => .globalDefined x v) (fun _ => rfl) (.change hdefine)

/-- Definitions in order track each other, as each of them does. -/
theorem declareAllAtFuel_tracks (fuel : Nat) (ds : List Definition) :
    Tracks id (declareAllAtFuel fuel ds) (Ideal.declareAllAtFuel fuel ds) := by
  induction ds with
  | nil => exact .pure ()
  | cons d ds ih => exact (declareAtFuel_tracks fuel d).bind fun _ => ih

/-- The entry point is the same, or missing, on both sides. -/
theorem enterProgramAtFuel_tracks (fuel : Nat) :
    Tracks Int64.toInt (enterProgramAtFuel fuel) (Ideal.enterProgramAtFuel fuel) := by
  have hread : Tracks id (Action.read fun m => m.functions.get? entryName)
      (Ideal.Run.read fun s => s.functions.get? entryName) := .read fun _ => rfl
  apply hread.bind
  intro found
  cases found with
  | none => exact .fail rfl
  | some main =>
    have hbody := evalBlock_tracks (evalAtFuel_tracks fuel) main.body
    exact .then_record .mainReturned (fun _ => rfl) hbody

/-- Runs of programs track each other. -/
theorem runAtFuel_tracks (fuel : Nat) (p : Program) :
    Tracks Int64.toInt (runAtFuel fuel p) (Ideal.runAtFuel fuel p) := by
  apply Tracks.within_record rfl rfl
  apply Tracks.ite Iff.rfl _ (.fail rfl)
  exact (declareAllAtFuel_tracks fuel p.definitions).bind fun _ => enterProgramAtFuel_tracks fuel

/-- A run computes with integers as if they had no bounds, until an operator overflows. If the run does
not fail for an overflow, the run over the integers ends as well, with the same integer or error and in
the same state: the same variables, functions and output. If it fails because an operator overflows,
that operator is no comparison, and the run over the integers does the same up to an application of it:
it comes to the same expressions and prints the same, and all results up to there are values, but
the result of that application is none. A quotient overflows only for the least value by minus one. -/
theorem run_exact_until_overflow {p : Program} {sink : Sink} {listening : Bool} {fuel : Nat}
    {result : Except EvalError Value} {m : Machine}
    (h : (runAtFuel fuel p (.fresh sink ⟨listening, []⟩)).ending? = some (result, m)) :
    let trace := Ideal.runAtFuel fuel p (.fresh sink)
    ((∀ op, result ≠ .error (.overflow op)) →
      trace.ending = (result.map Int64.toInt).mapError Ideal.Stop.error ∧ trace.state = m.ideal ∧
        (listening → Ideal.evaluated trace.steps = m.journal.evaluated) ∧
        ∀ step ∈ trace.steps, step.InRange) ∧
    ∀ op, result = .error (.overflow op) →
      op ∈ [.add, .subtract, .multiply, .divide] ∧
      ∃ earlier l r later, trace.steps = earlier ++ .apply op l r m.sink :: later ∧
        (listening → Ideal.evaluated earlier = m.journal.evaluated) ∧
        (∀ step ∈ earlier, step.InRange) ∧ op.Overflows l r ∧
        (op = .divide → l = Value.least ∧ r = -1) := by
  have hrun := runAtFuel_tracks fuel p (.fresh sink ⟨listening, []⟩)
  rw [Machine.ideal_fresh] at hrun
  revert h hrun
  generalize runAtFuel fuel p (.fresh sink ⟨listening, []⟩) = outcome
  generalize Ideal.runAtFuel fuel p (.fresh sink) = trace
  intro h hrun
  cases hrun with
  | value hcame =>
    cases h
    exact ⟨fun _ => ⟨rfl, rfl, fun hl => (hcame.evaluated hl).symm, hcame.inRange⟩, nofun⟩
  | error hreason hcame =>
    cases h
    refine ⟨fun _ => ⟨rfl, rfl, fun hl => (hcame.evaluated hl).symm, hcame.inRange⟩, ?_⟩
    rintro op ⟨⟩
    cases hreason
  | overflow hover hcame =>
    cases h
    refine ⟨fun hnot => absurd rfl (hnot _), ?_⟩
    rintro op ⟨⟩
    refine ⟨hover.mem, _, _, _, _, rfl, fun hl => (hcame.evaluated hl).symm, hcame.inRange, hover, ?_⟩
    rintro rfl
    exact hover.of_divide
  | outOfFuel => cases h

/-- A called function prints its divisor and divides the least value by it, which the run over the
integers does as well. -/
theorem run_exact_until_overflow_of_quotient :
    let p : Program := ⟨[.function ⟨"f", ["n", "d"], [.print (.var "d"),
        .binary .divide (.var "n") (.var "d")]⟩,
      .function ⟨"main", [], [.call "f" [.int Int64.minValue, .int (-1)]]⟩]⟩
    ∃ m earlier later, (runAtFuel 5 p (.fresh .unlimited .silent)).ending? =
        some (.error (.overflow .divide), m) ∧
      m.sink.texts = [['-', '1']] ∧
      (Ideal.runAtFuel 5 p (.fresh .unlimited)).steps =
        earlier ++ .apply .divide Value.least (-1) m.sink :: later := by
  intro p
  have hprinted : (runAtFuel 5 p (.fresh .unlimited .silent)).ending?.map
      (fun (result, m) => (result, m.sink.texts)) =
        some (.error (.overflow .divide), [['-', '1']]) := by
    rfl
  obtain ⟨⟨result, m⟩, h, heq⟩ := Option.map_eq_some_iff.mp hprinted
  obtain ⟨rfl, htexts⟩ := Prod.mk.inj heq
  obtain ⟨-, earlier, l, r, later, hsteps, -, -, -, hquotient⟩ :=
    (run_exact_until_overflow h).2 .divide rfl
  obtain ⟨rfl, rfl⟩ := hquotient rfl
  exact ⟨m, earlier, later, h, htexts, hsteps⟩

end Scriptlet
