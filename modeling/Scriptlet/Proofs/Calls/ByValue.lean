import Mathlib.Order.Filter.AtTopBot.Basic
import Scriptlet.Proofs.Eval.Confined
import Scriptlet.Proofs.Eval.Fuel
import Scriptlet.Proofs.Eval.Reports

/-!
# Calls by value

A call looks its function up, evaluates its arguments from left to right where the caller is, and then
evaluates the body. Of the arguments the body only sees the values: where they end, the call goes on as
the call with these values for arguments does (`evaluates_call_iff_literals`). Only the reports differ.
The one looks its function up before the arguments are evaluated and the other one after that, and in
between whole runs of other functions may lie; but evaluation makes no function known and none
forgotten.

* `call_by_value`: what a call does, for each way in which its look-up and its arguments may end.
-/

namespace Scriptlet

open Filter
open Scriptlet.Action

/-! ### Evaluation to an end -/

/-- The evaluation of an expression at a machine comes to an end, with a value or an error, and leaves
a machine. -/
def Evaluates (e : Expr) (m : Machine) (result : Except EvalError Value) (n : Machine) : Prop :=
  ∃ fuel, (evalAtFuel fuel e m).ending? = some (result, n)

/-- Several expressions have values, each of them where the previous one has left the machine. -/
inductive EvaluatesAll : List Expr → Machine → List Value → Machine → Prop where
  | nil (m : Machine) : EvaluatesAll [] m [] m
  | cons {e : Expr} {es : List Expr} {v : Value} {vs : List Value} {m k n : Machine} :
      Evaluates e m (.ok v) k → EvaluatesAll es k vs n → EvaluatesAll (e :: es) m (v :: vs) n

variable {name : String} {arguments es before after : List Expr} {e : Expr} {m n k : Machine}
  {f : Function} {values vs : List Value} {reason : EvalError}
  {result result' : Except EvalError Value} {fuel : Nat}

/-- An evaluation ends like this at every fuel from some one on. -/
theorem Evaluates.eventually (h : Evaluates e m result n) :
    ∀ᶠ fuel in atTop, (evalAtFuel fuel e m).ending? = some (result, n) := by
  obtain ⟨enough, h⟩ := h
  have hends : evalAtFuel enough e m ≠ .outOfFuel := by
    intro hout
    rw [hout] at h
    cases h
  filter_upwards [eventually_ge_atTop enough] with fuel hle
  rw [evalAtFuel_below hle e m hends, h]

/-- An evaluation comes to one end at most. -/
theorem Evaluates.unique (h : Evaluates e m result n) (h' : Evaluates e m result' k) :
    result = result' ∧ n = k := by
  obtain ⟨fuel, hfuel, hfuel'⟩ := (h.eventually.and h'.eventually).exists
  exact Prod.mk.inj (Option.some.inj (hfuel.symm.trans hfuel'))

namespace EvaluatesAll

/-- There are as many values as expressions. -/
theorem length (h : EvaluatesAll es m vs n) : vs.length = es.length := by
  induction h with
  | nil => rfl
  | cons _ _ ih => rw [List.length_cons, List.length_cons, ih]

/-- From some fuel on, several expressions have these values. -/
theorem eventually (h : EvaluatesAll es m vs n) :
    ∀ᶠ fuel in atTop, evalArguments (evalAtFuel fuel) es m = .value vs n := by
  induction h with
  | nil => exact .of_forall fun _ => rfl
  | cons he _ ih =>
    filter_upwards [he.eventually, ih] with fuel he hes
    rw [Outcome.ending?_eq_ok_iff] at he
    unfold evalArguments
    rw [bind_value he, bind_value hes]
    rfl

/-- Values that arguments have at some fuel are those that they have. -/
theorem of_evalArguments (h : evalArguments (evalAtFuel fuel) es m = .value vs n) :
    EvaluatesAll es m vs n := by
  induction es generalizing m vs with
  | nil =>
    cases h
    exact .nil _
  | cons e es ih =>
    obtain ⟨v, k, he, hrest⟩ := bind_eq_value_iff.mp h
    obtain ⟨ws, l, hes, hpure⟩ := bind_eq_value_iff.mp hrest
    cases hpure
    exact .cons ⟨fuel, Outcome.ending?_eq_ok_iff.mpr he⟩ (ih hes)

/-- The first of several expressions that fails ends the evaluation of them all. -/
theorem eventually_error (h : EvaluatesAll before m vs k) (he : Evaluates e k (.error reason) n)
    (after : List Expr) :
    ∀ᶠ fuel in atTop,
      evalArguments (evalAtFuel fuel) (before ++ e :: after) m = .error reason n := by
  induction h with
  | nil =>
    filter_upwards [he.eventually] with fuel he
    exact bind_error (Outcome.ending?_eq_error_iff.mp he)
  | cons hfirst _ ih =>
    filter_upwards [hfirst.eventually, ih he] with fuel hfirst hrest
    exact (bind_value (Outcome.ending?_eq_ok_iff.mp hfirst)).trans (bind_error hrest)

/-- Whatever the expressions call, the same functions are known afterwards. -/
theorem functions (h : EvaluatesAll es m vs n) : n.functions = m.functions := by
  obtain ⟨fuel, hvalues⟩ := h.eventually.exists
  have hconfined : Confined (fun _ => True) (evalArguments (evalAtFuel fuel) es) :=
    (confined_evaluative _).sequential.evalArguments fun e _ => evalAtFuel_confined_any fuel e
  exact (hconfined.samePlace hvalues).functions

end EvaluatesAll

/-! ### How a call starts and ends -/

/-- What a call reports if this is reported between its two ends. -/
def callReports (name : String) (arguments : List Expr) (told : List Event) : List Event :=
  .evaluate (.call name arguments) :: .enterCall name arguments.length :: (told ++ [.exitCall])

/-- The machine at which the function of a call is looked up. -/
def Machine.entering (m : Machine) (name : String) (arguments : List Expr) : Machine :=
  m.withJournal (m.journal.recordAll [.evaluate (.call name arguments), .enterCall name arguments.length])

/-- The body of a function in the frame of a call with these values. -/
def Function.applyAtFuel (fuel : Nat) (f : Function) (values : List Value) : Action Value :=
  .within (·.enterFrame (f.parameters.zip values)) (·.leaveFrame) (evalBlockAtFuel fuel f.body)

/-- A call looks for its function, then evaluates its arguments, then applies the function to them,
and is reported before and after. -/
theorem evalAtFuel_call (fuel : Nat) (name : String) (arguments : List Expr) (m : Machine) :
    evalAtFuel (fuel + 1) (.call name arguments) m =
      ((findFunction name arguments.length >>= fun f =>
        evalArguments (evalAtFuel fuel) arguments >>= f.applyAtFuel fuel)
          (m.entering name arguments)).mapState (·.record .exitCall) := by
  rw [evalAtFuel_succ, evalExpr, evalCall, within_eq_mapState]
  rfl

/-- A call of a known function evaluates its arguments, and then the body. -/
theorem evalAtFuel_known_call (hf : m.functions.get? name = some f)
    (hlength : f.parameters.length = arguments.length) (fuel : Nat) :
    evalAtFuel (fuel + 1) (.call name arguments) m =
      ((evalArguments (evalAtFuel fuel) arguments >>= f.applyAtFuel fuel)
        (m.entering name arguments)).mapState (·.record .exitCall) := by
  have hfind : findFunction name arguments.length (m.entering name arguments) =
      .value f (m.entering name arguments) := by
    rw [findFunction_apply, Machine.entering, Machine.functions_withJournal, hf]
    exact if_pos hlength
  rw [evalAtFuel_call, bind_value hfind]

/-- A call whose function is not found does nothing but report. -/
theorem evaluates_call_of_not_found
    (hfind : findFunction name arguments.length (m.entering name arguments) =
      .error reason (m.entering name arguments)) :
    Evaluates (.call name arguments) m (.error reason)
      (m.withJournal (m.journal.recordAll (callReports name arguments []))) := by
  refine ⟨1, ?_⟩
  rw [evalAtFuel_call, bind_error hfind]
  rfl

/-! ### Arguments -/

/-- Arguments are evaluated alike whatever was reported before. -/
theorem evalArguments_ignoresReports (fuel : Nat) (es : List Expr) :
    IgnoresReports (evalArguments (evalAtFuel fuel) es) :=
  ignoresReports_compositional.evaluative.sequential.evalArguments fun e _ =>
    ignoresReports_compositional.evalAtFuel fuel e

/-- The body of a function is evaluated alike whatever was reported before it is applied. -/
theorem Function.applyAtFuel_ignoresReports (fuel : Nat) (f : Function) (values : List Value) :
    IgnoresReports (f.applyAtFuel fuel values) :=
  ignoresReports_compositional.withinFrame _ (ignoresReports_compositional.evalBlockAtFuel fuel f.body)

/-- A call fails where one of its arguments does, and reports the arguments up to there. -/
theorem evaluates_call_of_error (hf : m.functions.get? name = some f)
    (hlength : f.parameters.length = (before ++ e :: after).length)
    (hbefore : EvaluatesAll before m vs k) (he : Evaluates e k (.error reason) n) :
    ∃ told, n.journal = m.journal.recordAll told ∧
      Evaluates (.call name (before ++ e :: after)) m (.error reason)
        (n.withJournal (m.journal.recordAll (callReports name (before ++ e :: after) told))) := by
  obtain ⟨fuel, herror⟩ := (hbefore.eventually_error he after).exists
  obtain ⟨told, hjournal, htold⟩ := (evalArguments_ignoresReports fuel _).error herror
  refine ⟨told, hjournal, fuel + 1, ?_⟩
  rw [evalAtFuel_known_call hf hlength, Machine.entering, bind_error (htold _)]
  simp only [callReports, Journal.recordAll_cons, Journal.recordAll_append]
  rfl

/-- A call whose arguments have values does what the body does after them, apart from the reports. -/
theorem evalAtFuel_call_of_values {i : Journal} (hf : m.functions.get? name = some f)
    (hlength : f.parameters.length = arguments.length)
    (hvalues : evalArguments (evalAtFuel fuel) arguments m = .value values (n.withJournal i)) :
    ∃ j, evalAtFuel (fuel + 1) (.call name arguments) m =
      (f.applyAtFuel fuel values n).mapState (·.withJournal j) := by
  obtain ⟨told, htold⟩ := evalArguments_ignoresReports fuel arguments m
  obtain ⟨more, hmore⟩ := f.applyAtFuel_ignoresReports fuel values n
  rw [hvalues] at htold
  let j := (m.entering name arguments).journal.recordAll told
  have hentered : evalArguments (evalAtFuel fuel) arguments (m.entering name arguments) =
      .value values (n.withJournal j) := htold _
  refine ⟨(j.recordAll more).record .exitCall, ?_⟩
  rw [evalAtFuel_known_call hf hlength, bind_value hentered, hmore, Outcome.mapState_mapState]
  rfl

/-- The evaluation of literals only reports. -/
theorem evalArguments_literals (fuel : Nat) (vs : List Value) (m : Machine) :
    ∃ j, evalArguments (evalAtFuel (fuel + 1)) (vs.map .int) m = .value vs (m.withJournal j) := by
  induction vs generalizing m with
  | nil => exact ⟨m.journal, rfl⟩
  | cons v vs ih =>
    have hfirst : evalAtFuel (fuel + 1) (.int v) m = .value v (m.record (.evaluate (.int v))) := rfl
    obtain ⟨j, hrest⟩ := ih (m.record (.evaluate (.int v)))
    refine ⟨j, ?_⟩
    rw [List.map_cons, evalArguments, bind_value hfirst, bind_value hrest]
    rfl

/-! ### The call with literals -/

/-- An outcome with other reports is one up to the reports. -/
theorem Outcome.ending?_withJournal_iff {α : Type} {outcome : Outcome α}
    {result : Except EvalError α} {i : Journal} {p : Machine} :
    (∃ j, (outcome.mapState (·.withJournal i)).ending? = some (result, p.withJournal j)) ↔
      ∃ j, outcome.ending? = some (result, p.withJournal j) := by
  cases outcome with
  | value a m =>
    simp only [mapState, ending?, Option.some.injEq, Prod.mk.injEq, exists_and_left,
      Machine.exists_eq_withJournal_iff]
  | error reason m =>
    simp only [mapState, ending?, Option.some.injEq, Prod.mk.injEq, exists_and_left,
      Machine.exists_eq_withJournal_iff]
  | outOfFuel => simp only [mapState]

/-- That an evaluation ends in a machine, apart from what is reported, shows at every fuel from some
one on. -/
theorem exists_evaluates_iff_eventually {p : Machine} :
    (∃ j, Evaluates e m result (p.withJournal j)) ↔
      ∀ᶠ fuel in atTop, ∃ j, (evalAtFuel fuel e m).ending? = some (result, p.withJournal j) := by
  constructor
  · rintro ⟨j, h⟩
    exact h.eventually.mono fun _ h => ⟨j, h⟩
  · intro h
    obtain ⟨fuel, j, h⟩ := h.exists
    exact ⟨j, fuel, h⟩

/-- A call whose arguments have values ends, if it does, as the call with these values for arguments,
made where the arguments have left the machine. -/
theorem evaluates_call_iff_literals (hf : m.functions.get? name = some f)
    (hlength : f.parameters.length = arguments.length) (h : EvaluatesAll arguments m values n)
    (result : Except EvalError Value) (p : Machine) :
    (∃ j, Evaluates (.call name arguments) m result (p.withJournal j)) ↔
      ∃ j, Evaluates (.call name (values.map .int)) n result (p.withJournal j) := by
  -- the function is found again after the arguments
  have hfn : n.functions.get? name = some f := h.functions.symm ▸ hf
  have hlengthn : f.parameters.length = (values.map Expr.int).length := by
    rw [List.length_map, h.length, hlength]
  rw [exists_evaluates_iff_eventually, exists_evaluates_iff_eventually]
  apply eventually_congr
  rw [← map_add_atTop_eq_nat 2, eventually_map]
  filter_upwards [(tendsto_add_atTop_nat 1).eventually h.eventually] with fuel hvalues
  obtain ⟨j, hcall⟩ := evalAtFuel_call_of_values hf hlength (i := n.journal) hvalues
  obtain ⟨_, hliterals⟩ := evalArguments_literals fuel values n
  obtain ⟨j', hcall'⟩ := evalAtFuel_call_of_values hfn hlengthn hliterals
  rw [hcall, hcall', Outcome.ending?_withJournal_iff, Outcome.ending?_withJournal_iff]

/-- What a call does. If no function has the name, or one with another number of parameters, it fails
and does nothing but report. If the first arguments have values and the next one fails, the call fails
with that error where the argument has left the machine, and has reported nothing after it but its
end. If all arguments have values, it has the outcome of the call with these values for arguments, made
where the arguments have left the machine; one of the two ends exactly if the other one does. -/
theorem call_by_value (name : String) (arguments : List Expr) (m : Machine) :
    (m.functions.get? name = none →
      Evaluates (.call name arguments) m (.error (.undefinedFunction name))
        (m.withJournal (m.journal.recordAll (callReports name arguments [])))) ∧
    ∀ f, m.functions.get? name = some f →
      (f.parameters.length ≠ arguments.length →
        Evaluates (.call name arguments) m
          (.error (.arityMismatch name f.parameters.length arguments.length))
          (m.withJournal (m.journal.recordAll (callReports name arguments [])))) ∧
      (f.parameters.length = arguments.length →
        (∀ before e after, arguments = before ++ e :: after →
          ∀ vs k reason n, EvaluatesAll before m vs k → Evaluates e k (.error reason) n →
            ∃ told, n.journal = m.journal.recordAll told ∧
              Evaluates (.call name arguments) m (.error reason)
                (n.withJournal (m.journal.recordAll (callReports name arguments told)))) ∧
        ∀ values n, EvaluatesAll arguments m values n →
          ∀ result (p : Machine),
            (∃ j, Evaluates (.call name arguments) m result (p.withJournal j)) ↔
              ∃ j, Evaluates (.call name (values.map .int)) n result (p.withJournal j)) := by
  refine ⟨fun hnone => ?_, fun f hf => ⟨fun hlength => ?_, fun hlength => ⟨?_, ?_⟩⟩⟩
  · apply evaluates_call_of_not_found
    rw [findFunction_apply, Machine.entering, Machine.functions_withJournal, hnone]
  · apply evaluates_call_of_not_found
    rw [findFunction_apply, Machine.entering, Machine.functions_withJournal, hf]
    exact if_neg hlength
  · rintro before e after rfl vs k reason n hbefore he
    exact evaluates_call_of_error hf hlength hbefore he
  · exact fun values n h => evaluates_call_iff_literals hf hlength h

/-- A function that prints and assigns: arguments of which one fails after an assignment, and arguments
that call the function themselves. -/
theorem call_by_value_of_nested_call :
    let f : Function := ⟨"f", ["a", "b", "c"],
      [.print (.var "a"), .assign "x" (.binary .add (.var "a") (.var "b"))]⟩
    let m := (Machine.fresh .unlimited .attentive).register f
    let few : List Expr := [.print (.int 1)]
    let unbound : List Expr := [.assign "x" (.int 3), .var "y", .print (.int 4)]
    let nested : List Expr := [.assign "x" (.int 5), .call "f" [.var "x", .int 2, .int 0], .var "x"]
    Evaluates (.call "g" few) m (.error (.undefinedFunction "g"))
      (m.withJournal (m.journal.recordAll (callReports "g" few []))) ∧
    Evaluates (.call "f" few) m (.error (.arityMismatch "f" 3 1))
      (m.withJournal (m.journal.recordAll (callReports "f" few []))) ∧
    (∃ (n : Machine) (told : List Event),
      n.valueOf? "x" = some 3 ∧ n.sink.texts = [] ∧ n.journal = m.journal.recordAll told ∧
        Evaluates (.call "f" unbound) m (.error (.unboundVariable "y"))
          (n.withJournal (m.journal.recordAll (callReports "f" unbound told)))) ∧
    ∃ n, EvaluatesAll nested m [5, 7, 7] n ∧ n.sink.texts = [['5']] ∧ ∀ result (p : Machine),
      (∃ j, Evaluates (.call "f" nested) m result (p.withJournal j)) ↔
        ∃ j, Evaluates (.call "f" [.int 5, .int 7, .int 7]) n result (p.withJournal j) := by
  intro f m few unbound nested
  have hf : m.functions.get? "f" = some f := rfl
  refine ⟨(call_by_value "g" few m).1 rfl, ?_, ?_, ?_⟩
  · exact ((call_by_value "f" few m).2 f hf).1 (by decide)
  · have hfirst : EvaluatesAll [.assign "x" (.int 3)] m [3] _ := .cons ⟨2, rfl⟩ (.nil _)
    obtain ⟨told, hjournal, hcall⟩ := (((call_by_value "f" unbound m).2 f hf).2 rfl).1
      [.assign "x" (.int 3)] (.var "y") _ rfl _ _ _ _ hfirst ⟨1, rfl⟩
    exact ⟨_, told, rfl, rfl, hjournal, hcall⟩
  · have hprinted : (evalArguments (evalAtFuel 4) nested m).ending?.map
        (fun (result, n) => (result.toOption, n.sink.texts)) = some (some [5, 7, 7], [['5']]) := by
      decide +kernel
    obtain ⟨⟨result, n⟩, hends, heq⟩ := Option.map_eq_some_iff.mp hprinted
    obtain ⟨hresult, htexts⟩ := Prod.mk.inj heq
    obtain rfl : result = .ok [5, 7, 7] := by
      cases result with
      | ok vs => exact congrArg Except.ok (Option.some.inj hresult)
      | error reason => cases hresult
    have hvalues := EvaluatesAll.of_evalArguments (Outcome.ending?_eq_ok_iff.mp hends)
    exact ⟨n, hvalues, htexts, (((call_by_value "f" nested m).2 f hf).2 rfl).2 _ n hvalues⟩

end Scriptlet
