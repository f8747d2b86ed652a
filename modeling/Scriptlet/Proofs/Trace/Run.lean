import Scriptlet.Proofs.Runs.Processing
import Scriptlet.Proofs.Trace.Evaluation

/-!
# The trace of a run

A run reports that it enters the program, what the initial values of global variables and the body of the
entry point tell, and that it leaves the program. Between the traces of evaluations stand only the
reports of the global variables that have been defined and that of the result. Both are read off the
trace piece by piece (`Traces`), and every way in which a run may end (`RunEnds`) puts the pieces
together.

* `run_trace`: what the trace of a run that ends, with a value or an error, looks like.
-/

namespace Scriptlet

open Scriptlet.Action

/-- The global variable that has been defined, in a report of one. -/
def Event.definition? : Event → Option (String × Value)
  | .globalDefined x v => some (x, v)
  | .enterMain _ | .exitMain | .enterCall _ _ | .exitCall | .evaluate _ | .mainReturned _ => none

/-- The result of the program, in its report. -/
def Event.returned? : Event → Option Value
  | .mainReturned v => some v
  | .enterMain _ | .exitMain | .enterCall _ _ | .exitCall | .evaluate _ | .globalDefined _ _ => none

/-- The global variables whose initial values can be evaluated, with these values, in the order of their
definitions up to the first one that cannot be processed. -/
def initialValues (fuel : Nat) : List Definition → Machine → List (String × Value)
  | [], _ => []
  | .function f :: ds, m =>
    if f.name ≠ "" ∧ f.parameters.Nodup then initialValues fuel ds (m.register f) else []
  | .global x e :: ds, m =>
    match evalAtFuel fuel e m with
    | .value v k => (x, v) :: initialValues fuel ds ((k.defineGlobal x v).record (.globalDefined x v))
    | .error _ _ | .outOfFuel => []

variable {fuel : Nat} {p : Program} {m n k : Machine} {ds rest : List Definition} {d : Definition}
  {reason : EvalError} {result : Except EvalError Value}

/-- Initial values are those of the definitions that were processed, and then those of the rest. -/
theorem initialValues_append (h : Processes fuel ds m n) (rest : List Definition) :
    initialValues fuel (ds ++ rest) m = initialValues fuel ds m ++ initialValues fuel rest n := by
  induction h with
  | nil m => rfl
  | function hname hnodup _ ih =>
    rw [List.cons_append, initialValues, initialValues, if_pos ⟨hname, hnodup⟩,
      if_pos ⟨hname, hnodup⟩, ih]
  | global hinitial _ ih =>
    simp only [List.cons_append, initialValues, hinitial, ih]

/-- From a definition that fails on, no global variable is defined. -/
theorem initialValues_of_failsAt (h : FailsAt fuel d m reason n) (rest : List Definition) :
    initialValues fuel (d :: rest) m = [] := by
  cases h with
  | unnamed _ hname => exact if_neg fun h => h.1 hname
  | repeated _ _ hx => exact if_neg fun h => hx.not_nodup h.2
  | global hinitial => simp only [initialValues, hinitial]

/-! ### Pieces of a trace -/

/-- A piece of a trace between entering and leaving the program, with the global variables and the
results that it reports. -/
structure Traces (told : List Event) (globals : List (String × Value)) (results : List Value) :
    Prop where
  built : Told Event.IsPlain told
  globals : told.filterMap Event.definition? = globals
  results : told.filterMap Event.returned? = results

namespace Traces

/-- A piece may be empty. -/
theorem nil : Traces [] [] [] :=
  ⟨.nil, rfl, rfl⟩

/-- Two pieces one after the other are a piece. -/
theorem append {told told' : List Event} {globals globals' : List (String × Value)}
    {results results' : List Value} (h : Traces told globals results)
    (h' : Traces told' globals' results') :
    Traces (told ++ told') (globals ++ globals') (results ++ results') := by
  refine ⟨h.built.append h'.built, ?_, ?_⟩
  · rw [List.filterMap_append, h.globals, h'.globals]
  · rw [List.filterMap_append, h.results, h'.results]

/-- Evaluation defines no global variable and gives the program no result. -/
theorem evaluation {told : List Event} (h : Told Event.IsStep told) : Traces told [] [] := by
  refine ⟨h.mono fun _ => Event.IsStep.isPlain, ?_, ?_⟩
  all_goals
    refine h.filterMap_eq_nil (fun event hevent => ?_) (fun _ => rfl) (fun _ _ => rfl) rfl
    cases event <;> first | rfl | exact hevent.elim

/-- The report of a global variable is a piece. -/
theorem globalDefined (x : String) (v : Value) : Traces [.globalDefined x v] [(x, v)] [] :=
  ⟨.report trivial .nil, rfl, rfl⟩

/-- The report of a result is a piece. -/
theorem mainReturned (v : Value) : Traces [.mainReturned v] [] [v] :=
  ⟨.report trivial .nil, rfl, rfl⟩

end Traces

/-- What definitions tell that are processed: their initial values. -/
theorem Processes.traces (h : Processes fuel ds m n) :
    ∃ told, Traces told (initialValues fuel ds m) [] ∧ n.journal = m.journal.recordAll told := by
  induction h with
  | nil m => exact ⟨[], .nil, rfl⟩
  | function hname hnodup _ ih =>
    rw [initialValues, if_pos ⟨hname, hnodup⟩]
    exact ih
  | @global x e v ds m k n hinitial _ ih =>
    obtain ⟨told, htold, hk⟩ := evalAtFuel_tells fuel e m (.ok v) k (by rw [hinitial]; rfl)
    obtain ⟨told', htold', hn⟩ := ih
    have hpiece := ((Traces.evaluation htold).append (.globalDefined x v)).append htold'
    refine ⟨(told ++ [.globalDefined x v]) ++ told', ?_, ?_⟩
    · rw [initialValues, hinitial]
      exact hpiece
    · rw [hn, Journal.recordAll_append, Journal.recordAll_append, ← hk]
      rfl

/-- What a definition tells that fails. -/
theorem FailsAt.traces (h : FailsAt fuel d m reason n) :
    ∃ told, Traces told [] [] ∧ n.journal = m.journal.recordAll told := by
  cases h with
  | unnamed _ _ => exact ⟨[], .nil, rfl⟩
  | repeated _ _ _ => exact ⟨[], .nil, rfl⟩
  | @global x e reason m n hinitial =>
    obtain ⟨told, htold, hn⟩ := evalAtFuel_tells fuel e m (.error reason) n (by rw [hinitial]; rfl)
    exact ⟨told, .evaluation htold, hn⟩

/-! ### Runs -/

/-- The global variables that a run defines, with their values: none if the program cannot be
started. -/
def definedGlobals (fuel : Nat) (p : Program) (m : Machine) : List (String × Value) :=
  if p.hasEntryPoint then initialValues fuel p.definitions (p.entered m) else []

/-- A journal is built up from entering the program to leaving it. -/
theorem journal_of_left {told : List Event} (h : n.journal = (p.entered m).journal.recordAll told) :
    (n.record .exitMain).journal =
      m.journal.recordAll (.enterMain p.definitions.length :: (told ++ [.exitMain])) := by
  rw [Journal.recordAll_cons, Journal.recordAll_append]
  exact congrArg (·.record .exitMain) h

/-- The trace of a run that ends, from entering to leaving the program. The report of the result, if
there is one, is the last before the program is left. -/
theorem run_traces (h : (runAtFuel fuel p m).ending? = some (result, n)) :
    ∃ told, Traces told (definedGlobals fuel p m) result.toOption.toList ∧
      (∀ v, result = .ok v → [.mainReturned v] <:+ told) ∧
      n.journal =
        m.journal.recordAll (.enterMain p.definitions.length :: (told ++ [.exitMain])) := by
  have hends := runEnds fuel p m
  generalize runAtFuel fuel p m = outcome at hends h
  have hstarted : ∀ {main}, p.StartsAt main →
      definedGlobals fuel p m = initialValues fuel p.definitions (p.entered m) := fun hp =>
    if_pos (Program.hasEntryPoint_iff.mpr ⟨_, hp⟩)
  cases hends with
  | notStarted hstarts =>
    cases h
    -- without an entry point no definition is processed
    have hnone : definedGlobals fuel p m = [] :=
      if_neg fun hentry => hstarts (Program.hasEntryPoint_iff.mp hentry)
    exact ⟨[], hnone ▸ .nil, nofun, rfl⟩
  | @failed main before after d k n reason hp hsplit hbefore hd =>
    cases h
    obtain ⟨told, htold, hk⟩ := hbefore.traces
    obtain ⟨told', htold', hn⟩ := hd.traces
    refine ⟨told ++ told', ?_, nofun, ?_⟩
    · rw [hstarted hp, hsplit, initialValues_append hbefore, initialValues_of_failsAt hd]
      exact htold.append htold'
    · exact journal_of_left (by rw [hn, hk, Journal.recordAll_append])
  | @bodyFailed main k n reason hp hk hbody =>
    cases h
    obtain ⟨told, htold, hk⟩ := hk.traces
    obtain ⟨told', htold', hn⟩ :=
      evalBlockAtFuel_tells fuel main.body k (.error reason) n (by rw [hbody]; rfl)
    refine ⟨told ++ told', ?_, nofun, ?_⟩
    · rw [hstarted hp, ← List.append_nil (initialValues _ _ _)]
      exact htold.append (.evaluation htold')
    · exact journal_of_left (by rw [hn, hk, Journal.recordAll_append])
  | @returned main k n v hp hk hbody =>
    cases h
    obtain ⟨told, htold, hk⟩ := hk.traces
    obtain ⟨told', htold', hn⟩ :=
      evalBlockAtFuel_tells fuel main.body k (.ok v) n (by rw [hbody]; rfl)
    refine ⟨told ++ told' ++ [.mainReturned v], ?_, ?_, ?_⟩
    · have hpiece := (htold.append (.evaluation htold')).append (.mainReturned v)
      rwa [List.append_nil, List.append_nil, ← hstarted hp] at hpiece
    · rintro _ ⟨⟩
      exact List.suffix_append _ _
    · have hjournal : (n.record (.mainReturned v)).journal =
          (p.entered m).journal.recordAll (told ++ told' ++ [.mainReturned v]) := by
        rw [Journal.recordAll_append, Journal.recordAll_append, ← hk, ← hn]
        rfl
      exact journal_of_left hjournal
  | outOfFuel => cases h

/-- The trace of a run of a program that ends, with a value or an error. It starts by entering the program
and ends by leaving it, and between them calls are properly nested and the program is not entered again.
Every expression that calls is followed at once by entering its call, with its name and number of
arguments, and no call is entered otherwise. The global variables that are reported are those whose
initial values could be evaluated, in order and with these values. A result is reported exactly if the
run has one, once and just before the program is left. -/
theorem run_trace {sink : Sink}
    (h : (runAtFuel fuel p (.fresh sink .attentive)).ending? = some (result, m)) :
    (∃ body, Nested body ∧
      m.journal.events = .enterMain p.definitions.length :: (body ++ [.exitMain])) ∧
    m.journal.events.IsChain Event.Announces ∧
    m.journal.events.filterMap Event.definition? = definedGlobals fuel p (.fresh sink .attentive) ∧
    m.journal.events.filterMap Event.returned? = result.toOption.toList ∧
    ∀ v, result = .ok v → [.mainReturned v, .exitMain] <:+ m.journal.events := by
  obtain ⟨told, htold, hlast, hjournal⟩ := run_traces h
  have hevents : m.journal.events = .enterMain p.definitions.length :: (told ++ [.exitMain]) := by
    rw [hjournal, Journal.events_recordAll rfl]
    rfl
  rw [hevents]
  refine ⟨⟨told, htold.built.nested, rfl⟩, htold.built.isChain nofun nofun, ?_, ?_, ?_⟩
  · rw [List.filterMap_cons_none rfl, List.filterMap_append, htold.globals]
    exact List.append_nil _
  · rw [List.filterMap_cons_none rfl, List.filterMap_append, htold.results]
    exact List.append_nil _
  · intro v hv
    obtain ⟨before, rfl⟩ := hlast v hv
    exact ⟨.enterMain p.definitions.length :: before, by simp⟩

/-- The first of two global variables gets its value from a call, and the second one calls a function that
is not known. That call is entered and left, and its argument is not evaluated. -/
theorem run_trace_of_unknown_function :
    let f : Function := ⟨"f", ["n"], [.var "n"]⟩
    let a : Expr := .call "f" [.int 3]
    let b : Expr := .call "g" [.call "f" [.int 4]]
    let p : Program :=
      ⟨[.function f, .global "a" a, .global "b" b, .function ⟨"main", [], []⟩]⟩
    let events : List Event := [.enterMain 4, .evaluate a, .enterCall "f" 1, .evaluate (.int 3),
      .evaluate (.var "n"), .exitCall, .globalDefined "a" 3, .evaluate b, .enterCall "g" 1, .exitCall,
      .exitMain]
    ∃ m, (runAtFuel 9 p (.fresh .unlimited .attentive)).ending? =
        some (.error (.undefinedFunction "g"), m) ∧ m.journal.events = events ∧
      events.IsChain Event.Announces ∧ definedGlobals 9 p (.fresh .unlimited .attentive) = [("a", 3)] := by
  intro f a b p events
  have hends : ((runAtFuel 9 p (.fresh .unlimited .attentive)).ending?.map fun (result, m) =>
      (result, m.journal.events)) = some (.error (.undefinedFunction "g"), events) := by
    decide +kernel
  obtain ⟨⟨_, m⟩, hrun, heq⟩ := Option.map_eq_some_iff.mp hends
  obtain ⟨rfl, hevents⟩ := Prod.mk.inj heq
  obtain ⟨-, hchain, hglobals, -, -⟩ := run_trace hrun
  rw [hevents] at hchain hglobals
  exact ⟨m, hrun, hevents, hchain, hglobals.symm⟩

end Scriptlet
