import Scriptlet.Proofs.Eval.Compositional
import Scriptlet.Proofs.Trace.Evaluation

/-!
# What was reported before

Reports are written and never read. What an action does, and what it reports, is therefore the same
whatever the journal holds already (`Action.IgnoresReports`): at a machine with another journal it ends
alike, and adds the same reports to that one. Of a journal in which nothing is kept one could not say
what was added to it; with all journals at once, one can.

* `ignoresReports_compositional`: evaluation and runs have this property.
* `IgnoresReports.error`: what it says of an action that fails.
-/

namespace Scriptlet

/-- A machine with other reports. -/
def Machine.withJournal (m : Machine) (j : Journal) : Machine :=
  { m with journal := j }

namespace Machine

/-- Another journal leaves the functions as they are. -/
@[simp] theorem functions_withJournal (m : Machine) (j : Journal) :
    (m.withJournal j).functions = m.functions := rfl

/-- Machines that are the same but for their reports. -/
theorem exists_eq_withJournal_iff {m n : Machine} {j : Journal} :
    (∃ i, m.withJournal j = n.withJournal i) ↔ ∃ i, m = n.withJournal i := by
  constructor
  · rintro ⟨i, h⟩
    exact ⟨m.journal, congrArg (·.withJournal m.journal) h⟩
  · rintro ⟨i, rfl⟩
    exact ⟨j, rfl⟩

end Machine

namespace Action

variable {α β : Type} {p : Action α} {m n : Machine}

/-- A change of the machine makes these reports, and has nothing to do with earlier ones. -/
def Reporting (events : List Event) (g : Machine → Machine) : Prop :=
  ∀ (m : Machine) (j : Journal), g (m.withJournal j) = (g m).withJournal (j.recordAll events)

/-- A change of the machine that reports nothing. -/
theorem Reporting.silent {g : Machine → Machine}
    (h : ∀ m j, g (Machine.withJournal m j) = (g m).withJournal j) : Reporting [] g :=
  h

/-- A report is made whatever was reported before. -/
theorem Reporting.record (event : Event) : Reporting [event] (·.record event) :=
  fun _ _ => rfl

/-- From wherever it starts, an action makes the same reports and ends alike, whatever was reported
before. -/
def IgnoresReports (p : Action α) : Prop :=
  ∀ m : Machine, ∃ told, ∀ j : Journal,
    p (m.withJournal j) = (p m).mapState (·.withJournal (j.recordAll told))

namespace IgnoresReports

/-- What an action that fails has reported, and how it ends with other reports before. -/
theorem error {reason : EvalError} (hp : IgnoresReports p) (h : p m = .error reason n) :
    ∃ told, n.journal = m.journal.recordAll told ∧
      ∀ j, p (m.withJournal j) = .error reason (n.withJournal (j.recordAll told)) := by
  obtain ⟨told, htold⟩ := hp m
  rw [h] at htold
  have hsame : p m = .error reason (n.withJournal (m.journal.recordAll told)) := htold m.journal
  rw [h] at hsame
  injection hsame with _ hn
  exact ⟨told, congrArg Machine.journal hn, htold⟩

/-! ### Steps -/

/-- A value is given without a report. -/
theorem pure (a : α) : IgnoresReports (pure a : Action α) :=
  fun _ => ⟨[], fun _ => rfl⟩

/-- A failure makes no report. -/
theorem fail (reason : EvalError) : IgnoresReports (fail reason : Action α) :=
  fun _ => ⟨[], fun _ => rfl⟩

/-- An action that does not end makes none that could be looked at. -/
theorem outOfFuel : IgnoresReports (outOfFuel : Action α) :=
  fun _ => ⟨[], fun _ => rfl⟩

/-- Reading makes no report, if it does not read the journal. -/
theorem read {g : Machine → α} (h : ∀ m j, g (Machine.withJournal m j) = g m) :
    IgnoresReports (read g) := by
  refine fun m => ⟨[], fun j => ?_⟩
  rw [read_apply, h]
  rfl

/-- A change ignores earlier reports if it makes the same ones after each journal. -/
theorem change {events : List Event} {g : Machine → Machine} (h : Reporting events g) :
    IgnoresReports (change g) := by
  refine fun m => ⟨events, fun j => ?_⟩
  rw [change_apply, h]
  rfl

/-- The sink decides what a print does. -/
theorem printValue (v : Value) : IgnoresReports (printValue v) := by
  refine fun m => ⟨[], fun j => ?_⟩
  have hsink : (m.withJournal j).sink = m.sink := rfl
  unfold Scriptlet.printValue
  rw [hsink]
  rcases m.sink.print (Value.text v) with ⟨_ | reason, sink⟩ <;> rfl

/-! ### Sequences and calls -/

/-- The second action reports after the first one, if it is come to. -/
theorem bind {f : α → Action β} (hp : IgnoresReports p) (hf : ∀ a, IgnoresReports (f a)) :
    IgnoresReports (p >>= f) := by
  intro m
  obtain ⟨told, htold⟩ := hp m
  cases h : p m with
  | value a k =>
    rw [h] at htold
    obtain ⟨more, hmore⟩ := hf a k
    refine ⟨told ++ more, fun j => ?_⟩
    rw [bind_value h, bind_value (htold j), hmore, Journal.recordAll_append]
  | error reason k =>
    rw [h] at htold
    refine ⟨told, fun j => ?_⟩
    rw [bind_error h, bind_error (htold j)]
    rfl
  | outOfFuel =>
    rw [h] at htold
    refine ⟨told, fun j => ?_⟩
    rw [bind_outOfFuel h, bind_outOfFuel (htold j)]
    rfl

/-- What surrounds an action reports before and after it. -/
theorem within {before after : List Event} {enter leave : Machine → Machine}
    (henter : Reporting before enter) (hleave : Reporting after leave) (hp : IgnoresReports p) :
    IgnoresReports (within enter leave p) := by
  intro m
  obtain ⟨told, htold⟩ := hp (enter m)
  refine ⟨before ++ told ++ after, fun j => ?_⟩
  simp only [within_eq_mapState, henter m j, htold, Outcome.mapState_mapState, hleave _ _,
    Journal.recordAll_append]

end IgnoresReports

end Action

open Scriptlet.Action

/-- Nothing that a run does depends on what was reported before. -/
theorem ignoresReports_compositional : Compositional fun _ p => IgnoresReports p where
  pure := .pure
  fail := .fail
  outOfFuel := .outOfFuel
  bind := .bind
  readValue _ := .read fun _ _ => rfl
  readFunction _ := .read fun _ _ => rfl
  assign _ _ := .change (.silent fun _ _ => rfl)
  defineGlobal _ _ := .change (.silent fun _ _ => rfl)
  register _ := .change (.silent fun _ _ => rfl)
  printValue := .printValue
  record event := .change (.record event)
  withinCall _ _ := .within (.record _) (.record _)
  withinMain _ := .within (.record _) (.record _)
  withinFrame _ := .within (.silent fun _ _ => rfl) (.silent fun _ _ => rfl)

end Scriptlet
