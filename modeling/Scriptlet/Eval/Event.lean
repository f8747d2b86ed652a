import Scriptlet.Program

/-!
# Events of a run

What a run reports while it goes on: the calls it enters and leaves, the expressions it comes to,
the global variables it defines and what it returns.
-/

namespace Scriptlet

/-- A report of a running program. -/
inductive Event where
  /-- A program with so many definitions starts. -/
  | enterMain (definitions : Nat)
  /-- The program is over, with a value or an error. -/
  | exitMain
  /-- A call with so many arguments starts, before the function is looked up. -/
  | enterCall (function : String) (arity : Nat)
  /-- The call is over, with a value or an error. -/
  | exitCall
  /-- An expression comes next. -/
  | evaluate (expr : Expr)
  | globalDefined (name : String) (value : Value)
  | mainReturned (result : Value)
  deriving DecidableEq, Repr, Inhabited

/-- The reports of a run so far, kept only if someone listens. -/
structure Journal where
  listening : Bool
  /-- The latest report first. -/
  reports : List Event
  deriving DecidableEq, Repr, Inhabited

namespace Journal

/-- A journal that keeps nothing. -/
def silent : Journal := ⟨false, []⟩

/-- A journal that keeps everything. -/
def attentive : Journal := ⟨true, []⟩

/-- Adds a report. -/
def record (j : Journal) (event : Event) : Journal :=
  if j.listening then { j with reports := event :: j.reports } else j

/-- The reports in the order in which they were made. -/
def events (j : Journal) : List Event := j.reports.reverse

/-- A journal that keeps everything has a new report at its end. -/
theorem events_record {j : Journal} (h : j.listening) (event : Event) :
    (j.record event).events = j.events ++ [event] := by
  simp [record, events, h]

/-- Recording does not change whether someone listens. -/
@[simp] theorem listening_record (j : Journal) (event : Event) :
    (j.record event).listening = j.listening := by
  unfold record
  split <;> rfl

end Journal

end Scriptlet
