import Mathlib.Data.List.Chain
import Scriptlet.Eval.Event

/-!
# Traces

The reports of a run as a list. What an evaluation reports is told call by call: the expression that
calls, the call with everything that is told within it, and what comes after (`Told`). Such lists can be
put one after the other, and two properties of whole traces follow from how they are built:

* `Told.nested`: calls are left in the reverse order in which they were entered.
* `Told.isChain`: a call is entered right after the expression that calls, and only then.
-/

namespace Scriptlet

namespace Event

/-- A report at one of the two ends of a call or of the program. -/
def IsBound : Event → Prop
  | .enterMain _ | .exitMain | .enterCall _ _ | .exitCall => True
  | .evaluate _ | .globalDefined _ _ | .mainReturned _ => False

/-- The report of an expression that does not call. -/
def IsStep : Event → Prop
  | .evaluate (.call _ _) => False
  | .evaluate _ => True
  | .enterMain _ | .exitMain | .enterCall _ _ | .exitCall | .globalDefined _ _ | .mainReturned _ =>
    False

/-- A report that stands for itself: no end of a call, and no expression that calls. -/
def IsPlain : Event → Prop
  | .evaluate (.call _ _) => False
  | .evaluate _ | .globalDefined _ _ | .mainReturned _ => True
  | .enterMain _ | .exitMain | .enterCall _ _ | .exitCall => False

/-- The report of an expression that does not call stands for itself. -/
theorem IsStep.isPlain {event : Event} (h : event.IsStep) : event.IsPlain := by
  cases event with
  | evaluate e => cases e <;> exact h
  | _ => exact False.elim h

/-- Of two reports in a row, the second one enters a call exactly if the first one is that of an
expression that makes this call. -/
def Announces (first second : Event) : Prop :=
  ∀ (f : String) (n : Nat), second = .enterCall f n ↔
    ∃ arguments, first = .evaluate (.call f arguments) ∧ arguments.length = n

end Event

/-- Calls are left in the reverse order in which they were entered, and all of them are left. The
program itself is neither entered nor left. -/
inductive Nested : List Event → Prop where
  | nil : Nested []
  | report {event : Event} {events : List Event} :
      ¬ event.IsBound → Nested events → Nested (event :: events)
  | call {f : String} {n : Nat} {body events : List Event} :
      Nested body → Nested events → Nested (.enterCall f n :: (body ++ .exitCall :: events))

/-- Reports of a kind, and calls. Each call comes with the expression that calls before it and with
everything that is told within it. -/
inductive Told (plain : Event → Prop) : List Event → Prop where
  | nil : Told plain []
  | report {event : Event} {events : List Event} :
      plain event → Told plain events → Told plain (event :: events)
  | call {f : String} {arguments : List Expr} {body events : List Event} :
      Told plain body → Told plain events →
        Told plain (.evaluate (.call f arguments) :: .enterCall f arguments.length ::
          (body ++ .exitCall :: events))

namespace Told

variable {plain other : Event → Prop} {told told' : List Event}

/-- What is told may be followed by more. -/
theorem append (h : Told plain told) (h' : Told plain told') : Told plain (told ++ told') := by
  induction h with
  | nil => exact h'
  | report hevent _ ih => exact .report hevent ih
  | @call f arguments body events hbody _ _ ih =>
    rw [List.cons_append, List.cons_append, List.append_assoc, List.cons_append]
    exact .call hbody ih

/-- What is told with reports of a kind is told with those of a wider one. -/
theorem mono (h : ∀ event, plain event → other event) (htold : Told plain told) :
    Told other told := by
  induction htold with
  | nil => exact .nil
  | report hevent _ ih => exact .report (h _ hevent) ih
  | call _ _ ihbody ih => exact .call ihbody ih

/-- What is read off a trace comes from its plain reports alone if nothing is read off calls. -/
theorem filterMap_eq_nil {β : Type} {f : Event → Option β} (hplain : ∀ event, plain event → f event = none)
    (hevaluate : ∀ e, f (.evaluate e) = none) (henter : ∀ name n, f (.enterCall name n) = none)
    (hexit : f .exitCall = none) (h : Told plain told) : told.filterMap f = [] := by
  induction h with
  | nil => rfl
  | report hevent _ ih => rw [List.filterMap_cons_none (hplain _ hevent), ih]
  | call _ _ ihbody ih =>
    rw [List.filterMap_cons_none (hevaluate _), List.filterMap_cons_none (henter _ _),
      List.filterMap_append, ihbody, List.filterMap_cons_none hexit, ih]
    rfl

/-- What is told is nested. -/
theorem nested (h : Told Event.IsPlain told) : Nested told := by
  induction h with
  | nil => exact .nil
  | @report event events hevent _ ih =>
    refine .report (fun hbound => ?_) ih
    cases event <;> first | exact hevent | exact hbound
  | call _ _ ihbody ih => exact .report id (.call ihbody ih)

/-- A call is entered right after the expression that calls, whatever stands before and after a trace:
`first` must not call, and `last` must not enter a call. -/
theorem isChain (h : Told Event.IsPlain told) {first last : Event}
    (hfirst : ∀ f arguments, first ≠ .evaluate (.call f arguments))
    (hlast : ∀ f n, last ≠ .enterCall f n) :
    (first :: (told ++ [last])).IsChain Event.Announces := by
  -- Neither side of the equivalence holds for two reports that have nothing to do with calls.
  have hidle {a b : Event} (ha : ∀ f arguments, a ≠ .evaluate (.call f arguments))
      (hb : ∀ f n, b ≠ .enterCall f n) : a.Announces b := fun f n =>
    ⟨fun h => absurd h (hb f n), fun ⟨arguments, h, _⟩ => absurd h (ha f arguments)⟩
  induction h generalizing first last with
  | nil => exact .cons_cons (hidle hfirst hlast) (.singleton last)
  | @report event events hevent _ ih =>
    have hcalls : ∀ f arguments, event ≠ .evaluate (.call f arguments) := by
      rintro f arguments rfl
      exact hevent
    have henters : ∀ f n, event ≠ .enterCall f n := by
      rintro f n rfl
      exact hevent
    exact .cons_cons (hidle hfirst henters) (ih hcalls hlast)
  | @call f arguments body events _ _ ihbody ih =>
    have hannounced : Event.Announces (.evaluate (.call f arguments))
        (.enterCall f arguments.length) := by
      intro g n
      constructor
      · rintro ⟨⟩
        exact ⟨arguments, rfl, rfl⟩
      · rintro ⟨_, heq, rfl⟩
        cases heq
        rfl
    let enter : Event := .enterCall f arguments.length
    have hwithin : (enter :: (body ++ [.exitCall])).IsChain Event.Announces := ihbody nofun nofun
    have hafter : (.exitCall :: (events ++ [last])).IsChain Event.Announces := ih nofun hlast
    have hcall : (enter :: (body ++ .exitCall :: (events ++ [last]))).IsChain Event.Announces := by
      rw [← List.cons_append]
      exact List.isChain_split.mpr ⟨hwithin, hafter⟩
    rw [List.cons_append, List.cons_append, List.append_assoc, List.cons_append]
    exact .cons_cons (hidle hfirst nofun) (.cons_cons hannounced hcall)

end Told

end Scriptlet
