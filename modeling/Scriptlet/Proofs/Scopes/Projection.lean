import Scriptlet.Proofs.Eval.Discipline
import Scriptlet.Proofs.Scopes.Reference

/-!
# Frames as scopes

Of all frames on the stack, only two matter for the rest of a run: the global one, and the current one
if it is that of a call (`Machine.scopes`). Whatever a run does to its frames it does to these scopes:

* `scopes_assign`: an assignment is an assignment to a scope.
* `scopes_enterFrame`: a call starts with its parameters.
* `scopes_leaveFrame`: after a call, the caller's variables are those before it, since the body of the
  call has left the caller's frame alone.
-/

namespace Scriptlet

namespace Environment

variable {env before after : Environment} {name : String}

/-- The variables of a frame. -/
def bindings (env : Environment) (frame : FrameId) : Table Value :=
  (env.frames[frame]?.map Frame.bindings).getD .empty

/-- The variables of the call that goes on, if the current frame is that of a call. -/
def locals? (env : Environment) : Option (Table Value) :=
  if env.current = global then none else some (env.bindings env.current)

/-- The value of a name in a frame is that of its bindings. -/
theorem own?_eq_get? (frame : FrameId) (name : String) :
    env.own? frame name = (env.bindings frame).get? name := by
  unfold own? bindings
  cases env.frames[frame]? <;> rfl

/-- A frame binds the names that its bindings hold. -/
theorem isSome_own? (frame : FrameId) (name : String) :
    (env.own? frame name).isSome = (env.bindings frame).contains name := by
  rw [own?_eq_get?]
  rfl

/-- A frame that is the same has the same bindings. -/
theorem bindings_congr {frame : FrameId} (h : after.frames[frame]? = before.frames[frame]?) :
    after.bindings frame = before.bindings frame := by
  unfold bindings
  rw [h]

/-- Outside of calls there are no locals. -/
theorem locals?_of_global (h : env.current = global) : env.locals? = none :=
  if_pos h

/-- In a call the locals are the bindings of the current frame. -/
theorem locals?_of_call (h : env.current ≠ global) :
    env.locals? = some (env.bindings env.current) :=
  if_neg h

/-- A name is read from the call or else globally. -/
theorem get?_current (hroot : env.Rooted) (name : String) :
    env.get? env.current name =
      (env.locals?.bind (·.get? name)).or ((env.bindings global).get? name) := by
  unfold get?
  rw [lookup_current hroot, ← own?_eq_get?]
  by_cases h : env.current = global
  · rw [locals?_of_global h, h]
    cases hglobal : env.own? global name <;> simp [hglobal]
  · rw [locals?_of_call h, Option.bind_some, ← own?_eq_get?]
    cases hown : env.own? env.current name with
    | some v => simp [hown]
    | none => cases hglobal : env.own? global name <;> simp [hglobal]

/-! ### Writing to a frame -/

/-- Writing to a frame leaves the bindings of the others alone. -/
theorem bindings_set_of_ne {frame other : FrameId} (h : other ≠ frame) (value : Value) :
    (env.set frame name value).bindings other = env.bindings other :=
  bindings_congr (frames_set_of_ne h value)

/-- Writing to a frame writes to its bindings. -/
theorem bindings_set_self {frame : FrameId} (h : frame < env.depth) (value : Value) :
    (env.set frame name value).bindings frame = (env.bindings frame).insert name value := by
  unfold bindings set
  rw [Array.getElem?_modify, if_pos rfl, Array.getElem?_eq_getElem h]
  rfl

/-- Writing to a frame leaves the current one current. -/
@[simp] theorem current_set (frame : FrameId) (value : Value) :
    (env.set frame name value).current = env.current := by
  unfold current
  rw [depth_set]

/-- Writing to the global frame leaves the variables of the call alone. -/
theorem locals?_set_global (value : Value) : (env.set global name value).locals? = env.locals? := by
  unfold locals?
  rw [current_set]
  by_cases h : env.current = global
  · rw [if_pos h, if_pos h]
  · rw [if_neg h, if_neg h, bindings_set_of_ne h]

/-- Writing to the frame of a call writes to the variables of the call. -/
theorem locals?_set_current (hroot : env.Rooted) (h : env.current ≠ global) (value : Value) :
    (env.set env.current name value).locals? =
      some ((env.bindings env.current).insert name value) := by
  unfold locals?
  rw [current_set, if_neg h, bindings_set_self hroot.current_lt]

/-- An assignment writes to the frame that binds the name, or to the current one. -/
theorem assign_current (hroot : env.Rooted) (name : String) (value : Value) :
    (env.assign env.current name value).2 =
      if (env.bindings env.current).contains name then env.set env.current name value
      else if (env.bindings global).contains name then env.set global name value
      else env.set env.current name value := by
  unfold assign define
  rw [lookup_current hroot, isSome_own?, isSome_own?]
  by_cases hown : (env.bindings env.current).contains name
  · rw [if_pos hown, if_pos hown]
    rfl
  · rw [if_neg hown, if_neg hown]
    by_cases hglobal : (env.bindings global).contains name
    · rw [if_pos hglobal, if_pos hglobal]
      rfl
    · rw [if_neg hglobal, if_neg hglobal]
      rfl

/-- Outside of calls, an assignment writes to the global frame. -/
theorem assign_of_global (hroot : env.Rooted) (h : env.current = global) (name : String)
    (value : Value) : (env.assign env.current name value).2 = env.set global name value := by
  rw [assign_current hroot, h]
  split <;> rfl

/-! ### The frame of a call -/

/-- Writing several names writes them to the bindings one after the other. -/
theorem bindings_setAll {frame : FrameId} (h : frame < env.depth)
    (parameters : List (String × Value)) :
    (env.setAll frame parameters).bindings frame =
      parameters.foldl (fun t binding => t.insert binding.1 binding.2) (env.bindings frame) := by
  induction parameters generalizing env with
  | nil => rfl
  | cons parameter rest ih =>
    have hlive : frame < (env.set frame parameter.1 parameter.2).depth := by
      rwa [depth_set]
    rw [setAll, ih hlive, bindings_set_self h]
    rfl

/-- A pushed frame is empty. -/
theorem bindings_push (parent : FrameId) : (env.push parent).bindings env.depth = .empty := by
  unfold bindings push depth
  rw [Array.getElem?_push_size]
  rfl

/-- A call starts with its parameters. -/
theorem locals?_enter (hroot : env.Rooted) (parameters : List (String × Value)) :
    (env.enter parameters).locals? = some (Scoped.bindAll parameters) := by
  have hlive : env.depth < (env.push global).depth := by
    rw [depth_push]
    exact Nat.lt_succ_self _
  rw [locals?_of_call (current_enter_ne_global hroot.depth_pos parameters), current_enter, enter,
    bindings_setAll hlive, bindings_push]
  rfl

/-- After a call, its caller has the variables that it had. -/
theorem locals?_pop_call (hroot : env.Rooted) {parameters : List (String × Value)}
    (hbody : Kept (env.enter parameters) after) : after.pop.locals? = env.locals? := by
  have hcurrent : after.pop.current = env.current := (kept_call hroot hbody).current
  unfold locals?
  rw [hcurrent]
  by_cases h : env.current = global
  · rw [if_pos h, if_pos h]
  · rw [if_neg h, if_neg h, bindings_congr (frames_call hbody hroot.current_lt h)]

end Environment

namespace Machine

open Environment (global)

variable {m n : Machine}

/-- What the rest of a run sees of a machine. -/
def scopes (m : Machine) : Scopes where
  globals := m.environment.bindings global
  locals := m.environment.locals?
  functions := m.functions
  sink := m.sink

/-- Before a run nothing is bound on either side. -/
theorem scopes_fresh (sink : Sink) (journal : Journal) :
    (fresh sink journal).scopes = .fresh sink := rfl

/-- A report is not seen. -/
theorem scopes_record (m : Machine) (event : Event) : (m.record event).scopes = m.scopes := rfl

/-- A function is made known on both sides. -/
theorem scopes_register (m : Machine) (f : Function) :
    (m.register f).scopes = { m.scopes with functions := m.scopes.functions.insert f.name f } := rfl

/-- A variable is read from the call or else globally. -/
theorem valueOf?_eq_get? (h : m.environment.Rooted) (name : String) :
    m.valueOf? name = m.scopes.get? name :=
  Environment.get?_current h name

/-- Writing to the global frame is seen as writing to the global variables. -/
theorem scopes_set_global (h : m.environment.Rooted) (name : String) (value : Value) :
    scopes { m with environment := m.environment.set global name value } =
      { m.scopes with globals := m.scopes.globals.insert name value } := by
  unfold scopes
  rw [Environment.locals?_set_global, Environment.bindings_set_self h.global_lt]

/-- Writing to the frame of a call is seen as writing to the variables of the call. -/
theorem scopes_set_current (h : m.environment.Rooted) (hcall : m.environment.current ≠ global)
    (name : String) (value : Value) :
    scopes { m with environment := m.environment.set m.environment.current name value } =
      { m.scopes with
        locals := some ((m.environment.bindings m.environment.current).insert name value) } := by
  unfold scopes
  rw [Environment.locals?_set_current h hcall, Environment.bindings_set_of_ne (Ne.symm hcall)]

/-- A global variable is defined in the globals. -/
theorem scopes_defineGlobal (h : m.environment.Rooted) (name : String) (value : Value) :
    (m.defineGlobal name value).scopes =
      { m.scopes with globals := m.scopes.globals.insert name value } :=
  scopes_set_global h name value

/-- An assignment is one to the scope that the name is bound in. -/
theorem scopes_assign (h : m.environment.Rooted) (name : String) (value : Value) :
    (m.assign name value).2.scopes = m.scopes.assign name value := by
  have hassign : (m.assign name value).2 =
      { m with environment := (m.environment.assign m.environment.current name value).2 } := rfl
  by_cases hcall : m.environment.current = global
  · have hlocals : m.scopes.locals = none := Environment.locals?_of_global hcall
    rw [hassign, Environment.assign_of_global h hcall, Scopes.assign_of_global hlocals]
    exact scopes_set_global h name value
  · have hlocals : m.scopes.locals = some (m.environment.bindings m.environment.current) :=
      Environment.locals?_of_call hcall
    rw [hassign, Environment.assign_current h, Scopes.assign_of_call hlocals]
    by_cases hown : (m.environment.bindings m.environment.current).contains name
    · rw [if_pos hown, if_pos hown]
      exact scopes_set_current h hcall name value
    · rw [if_neg hown, if_neg hown]
      by_cases hglobal : (m.environment.bindings global).contains name
      · have hglobals : m.scopes.globals.contains name := hglobal
        rw [if_pos hglobal, if_pos hglobals]
        exact scopes_set_global h name value
      · have hglobals : ¬ m.scopes.globals.contains name := hglobal
        rw [if_neg hglobal, if_neg hglobals]
        exact scopes_set_current h hcall name value

/-- A call starts with its parameters and the global variables. -/
theorem scopes_enterFrame (h : m.environment.Rooted) (parameters : List (String × Value)) :
    (m.enterFrame parameters).scopes =
      { m.scopes with locals := some (Scoped.bindAll parameters) } := by
  have hglobal := Environment.bindings_congr (Environment.frames_enter h.global_lt parameters)
  unfold scopes
  rw [environment_enterFrame, Environment.locals?_enter h, hglobal]
  rfl

/-- After a call, the variables of its caller are there again. -/
theorem scopes_leaveFrame (h : m.environment.Rooted) {parameters : List (String × Value)}
    (hbody : (m.enterFrame parameters).Kept n) :
    n.leaveFrame.scopes = { n.scopes with locals := m.scopes.locals } := by
  have henv := hbody.environment
  rw [environment_enterFrame] at henv
  have hglobal := Environment.bindings_congr (Environment.frames_pop_call henv h.global_lt)
  unfold scopes leaveFrame
  rw [hglobal, Environment.locals?_pop_call h henv]

end Machine

end Scriptlet
