import Scriptlet.Eval.Machine
import Scriptlet.Proofs.Exact.Evaluator

/-!
# Values as integers

Every value is an integer, so that a machine is also a state over the integers (`Machine.ideal`): its
frames with their values replaced (`Environment.mapValues`). What frames do does not depend on their
values. Looking up, writing, entering a call and leaving it therefore do the same to both: the state of
the machine afterwards is what they make of its state before.
-/

namespace Scriptlet

variable {α β : Type}

/-! ### Tables -/

namespace Table

/-- A table with its values replaced. -/
def mapValues (f : α → β) (t : Table α) : Table β :=
  ⟨t.entries.map (Prod.map id f)⟩

/-- The value of a name is replaced. -/
theorem get?_mapValues (f : α → β) (t : Table α) (name : String) :
    (t.mapValues f).get? name = (t.get? name).map f := by
  unfold get? mapValues
  induction t.entries with
  | nil => rfl
  | cons entry rest ih =>
    simp only [List.map_cons, find?, Prod.map, id_eq]
    split
    · rfl
    · exact ih

/-- A table holds the same names. -/
theorem contains_mapValues (f : α → β) (t : Table α) (name : String) :
    (t.mapValues f).contains name = t.contains name := by
  unfold contains
  rw [get?_mapValues, Option.isSome_map]

/-- A value that is inserted is replaced like the others. -/
theorem mapValues_insert (f : α → β) (t : Table α) (name : String) (value : α) :
    (t.insert name value).mapValues f = (t.mapValues f).insert name (f value) := by
  unfold insert mapValues
  congr 1
  induction t.entries with
  | nil => rfl
  | cons entry rest ih =>
    simp only [write, List.map_cons, Prod.map, id_eq]
    split
    · rfl
    · rw [List.map_cons, ih]
      rfl

end Table

/-! ### Frames -/

/-- A frame with its values replaced. -/
def Frame.mapValues (f : α → β) (frame : Frame α) : Frame β :=
  ⟨frame.bindings.mapValues f, frame.parent⟩

namespace Environment

/-- The frames with their values replaced. -/
def mapValues (f : α → β) (env : Environment α) : Environment β :=
  ⟨env.frames.map (Frame.mapValues f)⟩

/-- At first there are no values to replace. -/
theorem mapValues_initial (f : α → β) : (initial : Environment α).mapValues f = initial := by
  unfold mapValues initial
  rw [List.map_toArray]
  rfl

/-- Whatever the values are, as many frames are live. -/
theorem depth_mapValues (f : α → β) (env : Environment α) : (env.mapValues f).depth = env.depth :=
  Array.size_map

/-- The current frame has the same number. -/
theorem current_mapValues (f : α → β) (env : Environment α) :
    (env.mapValues f).current = env.current := by
  unfold current
  rw [depth_mapValues]

/-- A search within some steps looks at names and parents only, which stay the same. -/
theorem lookupWithin_mapValues (f : α → β) (env : Environment α) (name : String) (steps : Nat)
    (frame : FrameId) : (env.mapValues f).lookupWithin name steps frame =
      env.lookupWithin name steps frame := by
  induction steps generalizing frame with
  | zero => rfl
  | succ steps ih =>
    unfold lookupWithin
    simp only [mapValues, Array.getElem?_map]
    cases env.frames[frame]? with
    | none => rfl
    | some found =>
      simp only [Option.map_some, Frame.mapValues, Table.contains_mapValues]
      split
      · rfl
      · cases found.parent with
        | none => rfl
        | some parent => exact ih parent

/-- A name is found in the same frame. -/
theorem lookup_mapValues (f : α → β) (env : Environment α) (frame : FrameId) (name : String) :
    (env.mapValues f).lookup frame name = env.lookup frame name := by
  unfold lookup
  rw [depth_mapValues, lookupWithin_mapValues]

/-- What a frame itself binds is replaced. -/
theorem own?_mapValues (f : α → β) (env : Environment α) (frame : FrameId) (name : String) :
    (env.mapValues f).own? frame name = (env.own? frame name).map f := by
  unfold own? mapValues
  rw [Array.getElem?_map]
  cases env.frames[frame]? with
  | none => rfl
  | some found => exact Table.get?_mapValues _ _ _

/-- What a name stands for is replaced, from whichever frame it is seen. -/
theorem get?_mapValues (f : α → β) (env : Environment α) (frame : FrameId) (name : String) :
    (env.mapValues f).get? frame name = (env.get? frame name).map f := by
  unfold get?
  rw [lookup_mapValues]
  cases env.lookup frame name with
  | none => rfl
  | some owner => exact own?_mapValues _ _ _ _

/-- A value that is bound is replaced like the others. -/
theorem mapValues_set (f : α → β) (env : Environment α) (frame : FrameId) (name : String)
    (value : α) : (env.set frame name value).mapValues f =
      (env.mapValues f).set frame name (f value) := by
  unfold mapValues set
  congr 1
  apply Array.ext_getElem?
  intro id
  rw [Array.getElem?_map, Array.getElem?_modify, Array.getElem?_modify, Array.getElem?_map]
  split
  · cases env.frames[id]? with
    | none => rfl
    | some found => simp [Frame.mapValues, Table.mapValues_insert]
  · rfl

/-- Several values that are bound in one frame are replaced like the others. -/
theorem mapValues_setAll (f : α → β) (env : Environment α) (frame : FrameId)
    (bindings : List (String × α)) : (env.setAll frame bindings).mapValues f =
      (env.mapValues f).setAll frame (bindings.map (Prod.map id f)) := by
  induction bindings generalizing env with
  | nil => rfl
  | cons binding rest ih =>
    rw [setAll, ih, mapValues_set]
    rfl

/-- A frame that is pushed has no values to replace. -/
theorem mapValues_push (f : α → β) (env : Environment α) (parent : FrameId) :
    (env.push parent).mapValues f = (env.mapValues f).push parent :=
  congrArg Environment.mk (Array.map_push ..)

/-- The frame that is popped is the one with its values replaced. -/
theorem mapValues_pop (f : α → β) (env : Environment α) :
    env.pop.mapValues f = (env.mapValues f).pop := by
  unfold pop
  rw [depth_mapValues]
  split
  · exact congrArg Environment.mk (Array.map_pop ..)
  · rfl

end Environment

/-! ### Machines -/

namespace Machine

/-- A machine with its values as integers. -/
def ideal (m : Machine) : Ideal.State :=
  ⟨m.environment.mapValues Int64.toInt, m.functions, m.sink⟩

/-- Before a run, both know nothing. -/
theorem ideal_fresh (sink : Sink) (journal : Journal) :
    (fresh sink journal).ideal = .fresh sink := by
  unfold ideal fresh Ideal.State.fresh
  rw [Environment.mapValues_initial]

/-- A variable that the current frame sees has the integer of its value. -/
theorem valueOf?_ideal (m : Machine) (name : String) :
    m.ideal.environment.get? m.ideal.environment.current name = (m.valueOf? name).map Int64.toInt := by
  unfold valueOf? ideal
  rw [Environment.current_mapValues, Environment.get?_mapValues]

/-- A variable is assigned to in the same frame. -/
theorem ideal_assign (m : Machine) (name : String) (value : Value) :
    (m.assign name value).2.ideal = m.ideal.assign name value.toInt := by
  unfold assign ideal Ideal.State.assign Environment.assign
  rw [Environment.current_mapValues, Environment.lookup_mapValues]
  exact congrArg (Ideal.State.mk · m.functions m.sink) (Environment.mapValues_set ..)

/-- A global variable is defined in both. -/
theorem ideal_defineGlobal (m : Machine) (name : String) (value : Value) :
    (m.defineGlobal name value).ideal = m.ideal.defineGlobal name value.toInt := by
  unfold defineGlobal ideal Ideal.State.defineGlobal
  rw [Environment.mapValues_set]

/-- A function is made known to both. -/
theorem ideal_register (m : Machine) (f : Function) :
    (m.register f).ideal = m.ideal.register f := rfl

/-- The frame of a call binds the integers of the arguments. -/
theorem ideal_enterFrame (m : Machine) (bindings : List (String × Value)) :
    (m.enterFrame bindings).ideal =
      m.ideal.enterFrame (bindings.map (Prod.map id Int64.toInt)) := by
  unfold enterFrame ideal Ideal.State.enterFrame
  simp only [Environment.mapValues_setAll, Environment.mapValues_push,
    ← Environment.current_mapValues Int64.toInt]

/-- The frame of a call is left in both. -/
theorem ideal_leaveFrame (m : Machine) : m.leaveFrame.ideal = m.ideal.leaveFrame := by
  unfold leaveFrame ideal Ideal.State.leaveFrame
  rw [Environment.mapValues_pop]

end Machine

end Scriptlet
