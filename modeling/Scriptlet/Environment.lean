import Scriptlet.Table
import Scriptlet.Value

/-!
# Environments

The variables of a running program live in frames. The live frames are numbered from zero, the
global frame, up to the current one, the last that was pushed. Every other frame names an older one
as its parent, and a variable is looked for from a frame outwards along the parents. What frames do is
the same for every type of values; the values of the language are those that are meant where no type is
named.
-/

namespace Scriptlet

/-- The number of a frame. -/
abbrev FrameId := Nat

/-- The variables that one frame binds, and the frame around it. -/
structure Frame (V : Type := Value) where
  bindings : Table V
  parent : Option FrameId
  deriving DecidableEq, Repr, Inhabited

/-- The live frames, oldest first. -/
structure Environment (V : Type := Value) where
  frames : Array (Frame V)
  deriving DecidableEq, Repr, Inhabited

namespace Environment

variable {V : Type}

/-- The environment that holds an empty global frame and no other. -/
def initial : Environment V := ⟨#[⟨.empty, none⟩]⟩

/-- The number of the global frame. -/
def global : FrameId := 0

/-- How many frames are live. -/
def depth (env : Environment V) : Nat := env.frames.size

/-- The number of the frame that was pushed last. -/
def current (env : Environment V) : FrameId := env.depth - 1

/-- A new current frame with a given parent, which is to be live. -/
def push (env : Environment V) (parent : FrameId) : Environment V :=
  ⟨env.frames.push ⟨.empty, some parent⟩⟩

/-- Without the current frame, unless it is the only one. -/
def pop (env : Environment V) : Environment V :=
  if 1 < env.depth then ⟨env.frames.pop⟩ else env

/-- The nearest frame that binds a name, looking at a number of frames at most. -/
def lookupWithin (env : Environment V) (name : String) : Nat → FrameId → Option FrameId
  | 0, _ => none
  | steps + 1, id =>
    match env.frames[id]? with
    | none => none
    | some frame =>
      if frame.bindings.contains name then some id
      else match frame.parent with
        | none => none
        | some parent => lookupWithin env name steps parent

/-- The nearest frame that binds a name, from a frame outwards. Parents are older than their
children, so that no more frames lie on the way than are live. -/
def lookup (env : Environment V) (frame : FrameId) (name : String) : Option FrameId :=
  env.lookupWithin name env.depth frame

/-- The value that a frame itself binds to a name. -/
def own? (env : Environment V) (frame : FrameId) (name : String) : Option V :=
  env.frames[frame]?.bind fun f => f.bindings.get? name

/-- The value of a name, from a frame outwards. -/
def get? (env : Environment V) (frame : FrameId) (name : String) : Option V :=
  (env.lookup frame name).bind fun owner => env.own? owner name

/-- Binds a name in a frame itself, whatever the frames around it bind. -/
def set (env : Environment V) (frame : FrameId) (name : String) (value : V) : Environment V :=
  ⟨env.frames.modify frame fun f => { f with bindings := f.bindings.insert name value }⟩

/-- Binds a name in a frame itself. The value it had there comes along. -/
def define (env : Environment V) (frame : FrameId) (name : String) (value : V) :
    Option V × Environment V :=
  (env.own? frame name, env.set frame name value)

/-- Gives a new value to a name in the nearest frame that binds it, or binds it in the frame itself
if none does. The value it had comes along. -/
def assign (env : Environment V) (frame : FrameId) (name : String) (value : V) :
    Option V × Environment V :=
  env.define ((env.lookup frame name).getD frame) name value

/-- Binds several names in a frame itself, one after the other. -/
def setAll (env : Environment V) (frame : FrameId) : List (String × V) → Environment V
  | [] => env
  | (name, value) :: rest => (env.set frame name value).setAll frame rest

/-! ### What frames bind -/

/-- The initial environment binds nothing. -/
@[simp] theorem own?_initial (frame : FrameId) (name : String) :
    (initial : Environment V).own? frame name = none := by
  unfold own? initial
  cases frame <;> simp

/-- A pushed frame binds nothing, and the others bind what they did. -/
@[simp] theorem own?_push (env : Environment V) (parent frame : FrameId) (name : String) :
    (env.push parent).own? frame name = env.own? frame name := by
  unfold own? push
  rw [Array.getElem?_push]
  split
  · next h => subst h; simp
  · rfl

/-- A binding changes what its frame binds to its name, and nothing else. -/
theorem own?_set {env : Environment V} {frame : FrameId} (h : frame < env.depth) (name : String)
    (value : V) (other : FrameId) (name' : String) :
    (env.set frame name value).own? other name' =
      if frame = other ∧ name = name' then some value else env.own? other name' := by
  unfold depth at h
  unfold own? set
  rw [Array.getElem?_modify]
  by_cases hf : frame = other
  · subst hf
    simp [Array.getElem?_eq_getElem h, Table.get?_insert]
  · simp [hf]

/-! ### Depth -/

/-- A push adds a frame. -/
@[simp] theorem depth_push (env : Environment V) (parent : FrameId) :
    (env.push parent).depth = env.depth + 1 :=
  Array.size_push _

/-- The pushed frame is the current one, and its number was the depth. -/
@[simp] theorem current_push (env : Environment V) (parent : FrameId) :
    (env.push parent).current = env.depth := by
  simp [current]

/-- A binding adds no frame. -/
@[simp] theorem depth_set (env : Environment V) (frame : FrameId) (name : String) (value : V) :
    (env.set frame name value).depth = env.depth :=
  Array.size_modify

/-- Bindings add no frame. -/
@[simp] theorem depth_setAll (env : Environment V) (frame : FrameId)
    (bindings : List (String × V)) : (env.setAll frame bindings).depth = env.depth := by
  induction bindings generalizing env with
  | nil => rfl
  | cons binding rest ih => rw [setAll, ih, depth_set]

/-- A pop after a push leads back. -/
@[simp] theorem pop_push (env : Environment V) (parent : FrameId) (h : 0 < env.depth) :
    (env.push parent).pop = env := by
  unfold pop
  rw [if_pos (by rw [depth_push]; omega)]
  simp [push]

end Environment

end Scriptlet
