import Scriptlet.Environment

/-!
# What a run keeps of its frames

A run only ever sees two frames, the current one and the global one, and it pushes every frame with
the global one as its parent (`Rooted`). What it may do to the frames that were there before is
`Kept`: it may write to the two frames that it sees, but a call may bring no new name into the global
one, and nothing is taken away. This holds of a single assignment (`kept_assign`), passes from step
to step (`Kept.trans`), and passes from the body of a call to the call (`kept_call`), since the frame
of the call is gone afterwards.
-/

namespace Scriptlet

namespace Environment

/-- Some frame is live, and every frame but the global one has the global one as its parent. -/
structure Rooted (env : Environment) : Prop where
  depth_pos : 0 < env.depth
  parent : ∀ {id : FrameId} {frame : Frame}, env.frames[id]? = some frame →
    frame.parent = if id = global then none else some global

/-- What is kept of the frames that were live before. -/
structure Kept (before after : Environment) : Prop where
  depth : after.depth = before.depth
  parents : ∀ id : FrameId, after.frames[id]?.map Frame.parent = before.frames[id]?.map Frame.parent
  /-- Only the current frame and the global one are written to. -/
  frames : ∀ id : FrameId, id ≠ before.current → id ≠ global → after.frames[id]? = before.frames[id]?
  /-- What was bound is bound. -/
  bound : ∀ (id : FrameId) (name : String), (before.own? id name).isSome → (after.own? id name).isSome
  /-- In a call, no global name is new. -/
  unbound : before.current ≠ global →
    ∀ name, before.own? global name = none → after.own? global name = none

variable {env before between after : Environment} {name : String}

/-- The global frame alone is rooted. -/
theorem rooted_initial : initial.Rooted := by
  refine ⟨by decide, fun {id frame} h => ?_⟩
  cases id with
  | zero =>
    have hframe : (⟨.empty, none⟩ : Frame) = frame := Option.some.inj h
    rw [← hframe]
    rfl
  | succ id => cases h

/-- Whether an environment is rooted depends on the parents of its frames only. -/
theorem Rooted.of_parents (h : before.Rooted) (hdepth : after.depth = before.depth)
    (hparents : ∀ id : FrameId,
      after.frames[id]?.map Frame.parent = before.frames[id]?.map Frame.parent) : after.Rooted := by
  constructor
  · rw [hdepth]
    exact h.depth_pos
  · intro id frame hframe
    have hparent := hparents id
    rw [hframe, Option.map_some] at hparent
    obtain ⟨old, hold, heq⟩ := Option.map_eq_some_iff.mp hparent.symm
    rw [← heq]
    exact h.parent hold

namespace Kept

/-- Frames that are not touched are kept. -/
theorem refl (env : Environment) : Kept env env :=
  ⟨rfl, fun _ => rfl, fun _ _ _ => rfl, fun _ _ h => h, fun _ _ h => h⟩

/-- The current frame is the same. -/
theorem current (h : Kept before after) : after.current = before.current := by
  unfold Environment.current
  rw [h.depth]

/-- What is kept from step to step is kept over both. -/
theorem trans (h : Kept before between) (h' : Kept between after) : Kept before after where
  depth := h'.depth.trans h.depth
  parents id := (h'.parents id).trans (h.parents id)
  frames := by
    intro id hcurrent hglobal
    have hbetween : id ≠ between.current := by
      rwa [h.current]
    exact (h'.frames id hbetween hglobal).trans (h.frames id hcurrent hglobal)
  bound id name hname := h'.bound id name (h.bound id name hname)
  unbound := by
    intro hcurrent name hname
    have hbetween : between.current ≠ global := by
      rwa [h.current]
    exact h'.unbound hbetween name (h.unbound hcurrent name hname)

/-- What has the same frames is rooted as well. -/
theorem rooted (h : Kept before after) (hbefore : before.Rooted) : after.Rooted :=
  hbefore.of_parents h.depth h.parents

end Kept

/-! ### Writing to a frame -/

/-- Writing to a frame leaves the other frames alone. -/
theorem frames_set_of_ne {frame id : FrameId} (h : id ≠ frame) (value : Value) :
    (env.set frame name value).frames[id]? = env.frames[id]? := by
  unfold set
  rw [Array.getElem?_modify, if_neg (Ne.symm h)]

/-- Writing to a frame leaves its parent alone. -/
theorem parents_set (frame id : FrameId) (value : Value) :
    (env.set frame name value).frames[id]?.map Frame.parent =
      env.frames[id]?.map Frame.parent := by
  unfold set
  rw [Array.getElem?_modify]
  split
  · cases env.frames[id]? <;> rfl
  · rfl

/-- Writing to a frame leaves the frames rooted. -/
theorem Rooted.set (h : env.Rooted) (frame : FrameId) (name : String) (value : Value) :
    (env.set frame name value).Rooted :=
  h.of_parents (depth_set env frame name value) fun id => parents_set frame id value

/-- A run may write to the current frame, and to the global one where a name is bound. -/
theorem kept_set {frame : FrameId} (hlive : frame < env.depth)
    (h : frame = env.current ∨ frame = global ∧ (env.own? global name).isSome) (value : Value) :
    Kept env (env.set frame name value) where
  depth := depth_set env frame name value
  parents id := parents_set frame id value
  frames := by
    intro id hcurrent hglobal
    refine frames_set_of_ne ?_ value
    rcases h with rfl | ⟨rfl, -⟩
    · exact hcurrent
    · exact hglobal
  bound := by
    intro id other hother
    rw [own?_set hlive]
    split
    · rfl
    · exact hother
  unbound := by
    intro hcurrent other hother
    rw [own?_set hlive, if_neg]
    · exact hother
    · rintro ⟨hframe, rfl⟩
      rcases h with heq | ⟨-, hbound⟩
      · exact hcurrent (heq.symm.trans hframe)
      · rw [hother] at hbound
        cases hbound

/-! ### Looking for a name -/

/-- The global frame is live. -/
theorem Rooted.global_lt (h : env.Rooted) : global < env.depth :=
  h.depth_pos

/-- The current frame is live. -/
theorem Rooted.current_lt (h : env.Rooted) : env.current < env.depth :=
  Nat.sub_lt h.depth_pos Nat.one_pos

/-- The current frame is the global one exactly if no other is live. -/
theorem current_eq_global_iff (h : 0 < env.depth) : env.current = global ↔ env.depth = 1 := by
  change (env.depth - 1 : Nat) = (0 : Nat) ↔ env.depth = 1
  omega

/-- A live frame binds a name if its table has it. -/
theorem contains_eq_own? {id : FrameId} {frame : Frame} (h : env.frames[id]? = some frame) :
    frame.bindings.contains name = (env.own? id name).isSome := by
  unfold own? Table.contains
  rw [h]
  rfl

/-- From the global frame, a name is found there or nowhere. -/
theorem lookupWithin_global (h : env.Rooted) (steps : Nat) :
    env.lookupWithin name (steps + 1) global =
      if (env.own? global name).isSome then some global else none := by
  obtain ⟨frame, hframe⟩ : ∃ frame, env.frames[global]? = some frame :=
    ⟨_, Array.getElem?_eq_getElem h.depth_pos⟩
  have hparent := h.parent hframe
  rw [if_pos rfl] at hparent
  simp only [lookupWithin, hframe, hparent, contains_eq_own? hframe]

/-- A name is found in the current frame, in the global one or nowhere. -/
theorem lookup_current (h : env.Rooted) (name : String) :
    env.lookup env.current name =
      if (env.own? env.current name).isSome then some env.current
      else if (env.own? global name).isSome then some global
      else none := by
  obtain ⟨frame, hframe⟩ : ∃ frame, env.frames[env.current]? = some frame :=
    ⟨_, Array.getElem?_eq_getElem h.current_lt⟩
  have hparent := h.parent hframe
  have hpos := h.depth_pos
  unfold lookup
  by_cases hone : env.depth = 1
  · have hcurrent : env.current = global := (current_eq_global_iff hpos).mpr hone
    rw [hcurrent, hone, lookupWithin_global h 0]
    split <;> rfl
  · have hcurrent : env.current ≠ global := mt (current_eq_global_iff hpos).mp hone
    obtain ⟨steps, hsteps⟩ : ∃ steps, env.depth = steps + 2 := ⟨env.depth - 2, by omega⟩
    rw [if_neg hcurrent] at hparent
    rw [hsteps, lookupWithin]
    simp only [hframe, hparent, contains_eq_own? hframe, lookupWithin_global h steps]

/-- An assignment writes to the current frame, or to the global one where the name is bound. -/
theorem kept_assign (h : env.Rooted) (name : String) (value : Value) :
    Kept env (env.assign env.current name value).2 := by
  unfold assign define
  rw [lookup_current h]
  by_cases hown : (env.own? env.current name).isSome
  · rw [if_pos hown]
    exact kept_set h.current_lt (.inl rfl) value
  · rw [if_neg hown]
    by_cases hglobal : (env.own? global name).isSome
    · rw [if_pos hglobal]
      exact kept_set h.depth_pos (.inr ⟨rfl, hglobal⟩) value
    · rw [if_neg hglobal]
      exact kept_set h.current_lt (.inl rfl) value

/-! ### The frame of a call -/

/-- The frames when a call starts: those before, and a frame of its own that holds its parameters. -/
def enter (env : Environment) (bindings : List (String × Value)) : Environment :=
  (env.push global).setAll env.depth bindings

/-- Writing several names leaves the parents alone. -/
theorem parents_setAll (frame id : FrameId) (bindings : List (String × Value)) :
    (env.setAll frame bindings).frames[id]?.map Frame.parent =
      env.frames[id]?.map Frame.parent := by
  induction bindings generalizing env with
  | nil => rfl
  | cons binding rest ih => rw [setAll, ih, parents_set]

/-- It leaves the other frames alone. -/
theorem frames_setAll_of_ne {frame id : FrameId} (h : id ≠ frame)
    (bindings : List (String × Value)) :
    (env.setAll frame bindings).frames[id]? = env.frames[id]? := by
  induction bindings generalizing env with
  | nil => rfl
  | cons binding rest ih => rw [setAll, ih, frames_set_of_ne h]

/-- A call adds one frame. -/
@[simp] theorem depth_enter (env : Environment) (bindings : List (String × Value)) :
    (env.enter bindings).depth = env.depth + 1 := by
  unfold enter
  rw [depth_setAll, depth_push]

/-- The frame of the call is the current one. -/
@[simp] theorem current_enter (env : Environment) (bindings : List (String × Value)) :
    (env.enter bindings).current = env.depth := by
  unfold current
  rw [depth_enter, Nat.add_sub_cancel]

/-- The frame of a call is not the global one. -/
theorem current_enter_ne_global (h : 0 < env.depth) (bindings : List (String × Value)) :
    (env.enter bindings).current ≠ global := by
  rw [current_enter]
  exact Nat.ne_of_gt h

/-- The frames before are those that they were. -/
theorem frames_enter {id : FrameId} (h : id < env.depth) (bindings : List (String × Value)) :
    (env.enter bindings).frames[id]? = env.frames[id]? := by
  unfold enter
  rw [frames_setAll_of_ne (Nat.ne_of_lt h)]
  exact Array.getElem?_push_lt h |>.trans (Array.getElem?_eq_getElem h).symm

/-- The frame of a call is rooted like the others. -/
theorem rooted_enter (h : env.Rooted) (bindings : List (String × Value)) :
    (env.enter bindings).Rooted := by
  constructor
  · rw [depth_enter]
    exact Nat.succ_pos _
  · intro id frame hframe
    by_cases hid : id < env.depth
    · rw [frames_enter hid] at hframe
      exact h.parent hframe
    · have hparent : (env.enter bindings).frames[id]?.map Frame.parent =
          (env.push global).frames[id]?.map Frame.parent := parents_setAll env.depth id bindings
      have hlt : id < (env.enter bindings).depth := (Array.getElem?_eq_some_iff.mp hframe).1
      rw [depth_enter] at hlt
      obtain rfl : id = env.depth := Nat.le_antisymm (Nat.lt_succ_iff.mp hlt) (Nat.le_of_not_lt hid)
      have hpushed : (env.push global).frames[env.depth]? = some ⟨.empty, some global⟩ :=
        Array.getElem?_push_size
      rw [hframe, hpushed] at hparent
      have hglobal : env.depth ≠ global := Nat.ne_of_gt h.depth_pos
      rw [if_neg hglobal]
      exact Option.some.inj hparent

/-- Without the current frame, the older ones are those that they were. -/
theorem frames_pop {id : FrameId} (h : id + 1 < env.depth) :
    env.pop.frames[id]? = env.frames[id]? := by
  have hdepth : 1 < env.depth := Nat.lt_of_le_of_lt (Nat.le_add_left 1 id) h
  have hlast : id < env.frames.size - 1 := Nat.lt_sub_of_add_lt h
  unfold pop
  rw [if_pos hdepth, Array.getElem?_pop, if_pos hlast]

/-- A pop takes one frame away. -/
theorem depth_pop (h : 1 < env.depth) : env.pop.depth = env.depth - 1 := by
  unfold pop
  rw [if_pos h]
  exact Array.size_pop

/-- A frame that is the same binds the same. -/
theorem own?_congr {id : FrameId} (h : after.frames[id]? = before.frames[id]?) (name : String) :
    after.own? id name = before.own? id name := by
  unfold own?
  rw [h]

/-- After a call, there are as many frames as before it. -/
theorem depth_call (h : env.Rooted) {bindings : List (String × Value)}
    (hbody : Kept (env.enter bindings) after) : after.pop.depth = env.depth := by
  have hpos := h.depth_pos
  have hdepth : after.depth = env.depth + 1 := by
    rw [hbody.depth, depth_enter]
  rw [depth_pop (by omega), hdepth, Nat.add_sub_cancel]

/-- The frames after a call are those that its body leaves behind. -/
theorem frames_pop_call {bindings : List (String × Value)}
    (hbody : Kept (env.enter bindings) after) {id : FrameId} (hid : id < env.depth) :
    after.pop.frames[id]? = after.frames[id]? := by
  refine frames_pop ?_
  rw [hbody.depth, depth_enter]
  exact Nat.succ_lt_succ hid

/-- A call leaves the frames of its callers alone, also the one that it was made in. -/
theorem frames_call {bindings : List (String × Value)}
    (hbody : Kept (env.enter bindings) after) {id : FrameId} (hid : id < env.depth)
    (hglobal : id ≠ global) : after.pop.frames[id]? = env.frames[id]? := by
  have hcurrent : id ≠ (env.enter bindings).current := by
    rw [current_enter]
    exact Nat.ne_of_lt hid
  rw [frames_pop_call hbody hid, hbody.frames id hcurrent hglobal, frames_enter hid]

/-- If the body of a call keeps what it may write to, the call does as well: it leaves all frames
alone but the global one, and brings no name into that. -/
theorem kept_call (h : env.Rooted) {bindings : List (String × Value)}
    (hbody : Kept (env.enter bindings) after) : Kept env after.pop := by
  have hpos := h.depth_pos
  have hpop := depth_call h hbody
  -- the frame of the call is the last one, and is popped
  have hgone : ∀ id : FrameId, ¬ id < env.depth →
      after.pop.frames[id]? = none ∧ env.frames[id]? = none := by
    intro id hid
    constructor
    · have hsize : after.pop.frames.size = env.depth := hpop
      exact Array.getElem?_eq_none (hsize ▸ Nat.le_of_not_lt hid)
    · exact Array.getElem?_eq_none (Nat.le_of_not_lt hid)
  constructor
  case depth => exact hpop
  case parents =>
    intro id
    by_cases hid : id < env.depth
    · rw [frames_pop_call hbody hid, hbody.parents id, frames_enter hid]
    · rw [(hgone id hid).1, (hgone id hid).2]
  case frames =>
    intro id _ hglobal
    by_cases hid : id < env.depth
    · exact frames_call hbody hid hglobal
    · rw [(hgone id hid).1, (hgone id hid).2]
  case bound =>
    intro id name hname
    by_cases hid : id < env.depth
    · rw [own?_congr (frames_pop_call hbody hid)]
      refine hbody.bound id name ?_
      rwa [own?_congr (frames_enter hid bindings)]
    · rw [own?, (hgone id hid).2] at hname
      cases hname
  case unbound =>
    intro _ name hname
    have hid := h.global_lt
    have hcurrent := current_enter_ne_global hpos bindings
    rw [own?_congr (frames_pop_call hbody hid)]
    refine hbody.unbound hcurrent name ?_
    rwa [own?_congr (frames_enter hid bindings)]

end Environment

end Scriptlet
