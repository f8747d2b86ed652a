import Scriptlet.Proofs.Environment.Chain

/-!
# Environments that operations lead to

An environment that starts with the global frame and is only asked about live frames (`Reached`) has
its frames in order, whatever is pushed and popped and however often the number of a frame is used
again: an operation keeps the order (`Ordered.perform`), and so does any sequence of them
(`Reached.ordered`). All questions about names are then answered from the chain of a frame
(`Answers`).

* `reached_frames_ordered`: what holds of the frames of every environment that operations lead to.
-/

namespace Scriptlet

namespace Environment

/-- What can be asked of an environment. -/
inductive Operation where
  | push (parent : FrameId)
  | pop
  | define (frame : FrameId) (name : String) (value : Value)
  | assign (frame : FrameId) (name : String) (value : Value)
  | lookup (frame : FrameId) (name : String)
  | get (frame : FrameId) (name : String)
  deriving DecidableEq, Repr

namespace Operation

/-- The frame that an operation is about, if there is one, is live. -/
def Allowed (env : Environment) : Operation → Prop
  | .push frame | .define frame _ _ | .assign frame _ _ | .lookup frame _ | .get frame _ =>
    frame < env.depth
  | .pop => True

/-- Whether an operation is allowed can be decided, by comparing two numbers at most. -/
instance (env : Environment) : (op : Operation) → Decidable (op.Allowed env)
  | .push frame | .define frame _ _ | .assign frame _ _ | .lookup frame _ | .get frame _ =>
    inferInstanceAs (Decidable (frame < env.depth))
  | .pop => inferInstanceAs (Decidable True)

/-- The environment after an operation. Looking for a name changes nothing. -/
def perform (env : Environment) : Operation → Environment
  | .push parent => env.push parent
  | .pop => env.pop
  | .define frame name value => (env.define frame name value).2
  | .assign frame name value => (env.assign frame name value).2
  | .lookup _ _ | .get _ _ => env

end Operation

/-- Operations on live frames lead to an environment. -/
inductive Reached : Environment → Prop where
  | initial : Reached .initial
  | performed {env : Environment} {op : Operation} :
      Reached env → op.Allowed env → Reached (op.perform env)

/-- What a name gives at a frame, and that it gives something. -/
structure Answers (env : Environment) (frame : FrameId) (chain : List FrameId) (name : String) :
    Prop where
  /-- The search ends where the lookup says, and looks at live frames only. -/
  searches : ∀ result, env.Searches name (some frame) result ↔ result = env.lookup frame name
  lookup : env.lookup frame name = chain.find? (env.binds name)
  unbound : env.lookup frame name = none ↔ ∀ id ∈ chain, env.own? id name = none
  get : env.get? frame name = chain.findSome? fun id => env.own? id name
  /-- The frame that an assignment writes to is live. -/
  owner : (env.lookup frame name).getD frame < env.depth
  assign : ∀ value, (env.assign frame name value).1 = chain.findSome? fun id => env.own? id name

variable {env after : Environment} {op : Operation}

/-! ### Operations keep the order -/

/-- The global frame alone is in order. -/
theorem ordered_initial : initial.Ordered := by
  refine ⟨⟨_, rfl, rfl⟩, fun {id frame} hframe hid => ?_⟩
  cases id with
  | zero => exact absurd rfl hid
  | succ id => cases hframe

/-- Some frame is live, the global one at least. -/
theorem Ordered.depth_pos (h : env.Ordered) : 0 < env.depth := by
  obtain ⟨frame, hframe, -⟩ := h.root
  exact lt_depth_iff.mpr ⟨frame, hframe⟩

/-- A pop takes the newest frame away and nothing else, and never the global one. -/
theorem Ordered.pop_spec (h : env.Ordered) :
    env.pop.depth = max 1 (env.depth - 1) ∧
      ∀ id < env.pop.depth, env.pop.frames[id]? = env.frames[id]? := by
  have hpos := h.depth_pos
  by_cases hdepth : 1 < env.depth
  · have hpop := depth_pop hdepth
    refine ⟨by omega, fun id hid => ?_⟩
    rw [hpop] at hid
    exact frames_pop (Nat.add_lt_of_lt_sub hid)
  · have hsame : env.pop = env := if_neg hdepth
    rw [hsame]
    exact ⟨by omega, fun _ _ => rfl⟩

/-- Frames are in order if their parents are those of frames in order. -/
theorem Ordered.of_parents (h : env.Ordered) (hpos : 0 < after.depth)
    (hparents : ∀ id < after.depth,
      after.frames[id]?.map Frame.parent = env.frames[id]?.map Frame.parent) : after.Ordered := by
  constructor
  case root =>
    obtain ⟨root, hroot, hnone⟩ := h.root
    have hparent := hparents global hpos
    rw [hroot, Option.map_some, hnone] at hparent
    exact Option.map_eq_some_iff.mp hparent
  case parent =>
    intro id frame hframe hid
    have hparent := hparents id (lt_depth_iff.mpr ⟨frame, hframe⟩)
    rw [hframe, Option.map_some] at hparent
    obtain ⟨old, hold, heq⟩ := Option.map_eq_some_iff.mp hparent.symm
    rw [← heq]
    exact h.parent hold hid

/-- A new frame is newer than its parent. -/
theorem Ordered.push (h : env.Ordered) {parent : FrameId} (hparent : parent < env.depth) :
    (env.push parent).Ordered := by
  have hpushed : ∀ id : FrameId, (env.push parent).frames[id]? =
      if id = env.depth then some ⟨.empty, some parent⟩ else env.frames[id]? :=
    fun _ => Array.getElem?_push
  constructor
  case root =>
    have hglobal : global ≠ env.depth := Nat.ne_of_lt h.depth_pos
    rw [hpushed, if_neg hglobal]
    exact h.root
  case parent =>
    intro id frame hframe hid
    rw [hpushed] at hframe
    split at hframe
    case isTrue hnew =>
      cases hframe
      exact ⟨parent, rfl, hnew ▸ hparent⟩
    case isFalse => exact h.parent hframe hid

/-- The frames that a pop leaves are in order. -/
theorem Ordered.pop (h : env.Ordered) : env.pop.Ordered := by
  obtain ⟨hdepth, hframes⟩ := h.pop_spec
  refine h.of_parents ?_ fun id hid => by rw [hframes id hid]
  rw [hdepth]
  exact Nat.lt_of_lt_of_le Nat.one_pos (Nat.le_max_left 1 _)

/-- Writing to a frame leaves the frames in order. -/
theorem Ordered.set (h : env.Ordered) (frame : FrameId) (name : String) (value : Value) :
    (env.set frame name value).Ordered := by
  refine h.of_parents ?_ fun id _ => parents_set frame id value
  rw [depth_set]
  exact h.depth_pos

/-- An operation on a live frame keeps the frames in order. -/
theorem Ordered.perform (h : env.Ordered) (hop : op.Allowed env) : (op.perform env).Ordered := by
  cases op with
  | push parent => exact h.push hop
  | pop => exact h.pop
  | define frame name value => exact h.set frame name value
  | assign frame name value => exact h.set _ name value
  | lookup frame name => exact h
  | get frame name => exact h

/-- Operations lead to environments whose frames are in order. -/
theorem Reached.ordered (h : env.Reached) : env.Ordered := by
  induction h with
  | initial => exact ordered_initial
  | performed _ hop ih => exact ih.perform hop

/-! ### Questions about names -/

/-- Along the chain of a frame, every search for a name has its answer. -/
theorem Chain.answers (h : env.Ordered) {frame : FrameId} {chain : List FrameId}
    (hchain : env.Chain frame chain) (name : String) : env.Answers frame chain name := by
  have hlive : frame < env.depth := hchain.lt_depth frame hchain.mem_self
  constructor
  case searches => exact fun result => h.searches_iff hlive
  case lookup => exact hchain.lookup_eq h name
  case unbound => exact hchain.lookup_eq_none_iff h
  case get => exact hchain.get?_eq h name
  case owner =>
    cases hlookup : env.lookup frame name with
    | none => exact hlive
    | some owner => exact hchain.lt_depth owner (hchain.of_lookup_eq_some h hlookup).1
  case assign => exact fun value => (hchain.assign_fst h name value).trans (hchain.get?_eq h name)

/-! ### The frames -/

/-- Operations on live frames lead to environments whose global frame has no parent and in which every
other live frame has an older one, also where the number of a frame is used again. A pop takes the
newest frame away and nothing else, and never the global one. At every live frame, what is asked about
a name is answered: a lookup, a reading or an assignment finds the first frame of the chain of parents
that binds the name, or nothing if none does, and looks at live frames only. -/
theorem reached_frames_ordered (h : env.Reached) :
    env.Ordered ∧
    (env.pop.depth = max 1 (env.depth - 1) ∧
      ∀ id < env.pop.depth, env.pop.frames[id]? = env.frames[id]?) ∧
    ∀ frame < env.depth, ∃ chain, env.Chain frame chain ∧ (∀ id ∈ chain, id < env.depth) ∧
      ∀ name, env.Answers frame chain name := by
  have hordered := h.ordered
  refine ⟨hordered, hordered.pop_spec, fun frame hframe => ?_⟩
  obtain ⟨chain, hchain⟩ := hordered.exists_chain hframe
  exact ⟨chain, hchain, hchain.lt_depth, hchain.answers hordered⟩

/-- Frame 2 is a child of frame 1, is popped, and comes back as a child of the global frame. What frame 1
binds is not seen from it then. -/
theorem reached_frames_ordered_of_reused_number :
    ∃ env : Environment, env.Reached ∧ env.own? 1 "x" = some 2 ∧
      ∃ chain, env.Chain 2 chain ∧ env.Answers 2 chain "x" ∧ env.lookup 2 "x" = some global := by
  have hbound := @Reached.performed _ (.define global "x" 1) .initial (by decide)
  have hfirst := @Reached.performed _ (.push global) hbound (by decide)
  have hhidden := @Reached.performed _ (.define 1 "x" 2) hfirst (by decide)
  have hchild := @Reached.performed _ (.push 1) hhidden (by decide)
  have hpopped := @Reached.performed _ .pop hchild (by decide)
  have hreused := @Reached.performed _ (.push global) hpopped (by decide)
  obtain ⟨-, -, hchains⟩ := reached_frames_ordered hreused
  obtain ⟨chain, hchain, -, hanswers⟩ := hchains 2 (by decide)
  exact ⟨_, hreused, by decide, chain, hchain, hanswers "x", by decide⟩

end Environment

end Scriptlet
