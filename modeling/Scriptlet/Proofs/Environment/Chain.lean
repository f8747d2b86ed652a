import Scriptlet.Proofs.Eval.Frames

/-!
# Chains of frames

The frames in which a name is looked for are a frame, its parent, the parent of that and so on
(`Chain`). If parents are older than their children (`Ordered`), the chain from any live frame ends
at the global frame. A lookup then is a search of the chain:

* `Ordered.exists_chain`: there is a chain from every live frame.
* `Chain.lookup_eq`, `Chain.get?_eq`: what is found is the first frame of the chain that binds the
  name, and the value there.
* `Ordered.searches_iff`: a search that goes from frame to frame, and may only look at live ones, comes
  to the same end.

Two environments with the same parents have the same chains (`Chain.of_parents`).
-/

namespace Scriptlet

namespace Environment

/-- The global frame has no parent, and every other live frame has an older one. -/
structure Ordered (env : Environment) : Prop where
  root : ∃ frame, env.frames[global]? = some frame ∧ frame.parent = none
  parent : ∀ {id : FrameId} {frame : Frame}, env.frames[id]? = some frame → id ≠ global →
    ∃ parent, frame.parent = some parent ∧ parent < id

/-- The frames from one outwards: the frame, its parent, and so on up to the one without a parent. -/
inductive Chain (env : Environment) : FrameId → List FrameId → Prop where
  | root {id : FrameId} {frame : Frame} :
      env.frames[id]? = some frame → frame.parent = none → Chain env id [id]
  | child {id parent : FrameId} {frame : Frame} {chain : List FrameId} :
      env.frames[id]? = some frame → frame.parent = some parent → Chain env parent chain →
        Chain env id (id :: chain)

/-- Whether a frame itself binds a name. -/
def binds (env : Environment) (name : String) (id : FrameId) : Bool :=
  (env.own? id name).isSome

/-- How the search for a name goes from frame to frame, and where it ends. It gets on only where the
frame that it looks at is live. -/
inductive Searches (env : Environment) (name : String) : Option FrameId → Option FrameId → Prop where
  | exhausted : Searches env name none none
  | found {id : FrameId} {frame : Frame} :
      env.frames[id]? = some frame → frame.bindings.contains name → Searches env name (some id) (some id)
  | outwards {id : FrameId} {frame : Frame} {result : Option FrameId} :
      env.frames[id]? = some frame → ¬ frame.bindings.contains name →
        Searches env name frame.parent result → Searches env name (some id) result

variable {env env' : Environment} {id : FrameId} {chain chain' : List FrameId} {name : String}

/-- A frame can be read exactly if it is live. -/
theorem lt_depth_iff : id < env.depth ↔ ∃ frame, env.frames[id]? = some frame := by
  rw [← Option.isSome_iff_exists, isSome_getElem?]
  rfl

/-! ### Chains -/

/-- From every live frame there is a chain. -/
theorem Ordered.exists_chain (h : env.Ordered) (hid : id < env.depth) : ∃ chain, env.Chain id chain := by
  induction id using Nat.strongRecOn with
  | ind id ih =>
    by_cases hglobal : id = global
    · obtain ⟨frame, hframe, hparent⟩ := h.root
      subst hglobal
      exact ⟨_, .root hframe hparent⟩
    · obtain ⟨frame, hframe⟩ := lt_depth_iff.mp hid
      obtain ⟨parent, hparent, hlt⟩ := h.parent hframe hglobal
      obtain ⟨chain, hchain⟩ := ih parent hlt (Nat.lt_trans hlt hid)
      exact ⟨_, .child hframe hparent hchain⟩

namespace Chain

/-- There is one chain from a frame at most. -/
theorem unique (h : env.Chain id chain) (h' : env.Chain id chain') : chain = chain' := by
  induction h generalizing chain' with
  | root hframe hparent =>
    cases h' with
    | root => rfl
    | child hframe' hparent' =>
      cases hframe.symm.trans hframe'
      cases hparent.symm.trans hparent'
  | child hframe hparent _ ih =>
    cases h' with
    | root hframe' hparent' =>
      cases hframe.symm.trans hframe'
      cases hparent.symm.trans hparent'
    | child hframe' hparent' hrest' =>
      cases hframe.symm.trans hframe'
      cases hparent.symm.trans hparent'
      rw [ih hrest']

/-- All frames of a chain are live. -/
theorem lt_depth (h : env.Chain id chain) : ∀ i ∈ chain, i < env.depth := by
  induction h with
  | root hframe _ => exact List.forall_mem_singleton.mpr (lt_depth_iff.mpr ⟨_, hframe⟩)
  | child hframe _ _ ih => exact List.forall_mem_cons.mpr ⟨lt_depth_iff.mpr ⟨_, hframe⟩, ih⟩

/-- A chain starts at its frame. -/
theorem head?_eq (h : env.Chain id chain) : chain.head? = some id := by
  cases h <;> rfl

/-- A frame is on its own chain. -/
theorem mem_self (h : env.Chain id chain) : id ∈ chain :=
  List.mem_of_mem_head? h.head?_eq

/-- What is left of a chain from one of its frames on is the chain from that frame. -/
theorem of_suffix (h : env.Chain id chain) {middle : FrameId} {after : List FrameId}
    (hsuffix : middle :: after <:+ chain) : env.Chain middle (middle :: after) := by
  induction h with
  | root hframe hparent =>
    obtain ⟨rfl, rfl⟩ : middle = _ ∧ after = [] := by simpa [List.suffix_cons_iff] using hsuffix
    exact .root hframe hparent
  | child hframe hparent hrest ih =>
    rcases List.suffix_cons_iff.mp hsuffix with heq | hsuffix
    · cases heq
      exact .child hframe hparent hrest
    · exact ih hsuffix

/-- A chain has no more frames than there are up to its first one. -/
theorem length_le (h : env.Ordered) (hchain : env.Chain id chain) : chain.length ≤ id + 1 := by
  induction hchain with
  | root => exact Nat.le_add_left 1 _
  | @child id parent frame chain hframe hparent _ ih =>
    have hglobal : id ≠ global := by
      rintro rfl
      obtain ⟨root, hroot, hnone⟩ := h.root
      cases hframe.symm.trans hroot
      cases hparent.symm.trans hnone
    obtain ⟨older, holder, hlt⟩ := h.parent hframe hglobal
    cases hparent.symm.trans holder
    exact Nat.succ_le_succ (Nat.le_trans ih hlt)

/-- Chains depend on the parents of the frames only. -/
theorem of_parents (h : env.Chain id chain)
    (hparents : ∀ i : FrameId, env'.frames[i]?.map Frame.parent = env.frames[i]?.map Frame.parent) :
    env'.Chain id chain := by
  have transport : ∀ {i : FrameId} {frame : Frame}, env.frames[i]? = some frame →
      ∃ frame', env'.frames[i]? = some frame' ∧ frame'.parent = frame.parent := by
    intro i frame hframe
    have hparent := hparents i
    rw [hframe, Option.map_some] at hparent
    exact Option.map_eq_some_iff.mp hparent
  induction h with
  | root hframe hparent =>
    obtain ⟨frame', hframe', heq⟩ := transport hframe
    exact .root hframe' (heq.trans hparent)
  | child hframe hparent _ ih =>
    obtain ⟨frame', hframe', heq⟩ := transport hframe
    exact .child hframe' (heq.trans hparent) ih

/-! ### Looking along a chain -/

/-- A search of enough steps finds the first frame of the chain that binds the name. -/
theorem lookupWithin_eq (h : env.Chain id chain) {steps : Nat} (hsteps : chain.length ≤ steps) :
    env.lookupWithin name steps id = chain.find? (env.binds name) := by
  induction h generalizing steps with
  | root hframe hparent =>
    obtain ⟨more, rfl⟩ := Nat.exists_eq_add_of_le' (List.length_singleton ▸ hsteps)
    rw [List.find?_singleton]
    simp only [lookupWithin, hframe, hparent, contains_eq_own? hframe, binds]
    rfl
  | child hframe hparent _ ih =>
    obtain ⟨more, rfl⟩ := Nat.exists_eq_add_of_le' (Nat.le_trans (Nat.le_add_left 1 _) hsteps)
    have hrest := ih (Nat.le_of_succ_le_succ hsteps)
    rw [List.find?_cons]
    simp only [lookupWithin, hframe, hparent, contains_eq_own? hframe, hrest, binds]
    cases (env.own? _ name).isSome <;> rfl

/-- A name is found in the first frame of the chain that binds it. -/
theorem lookup_eq (henv : env.Ordered) (h : env.Chain id chain) (name : String) :
    env.lookup id name = chain.find? (env.binds name) := by
  have hlength : chain.length ≤ env.depth :=
    Nat.le_trans (h.length_le henv) (h.lt_depth id h.mem_self)
  exact h.lookupWithin_eq hlength

/-- A name is found in a live frame that binds it. -/
theorem of_lookup_eq_some (henv : env.Ordered) (h : env.Chain id chain) {owner : FrameId}
    (hlookup : env.lookup id name = some owner) : owner ∈ chain ∧ env.binds name owner := by
  rw [h.lookup_eq henv] at hlookup
  exact ⟨List.mem_of_find?_eq_some hlookup, List.find?_some hlookup⟩

/-- A name is not found exactly if no frame of the chain binds it. -/
theorem lookup_eq_none_iff (henv : env.Ordered) (h : env.Chain id chain) :
    env.lookup id name = none ↔ ∀ i ∈ chain, env.own? i name = none := by
  rw [h.lookup_eq henv, List.find?_eq_none]
  simp only [binds, Option.not_isSome_iff_eq_none]

/-- The value of a name is the first one along the chain. -/
theorem get?_eq (henv : env.Ordered) (h : env.Chain id chain) (name : String) :
    env.get? id name = chain.findSome? fun i => env.own? i name := by
  unfold get?
  rw [h.lookup_eq henv]
  clear h
  induction chain with
  | nil => rfl
  | cons i rest ih =>
    rw [List.find?_cons, List.findSome?_cons, binds]
    cases hown : env.own? i name with
    | none => exact ih
    | some v => exact hown

/-- An assignment returns the value that the name had. -/
theorem assign_fst (henv : env.Ordered) (h : env.Chain id chain) (name : String) (value : Value) :
    (env.assign id name value).1 = env.get? id name := by
  show env.own? ((env.lookup id name).getD id) name = (env.lookup id name).bind _
  cases hlookup : env.lookup id name with
  | none => exact (h.lookup_eq_none_iff henv).mp hlookup id h.mem_self
  | some owner => rfl

/-- A search from a frame with a chain comes to an end. -/
theorem searches (h : env.Chain id chain) (name : String) :
    env.Searches name (some id) (chain.find? (env.binds name)) := by
  induction h with
  | @root id frame hframe hparent =>
    have hbinds : env.binds name id = frame.bindings.contains name := (contains_eq_own? hframe).symm
    rw [List.find?_singleton, hbinds]
    split
    case isTrue hcontains => exact .found hframe hcontains
    case isFalse hcontains =>
      refine .outwards hframe hcontains ?_
      rw [hparent]
      exact .exhausted
  | @child id parent frame chain hframe hparent _ ih =>
    have hbinds : env.binds name id = frame.bindings.contains name := (contains_eq_own? hframe).symm
    rw [List.find?_cons, hbinds]
    cases hcontains : frame.bindings.contains name with
    | true => exact .found hframe hcontains
    | false =>
      refine .outwards hframe (by rw [hcontains]; decide) ?_
      rw [hparent]
      exact ih

end Chain

/-- A search has one end at most. -/
theorem Searches.unique {start result result' : Option FrameId} (h : env.Searches name start result)
    (h' : env.Searches name start result') : result = result' := by
  induction h with
  | exhausted =>
    cases h'
    rfl
  | found hframe hcontains =>
    cases h' with
    | found => rfl
    | outwards hframe' hnot =>
      cases hframe.symm.trans hframe'
      exact absurd hcontains hnot
  | outwards hframe hnot _ ih =>
    cases h' with
    | found hframe' hcontains =>
      cases hframe.symm.trans hframe'
      exact absurd hcontains hnot
    | outwards hframe' _ hrest' =>
      cases hframe.symm.trans hframe'
      exact ih hrest'

/-- The search from a live frame comes to an end, and it is the one that the lookup gives. -/
theorem Ordered.searches_iff (h : env.Ordered) (hid : id < env.depth) {result : Option FrameId} :
    env.Searches name (some id) result ↔ result = env.lookup id name := by
  obtain ⟨chain, hchain⟩ := h.exists_chain hid
  have hends := hchain.searches name
  rw [← hchain.lookup_eq h] at hends
  constructor
  · exact fun hresult => hresult.unique hends
  · rintro rfl
    exact hends

end Environment

end Scriptlet
