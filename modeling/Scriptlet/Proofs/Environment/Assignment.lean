import Scriptlet.Proofs.Environment.Operations

/-!
# What is seen of an assignment

An assignment from a frame writes to one frame, and every other frame may see it or not: an ancestor, a
descendant, or one that shares only some of its parents. The chains of all frames stay as they are
(`chain_assign`), and so does where a name is found, unless nobody on the chain of the assigning frame
binds it (`lookup_assign_of_bound`). In that case the assigning frame itself binds it now, and is found
exactly from the frames that have it on their chain and found nothing before (`lookup_assign_of_missed`).
A frame that found the name before still finds it there (`lookup_assign_of_found`): the assigning frame
does not lie in between, since it finds what is bound above it (`Chain.isSome_lookup`).

* `assign_seen_from`: what every live frame sees after an assignment, of the assigned name and of others.
-/

namespace Scriptlet

namespace Environment

variable {env : Environment} {frame observer owner : FrameId} {chain : List FrameId}
  {name other : String} {value : Value}

/-- What is bound further up a chain is found from every frame below it on the chain. -/
theorem Chain.isSome_lookup (henv : env.Ordered) {before after : List FrameId}
    (h : env.Chain observer (before ++ frame :: after)) (howner : owner ∈ after)
    (hbinds : env.binds name owner) : (env.lookup frame name).isSome := by
  have hchain : env.Chain frame (frame :: after) := h.of_suffix (List.suffix_append before _)
  rw [hchain.lookup_eq henv, List.find?_isSome]
  exact ⟨owner, List.mem_cons_of_mem frame howner, hbinds⟩

/-- What is not found from a frame is not found from the frames of its chain. -/
theorem Chain.lookup_eq_none_of_mem (henv : env.Ordered) (h : env.Chain observer chain)
    (hmem : frame ∈ chain) (hmissed : env.lookup observer name = none) :
    env.lookup frame name = none := by
  obtain ⟨before, after, rfl⟩ := List.append_of_mem hmem
  have hchain : env.Chain frame (frame :: after) := h.of_suffix (List.suffix_append before _)
  rw [hchain.lookup_eq_none_iff henv]
  exact fun id hid => (h.lookup_eq_none_iff henv).mp hmissed id (List.mem_append_right before hid)

/-- The frame that an assignment writes to. -/
def target (env : Environment) (frame : FrameId) (name : String) : FrameId :=
  (env.lookup frame name).getD frame

/-- The frame that is assigned to is live. -/
theorem target_lt_depth (henv : env.Ordered) (hframe : frame < env.depth) (name : String) :
    env.target frame name < env.depth := by
  obtain ⟨chain, hchain⟩ := henv.exists_chain hframe
  exact (hchain.answers henv name).owner

/-- An assignment changes what the frame that it writes to binds to its name, and nothing else. -/
theorem own?_assign (henv : env.Ordered) (hframe : frame < env.depth) (name : String) (value : Value)
    (id : FrameId) (other : String) :
    (env.assign frame name value).2.own? id other =
      if env.target frame name = id ∧ name = other then some value else env.own? id other :=
  own?_set (target_lt_depth henv hframe name) name value id other

/-- An assignment leaves the chains as they are. -/
theorem chain_assign (h : env.Chain observer chain) (frame : FrameId) (name : String) (value : Value) :
    (env.assign frame name value).2.Chain observer chain :=
  h.of_parents fun id => parents_set _ id value

/-- A name is looked for along the chains that were there before. -/
theorem lookup_assign (henv : env.Ordered) (h : env.Chain observer chain) (frame : FrameId)
    (name : String) (value : Value) (other : String) :
    (env.assign frame name value).2.lookup observer other =
      chain.find? ((env.assign frame name value).2.binds other) :=
  (chain_assign h frame name value).lookup_eq (henv.set _ name value) other

section seen

variable (henv : env.Ordered) (hframe : frame < env.depth)

include henv hframe

/-- What a frame binds to other names stays. -/
theorem own?_assign_of_ne (hother : other ≠ name) (value : Value) (id : FrameId) :
    (env.assign frame name value).2.own? id other = env.own? id other := by
  rw [own?_assign henv hframe, if_neg fun h => hother h.2.symm]

/-- After an assignment, its name is bound where it was bound, and in the frame that was written to. -/
theorem binds_assign (name : String) (value : Value) (id : FrameId) :
    (env.assign frame name value).2.binds name id = (env.binds name id || id == env.target frame name) := by
  unfold binds
  rw [own?_assign henv hframe]
  by_cases hid : env.target frame name = id
  · simp [hid]
  · simp [hid, Ne.symm hid]

/-- An assignment to a name that is found binds it nowhere else. -/
theorem binds_assign_of_bound (hbound : env.lookup frame name = some owner) (value : Value) :
    (env.assign frame name value).2.binds name = env.binds name := by
  obtain ⟨chain, hchain⟩ := henv.exists_chain hframe
  obtain ⟨-, howner⟩ := hchain.of_lookup_eq_some henv hbound
  have htarget : env.target frame name = owner := congrArg (Option.getD · frame) hbound
  funext id
  rw [binds_assign henv hframe, htarget]
  by_cases hid : id = owner
  · rw [hid, howner, Bool.true_or]
  · rw [beq_false_of_ne hid, Bool.or_false]

/-- An assignment to a name that is not found binds it in the assigning frame. -/
theorem binds_assign_of_unbound (hunbound : env.lookup frame name = none) (value : Value)
    (id : FrameId) :
    (env.assign frame name value).2.binds name id = (env.binds name id || id == frame) := by
  have htarget : env.target frame name = frame := congrArg (Option.getD · frame) hunbound
  rw [binds_assign henv hframe, htarget]

/-- It brings the name into no other frame. -/
theorem binds_assign_of_ne (hunbound : env.lookup frame name = none) (value : Value) {id : FrameId}
    (hid : id ≠ frame) : (env.assign frame name value).2.binds name id = env.binds name id := by
  rw [binds_assign_of_unbound henv hframe hunbound, beq_false_of_ne hid, Bool.or_false]

/-! ### Where names are found -/

/-- Other names are found where they were. -/
theorem lookup_assign_of_ne (hother : other ≠ name) (value : Value) (hobserver : observer < env.depth) :
    (env.assign frame name value).2.lookup observer other = env.lookup observer other := by
  obtain ⟨chain, hchain⟩ := henv.exists_chain hobserver
  have hbinds : (env.assign frame name value).2.binds other = env.binds other := by
    funext id
    unfold binds
    rw [own?_assign_of_ne henv hframe hother]
  rw [lookup_assign henv hchain, hchain.lookup_eq henv, hbinds]

/-- If the name was found from the assigning frame, it is found where it was. -/
theorem lookup_assign_of_bound (hbound : env.lookup frame name = some owner) (value : Value)
    (hobserver : observer < env.depth) :
    (env.assign frame name value).2.lookup observer name = env.lookup observer name := by
  obtain ⟨chain, hchain⟩ := henv.exists_chain hobserver
  rw [lookup_assign henv hchain, hchain.lookup_eq henv, binds_assign_of_bound henv hframe hbound]

/-- If the name was not found from the assigning frame, it is still found where it was found before. -/
theorem lookup_assign_of_found (hunbound : env.lookup frame name = none) (value : Value)
    (hchain : env.Chain observer chain) (hfound : env.lookup observer name = some owner) :
    (env.assign frame name value).2.lookup observer name = some owner := by
  rw [hchain.lookup_eq henv] at hfound
  obtain ⟨howner, before, after, rfl, hbefore⟩ := List.find?_eq_some_iff_append.mp hfound
  rw [lookup_assign henv hchain]
  refine List.find?_eq_some_iff_append.mpr ⟨?_, before, after, rfl, fun id hid => ?_⟩
  · rw [binds_assign_of_unbound henv hframe hunbound, howner, Bool.true_or]
  · -- the assigning frame does not lie below the frame in which the name was found
    have hne : id ≠ frame := by
      rintro rfl
      obtain ⟨newer, older, rfl⟩ := List.append_of_mem hid
      rw [List.append_assoc] at hchain
      have hseen := hchain.isSome_lookup henv (List.mem_append_right older List.mem_cons_self) howner
      rw [hunbound] at hseen
      cases hseen
    rw [binds_assign_of_ne henv hframe hunbound value hne]
    exact hbefore id hid

/-- If the name was found from neither frame, it is found in the assigning one if that is on the chain. -/
theorem lookup_assign_of_missed (hunbound : env.lookup frame name = none) (value : Value)
    (hchain : env.Chain observer chain) (hmissed : env.lookup observer name = none) :
    (env.assign frame name value).2.lookup observer name = if frame ∈ chain then some frame else none := by
  rw [hchain.lookup_eq henv, List.find?_eq_none] at hmissed
  rw [lookup_assign henv hchain]
  by_cases hmem : frame ∈ chain
  · rw [if_pos hmem]
    obtain ⟨before, after, rfl, hfirst⟩ := List.eq_append_cons_of_mem hmem
    refine List.find?_eq_some_iff_append.mpr ⟨?_, before, after, rfl, fun id hid => ?_⟩
    · rw [binds_assign_of_unbound henv hframe hunbound, beq_self_eq_true, Bool.or_true]
    · have hne : id ≠ frame := fun heq => hfirst (heq ▸ hid)
      rw [binds_assign_of_ne henv hframe hunbound value hne, Bool.not_eq_true']
      exact eq_false_of_ne_true (hmissed id (List.mem_append_left _ hid))
  · rw [if_neg hmem, List.find?_eq_none]
    intro id hid
    have hne : id ≠ frame := fun heq => hmem (heq ▸ hid)
    rw [binds_assign_of_ne henv hframe hunbound value hne]
    exact hmissed id hid

/-- A frame that binds the name is written to exactly if the assigning frame finds the name there. -/
theorem eq_target_iff (howner : env.binds name owner) :
    owner = env.target frame name ↔ env.lookup frame name = some owner := by
  unfold target
  cases hlookup : env.lookup frame name with
  | some k => rw [Option.getD_some, Option.some_inj, eq_comm]
  | none =>
    obtain ⟨chain, hchain⟩ := henv.exists_chain hframe
    have hunbound := (hchain.lookup_eq_none_iff henv).mp hlookup frame hchain.mem_self
    constructor
    · rintro rfl
      rw [binds, hunbound] at howner
      cases howner
    · intro hfound
      cases hfound

/-! ### The view from one frame -/

/-- Other names have the values that they had. -/
theorem get?_assign_of_ne (hother : other ≠ name) (value : Value) (hobserver : observer < env.depth) :
    (env.assign frame name value).2.get? observer other = env.get? observer other := by
  unfold get?
  rw [lookup_assign_of_ne henv hframe hother value hobserver]
  congr
  funext owner
  exact own?_assign_of_ne henv hframe hother value owner

/-- What was found before stays where it was, and has the new value if the assigning frame finds it there
as well. -/
theorem seen_of_found (value : Value) (hobserver : observer < env.depth)
    (hfound : env.lookup observer name = some owner) :
    (env.assign frame name value).2.lookup observer name = some owner ∧
      (env.assign frame name value).2.get? observer name =
        if env.lookup frame name = some owner then some value else env.get? observer name := by
  obtain ⟨chain, hchain⟩ := henv.exists_chain hobserver
  have hlookup : (env.assign frame name value).2.lookup observer name = some owner := by
    cases hbound : env.lookup frame name with
    | some k => rw [lookup_assign_of_bound henv hframe hbound value hobserver, hfound]
    | none => exact lookup_assign_of_found henv hframe hbound value hchain hfound
  refine ⟨hlookup, ?_⟩
  obtain ⟨-, howner⟩ := hchain.of_lookup_eq_some henv hfound
  unfold get?
  rw [hlookup, hfound, Option.bind_some, Option.bind_some, own?_assign henv hframe]
  simp only [and_true, eq_comm, eq_target_iff henv hframe howner]

/-- What was not found before is found in the assigning frame, if that is on the chain. -/
theorem seen_of_not_found (value : Value) (hchain : env.Chain observer chain)
    (hmissed : env.lookup observer name = none) :
    (env.assign frame name value).2.lookup observer name = (if frame ∈ chain then some frame else none) ∧
      (env.assign frame name value).2.get? observer name =
        if frame ∈ chain then some value else none := by
  unfold get?
  by_cases hmem : frame ∈ chain
  · have hunbound := hchain.lookup_eq_none_of_mem henv hmem hmissed
    have htarget : env.target frame name = frame := congrArg (Option.getD · frame) hunbound
    have hlookup : (env.assign frame name value).2.lookup observer name = some frame := by
      rw [lookup_assign_of_missed henv hframe hunbound value hchain hmissed, if_pos hmem]
    rw [if_pos hmem, if_pos hmem, hlookup]
    refine ⟨rfl, ?_⟩
    rw [Option.bind_some, own?_assign henv hframe, if_pos ⟨htarget, rfl⟩]
  · have hlookup : (env.assign frame name value).2.lookup observer name = none := by
      cases hbound : env.lookup frame name with
      | none => rw [lookup_assign_of_missed henv hframe hbound value hchain hmissed, if_neg hmem]
      | some k =>
        have hobserver := hchain.lt_depth observer hchain.mem_self
        rw [lookup_assign_of_bound henv hframe hbound value hobserver, hmissed]
    rw [if_neg hmem, if_neg hmem, hlookup]
    exact ⟨rfl, rfl⟩

end seen

/-! ### The view from every frame -/

/-- After an assignment from a live frame, no frame has come or gone or has another parent, and the
value that the name had for the frame was returned. Seen from any live frame, other names are found where
they were, with the values that they had. If the assigned name was found before, it is found in the same
place, and has the new value if it is found there from the assigning frame as well, and its old one
otherwise. If it was not found before, it is found in the assigning frame, with the new value, if that is
on the chain, and is still not found otherwise. -/
theorem assign_seen_from (h : env.Reached) (hframe : frame < env.depth) {previous : Option Value}
    {after : Environment} (hassign : env.assign frame name value = (previous, after)) :
    previous = env.get? frame name ∧
    after.depth = env.depth ∧
    (∀ id : FrameId, after.frames[id]?.map Frame.parent = env.frames[id]?.map Frame.parent) ∧
    ∀ observer < env.depth,
      (∀ other, other ≠ name → after.lookup observer other = env.lookup observer other ∧
        after.get? observer other = env.get? observer other) ∧
      (∀ owner, env.lookup observer name = some owner →
        after.lookup observer name = some owner ∧
        after.get? observer name =
          if env.lookup frame name = some owner then some value else env.get? observer name) ∧
      (env.lookup observer name = none → ∃ chain, env.Chain observer chain ∧
        after.lookup observer name = (if frame ∈ chain then some frame else none) ∧
        after.get? observer name = if frame ∈ chain then some value else none) := by
  have henv := h.ordered
  obtain ⟨hprevious, rfl⟩ : (env.assign frame name value).1 = previous ∧
      (env.assign frame name value).2 = after := by rw [hassign]; exact ⟨rfl, rfl⟩
  refine ⟨?_, depth_set env _ name value, fun id => parents_set _ id value, fun observer hobserver => ?_⟩
  · obtain ⟨chain, hchain⟩ := henv.exists_chain hframe
    rw [← hprevious, hchain.assign_fst henv]
  · refine ⟨fun other hother => ⟨?_, ?_⟩, fun owner hfound => ?_, fun hmissed => ?_⟩
    · exact lookup_assign_of_ne henv hframe hother value hobserver
    · exact get?_assign_of_ne henv hframe hother value hobserver
    · exact seen_of_found henv hframe value hobserver hfound
    · obtain ⟨chain, hchain⟩ := henv.exists_chain hobserver
      exact ⟨chain, hchain, seen_of_not_found henv hframe value hchain hmissed⟩

/-- The frame of a call assigns to a name that only a sibling of it binds. The assignment binds the name in
the frame itself, where a child of that frame sees it and the sibling does not. -/
theorem assign_seen_from_child_and_sibling :
    let env : Environment := (((initial.push global).set 1 "x" 7).push global).push 2
    env.lookup 2 "x" = none ∧
      (env.assign 2 "x" 5).2.get? 3 "x" = some 5 ∧ (env.assign 2 "x" 5).2.get? 1 "x" = some 7 := by
  intro env
  have hsibling := @Reached.performed _ (.push global) .initial (by decide)
  have hbound := @Reached.performed _ (.define 1 "x" 7) hsibling (by decide)
  have hframe := @Reached.performed _ (.push global) hbound (by decide)
  have hchild : env.Reached := @Reached.performed _ (.push 2) hframe (by decide)
  have hassign : env.assign 2 "x" 5 = ((env.assign 2 "x" 5).1, (env.assign 2 "x" 5).2) := rfl
  obtain ⟨-, -, -, hseen⟩ := assign_seen_from hchild (by decide) hassign
  refine ⟨by decide, ?_, ?_⟩
  · obtain ⟨-, -, hmissed⟩ := hseen 3 (by decide)
    obtain ⟨chain, hchain, -, hget⟩ := hmissed (by decide)
    have hframes : env.Chain 3 [3, 2, global] := .child rfl rfl (.child rfl rfl (.root rfl rfl))
    rw [hget, hchain.unique hframes, if_pos (by decide)]
  · obtain ⟨-, hfound, -⟩ := hseen 1 (by decide)
    rw [(hfound 1 (by decide)).2, if_neg (by decide)]
    decide

end Environment

end Scriptlet
