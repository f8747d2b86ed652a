import Scriptlet.Proofs.Eval.Confined
import Scriptlet.Proofs.Eval.Definitions
import Scriptlet.Proofs.Eval.Observation

/-!
# Processing definitions

A run processes the definitions of its program in order. `Processes` says that this succeeds, and
`FailsAt` that it fails at one definition; together they cover every way in which processing ends
(`declareAllAtFuel_eq_value_iff`, `declareAllAtFuel_eq_error_iff`). Functions become known in order, and
the initial values of global variables make none known, whatever they call (`Processes.functions`).

* `Program.StartsAt.known`: the function at which a program starts is known once its definitions are
  processed.
* `runAtFuel_eq`: how a run ends, for each way in which processing does.
* `runEnds`: all the ways in which a run may end.
-/

namespace Scriptlet

open Scriptlet.Action

/-- Definitions are processed one after the other. -/
inductive Processes (fuel : Nat) : List Definition → Machine → Machine → Prop where
  | nil (m : Machine) : Processes fuel [] m m
  /-- A well-formed function becomes known. -/
  | function {f : Function} {ds : List Definition} {m n : Machine} :
      f.name ≠ "" → f.parameters.Nodup → Processes fuel ds (m.register f) n →
        Processes fuel (.function f :: ds) m n
  /-- A global variable gets its initial value. -/
  | global {x : String} {e : Expr} {v : Value} {ds : List Definition} {m k n : Machine} :
      evalAtFuel fuel e m = .value v k →
        Processes fuel ds ((k.defineGlobal x v).record (.globalDefined x v)) n →
          Processes fuel (.global x e :: ds) m n

/-- A definition cannot be processed, and leaves a machine behind. -/
inductive FailsAt (fuel : Nat) : Definition → Machine → EvalError → Machine → Prop where
  | unnamed {f : Function} (m : Machine) : f.name = "" →
      FailsAt fuel (.function f) m (.malformed .unnamedFunction) m
  | repeated {f : Function} {x : String} (m : Machine) :
      f.name ≠ "" → IsFirstRepeated x f.parameters →
        FailsAt fuel (.function f) m (.malformed (.repeatedParameter x f.name)) m
  /-- The initial value cannot be evaluated, and the global variable is not defined. -/
  | global {x : String} {e : Expr} {reason : EvalError} {m n : Machine} :
      evalAtFuel fuel e m = .error reason n → FailsAt fuel (.global x e) m reason n

variable {fuel : Nat} {m n k : Machine} {ds before after : List Definition} {d : Definition}
  {reason : EvalError}

/-! ### How processing ends -/

/-- A function that is well formed is made known. -/
theorem declareAtFuel_function {f : Function} (hname : f.name ≠ "") (hnodup : f.parameters.Nodup)
    (fuel : Nat) (m : Machine) :
    declareAtFuel fuel (.function f) m = .value () (m.register f) := by
  simp only [declareAtFuel, Function.malformation?_eq_none_iff.mpr ⟨hname, hnodup⟩]
  rfl

/-- A global variable is defined with its initial value, and this is reported. -/
theorem declareAtFuel_global {e : Expr} {v : Value} (h : evalAtFuel fuel e m = .value v k)
    (x : String) : declareAtFuel fuel (.global x e) m =
      .value () ((k.defineGlobal x v).record (.globalDefined x v)) :=
  bind_value h

/-- A definition is processed exactly if it is processed as the only one. -/
theorem declareAtFuel_eq_value_iff :
    declareAtFuel fuel d m = .value () n ↔ Processes fuel [d] m n := by
  cases d with
  | function f =>
    constructor
    · intro h
      simp only [declareAtFuel] at h
      cases hf : f.malformation? with
      | some reason =>
        rw [hf] at h
        cases h
      | none =>
        rw [hf] at h
        cases h
        obtain ⟨hname, hnodup⟩ := Function.malformation?_eq_none_iff.mp hf
        exact .function hname hnodup (.nil _)
    · rintro (_ | ⟨hname, hnodup, ⟨⟩⟩)
      exact declareAtFuel_function hname hnodup fuel m
  | global x e =>
    constructor
    · intro h
      obtain ⟨v, k, hinitial, hdefine⟩ := bind_eq_value_iff.mp h
      cases hdefine
      exact .global hinitial (.nil _)
    · rintro (_ | _ | ⟨hinitial, ⟨⟩⟩)
      exact declareAtFuel_global hinitial x

/-- Definitions are processed if the first one is, and the others after it. -/
theorem processes_cons_iff :
    Processes fuel (d :: ds) m n ↔ ∃ k, Processes fuel [d] m k ∧ Processes fuel ds k n := by
  constructor
  · rintro (_ | ⟨hname, hnodup, hrest⟩ | ⟨hinitial, hrest⟩)
    · exact ⟨_, .function hname hnodup (.nil _), hrest⟩
    · exact ⟨_, .global hinitial (.nil _), hrest⟩
  · rintro ⟨k, hfirst, hrest⟩
    cases hfirst with
    | function hname hnodup hnil =>
      cases hnil
      exact .function hname hnodup hrest
    | global hinitial hnil =>
      cases hnil
      exact .global hinitial hrest

/-- Definitions are processed exactly if the run gets through them. -/
theorem declareAllAtFuel_eq_value_iff :
    declareAllAtFuel fuel ds m = .value () n ↔ Processes fuel ds m n := by
  induction ds generalizing m with
  | nil =>
    constructor
    · rintro ⟨⟩
      exact .nil _
    · rintro ⟨⟩
      rfl
  | cons d ds ih =>
    rw [processes_cons_iff]
    constructor
    · intro h
      obtain ⟨_, k, hfirst, hrest⟩ := bind_eq_value_iff.mp h
      exact ⟨k, declareAtFuel_eq_value_iff.mp hfirst, ih.mp hrest⟩
    · rintro ⟨k, hfirst, hrest⟩
      exact bind_eq_value_iff.mpr ⟨(), k, declareAtFuel_eq_value_iff.mpr hfirst, ih.mpr hrest⟩

/-- A definition fails exactly where it is malformed or its initial value fails. -/
theorem declareAtFuel_eq_error_iff :
    declareAtFuel fuel d m = .error reason n ↔ FailsAt fuel d m reason n := by
  cases d with
  | function f =>
    simp only [declareAtFuel]
    cases hf : f.malformation? with
    | none =>
      obtain ⟨hname, hnodup⟩ := Function.malformation?_eq_none_iff.mp hf
      constructor
      · nofun
      · rintro (⟨_, hempty⟩ | ⟨_, _, hx⟩)
        · exact absurd hempty hname
        · rw [Function.malformation?_eq_some_iff.mpr (.inr ⟨hname, _, hx, rfl⟩)] at hf
          cases hf
    | some malformation =>
      constructor
      · rintro ⟨⟩
        rcases Function.malformation?_eq_some_iff.mp hf with
          ⟨hname, rfl⟩ | ⟨hname, x, hx, rfl⟩
        · exact .unnamed _ hname
        · exact .repeated _ hname hx
      · rintro (⟨_, hempty⟩ | ⟨_, hname, hx⟩)
        · rw [Function.malformation?_eq_some_iff.mpr (.inl ⟨hempty, rfl⟩)] at hf
          cases hf
          rfl
        · rw [Function.malformation?_eq_some_iff.mpr (.inr ⟨hname, _, hx, rfl⟩)] at hf
          cases hf
          rfl
  | global x e =>
    constructor
    · intro h
      rcases bind_eq_error_iff.mp h with hinitial | ⟨v, k, -, hdefine⟩
      · exact .global hinitial
      · cases hdefine
    · rintro (_ | _ | hinitial)
      exact bind_eq_error_iff.mpr (.inl hinitial)

/-- A run fails in its definitions exactly if one of them cannot be processed after those before it. -/
theorem declareAllAtFuel_eq_error_iff :
    declareAllAtFuel fuel ds m = .error reason n ↔
      ∃ before d after k, ds = before ++ d :: after ∧ Processes fuel before m k ∧
        FailsAt fuel d k reason n := by
  induction ds generalizing m with
  | nil =>
    constructor
    · nofun
    · rintro ⟨before, d, after, k, hsplit, -, -⟩
      simp at hsplit
  | cons d ds ih =>
    constructor
    · intro h
      rcases bind_eq_error_iff.mp h with hfirst | ⟨_, k, hfirst, hrest⟩
      · exact ⟨[], d, ds, m, rfl, .nil m, declareAtFuel_eq_error_iff.mp hfirst⟩
      · obtain ⟨before, d', after, k', rfl, hbefore, hfails⟩ := ih.mp hrest
        have hprocessed := declareAtFuel_eq_value_iff.mp hfirst
        exact ⟨d :: before, d', after, k', rfl, processes_cons_iff.mpr ⟨k, hprocessed, hbefore⟩, hfails⟩
    · rintro ⟨before, d', after, k', hsplit, hbefore, hfails⟩
      apply bind_eq_error_iff.mpr
      cases before with
      | nil =>
        obtain ⟨rfl, rfl⟩ := List.cons.inj hsplit
        cases hbefore
        exact .inl (declareAtFuel_eq_error_iff.mpr hfails)
      | cons b bs =>
        obtain ⟨rfl, rfl⟩ := List.cons.inj hsplit
        obtain ⟨k, hfirst, hrest⟩ := processes_cons_iff.mp hbefore
        refine .inr ⟨(), k, declareAtFuel_eq_value_iff.mpr hfirst, ih.mpr ?_⟩
        exact ⟨bs, d', after, k', rfl, hrest, hfails⟩

/-! ### What processing does to the machine -/

/-- Functions become known in order, each over the earlier ones of its name. -/
theorem Processes.functions (h : Processes fuel ds m n) : n.functions = registerAll m.functions ds := by
  induction h with
  | nil m => rfl
  | function _ _ _ ih => exact ih
  | global hinitial _ ih =>
    rw [ih]
    exact congrArg (registerAll · _) ((evalAtFuel_confined_any fuel _).samePlace hinitial).functions

/-- Functions that were processed repeat no parameter. -/
theorem Processes.nodup {f : Function} (h : Processes fuel ds m n) (hf : .function f ∈ ds) :
    f.parameters.Nodup := by
  induction h with
  | nil m => cases hf
  | function _ hnodup _ ih =>
    rcases List.mem_cons.mp hf with heq | hf
    · cases heq
      exact hnodup
    · exact ih hf
  | global _ _ ih =>
    rcases List.mem_cons.mp hf with heq | hf
    · cases heq
    · exact ih hf

/-- Processing definitions leads to no other frame. -/
theorem Processes.current (h : Processes fuel ds m n) :
    n.environment.current = m.environment.current := by
  induction h with
  | nil m => rfl
  | function _ _ _ ih => exact ih
  | @global x e v ds m k n hinitial _ ih =>
    have hdefined : (k.defineGlobal x v).environment.current = k.environment.current := by
      show (k.environment.set _ x v).depth - 1 = k.environment.depth - 1
      rw [Environment.depth_set]
    exact ih.trans (hdefined.trans ((evalAtFuel_confined_any fuel e).samePlace hinitial).current)

/-- A definition that fails makes no function known, and has not missed an entry point. -/
theorem FailsAt.samePlace (h : FailsAt fuel d m reason n) :
    m.SamePlace n ∧ reason ≠ .missingEntryPoint := by
  cases h with
  | unnamed _ _ => exact ⟨.refl m, nofun⟩
  | repeated _ _ _ => exact ⟨.refl m, nofun⟩
  | global hinitial => exact (evalAtFuel_confined_any fuel _).samePlace_of_error hinitial

/-! ### Runs -/

variable {p : Program} {main : Function}

/-- The function at which a program starts is known after its definitions. -/
theorem Program.StartsAt.known (hp : p.StartsAt main) (h : Processes fuel p.definitions m n) :
    n.functions.get? entryName = some main := by
  rw [h.functions, get?_registerAll, (Program.startsAt_iff.mp hp).1, Option.some_or]

/-- A program that can be started finds its entry point among the functions that are known after its
definitions. -/
theorem exists_entry_of_declareAll (hentry : p.hasEntryPoint)
    (h : declareAllAtFuel fuel p.definitions m = .value () n) :
    ∃ main, n.functions.get? entryName = some main ∧ main.parameters = [] := by
  obtain ⟨main, hmain⟩ := Program.hasEntryPoint_iff.mp hentry
  exact ⟨main, hmain.known (declareAllAtFuel_eq_value_iff.mp h), hmain.parameters⟩

/-- The machine at which a run processes the first definition. -/
def Program.entered (p : Program) (m : Machine) : Machine :=
  m.record (.enterMain p.definitions.length)

/-- The end of a run, from the end of the entry point's body. -/
def Outcome.returned : Outcome Value → Outcome Value
  | .value v n => .value v ((n.record (.mainReturned v)).record .exitMain)
  | .error reason n => .error reason (n.record .exitMain)
  | .outOfFuel => .outOfFuel

/-- A program that cannot be started is not. -/
theorem runAtFuel_of_not_startsAt (hp : ¬∃ main, p.StartsAt main) :
    runAtFuel fuel p m = .error .missingEntryPoint ((p.entered m).record .exitMain) := by
  have hentry : ¬ p.hasEntryPoint := fun h => hp (Program.hasEntryPoint_iff.mp h)
  apply within_error
  rw [if_neg hentry, fail_apply]
  rfl

/-- A run ends as its definitions do if they fail, and otherwise as the body of the entry point does. -/
theorem runAtFuel_eq (hp : p.StartsAt main) (fuel : Nat) (m : Machine) :
    runAtFuel fuel p m =
      match declareAllAtFuel fuel p.definitions (p.entered m) with
      | .value _ k => (evalBlockAtFuel fuel main.body k).returned
      | .error reason k => .error reason (k.record .exitMain)
      | .outOfFuel => .outOfFuel := by
  let run : Action Value := do
    declareAllAtFuel fuel p.definitions
    enterProgramAtFuel fuel
  have hentry : p.hasEntryPoint := Program.hasEntryPoint_iff.mpr ⟨main, hp⟩
  have hstarts : runAtFuel fuel p m = within p.entered (·.record .exitMain) run m := by
    unfold runAtFuel
    rw [if_pos hentry]
    rfl
  rw [hstarts]
  cases hdeclare : declareAllAtFuel fuel p.definitions (p.entered m) with
  | value u k =>
    let body : Action Value := do
      let result ← evalBlockAtFuel fuel main.body
      Action.record (.mainReturned result)
      return result
    have hknown := hp.known (declareAllAtFuel_eq_value_iff.mp hdeclare)
    have hrun : run (p.entered m) = body k := by
      refine (bind_value hdeclare).trans ?_
      unfold enterProgramAtFuel
      rw [bind_value (read_apply _ k), hknown]
    show within p.entered _ run m = (evalBlockAtFuel fuel main.body k).returned
    cases hbody : evalBlockAtFuel fuel main.body k with
    | value v n => exact within_value (hrun.trans (bind_value hbody))
    | error reason n => exact within_error (hrun.trans (bind_error hbody))
    | outOfFuel => exact within_outOfFuel (hrun.trans (bind_outOfFuel hbody))
  | error reason k => exact within_error (bind_error hdeclare)
  | outOfFuel => exact within_outOfFuel (bind_outOfFuel hdeclare)

/-- A run that fails in its definitions fails with the error of the first definition that fails. -/
theorem runAtFuel_of_failsAt (hp : p.StartsAt main) (hsplit : p.definitions = before ++ d :: after)
    (hbefore : Processes fuel before (p.entered m) k) (hd : FailsAt fuel d k reason n) :
    runAtFuel fuel p m = .error reason (n.record .exitMain) := by
  rw [runAtFuel_eq hp, declareAllAtFuel_eq_error_iff.mpr ⟨before, d, after, k, hsplit, hbefore, hd⟩]

/-- A run that gets through its definitions ends as the body of the entry point does. -/
theorem runAtFuel_of_processes (hp : p.StartsAt main)
    (h : Processes fuel p.definitions (p.entered m) k) :
    runAtFuel fuel p m = (evalBlockAtFuel fuel main.body k).returned := by
  rw [runAtFuel_eq hp, declareAllAtFuel_eq_value_iff.mpr h]

/-- All the ways in which a run may end. -/
inductive RunEnds (fuel : Nat) (p : Program) (m : Machine) : Outcome Value → Prop where
  | notStarted : (¬∃ main, p.StartsAt main) →
      RunEnds fuel p m (.error .missingEntryPoint ((p.entered m).record .exitMain))
  | failed {main : Function} {before after : List Definition} {d : Definition} {k n : Machine}
      {reason : EvalError} : p.StartsAt main → p.definitions = before ++ d :: after →
        Processes fuel before (p.entered m) k → FailsAt fuel d k reason n →
          RunEnds fuel p m (.error reason (n.record .exitMain))
  | bodyFailed {main : Function} {k n : Machine} {reason : EvalError} :
      p.StartsAt main → Processes fuel p.definitions (p.entered m) k →
        evalBlockAtFuel fuel main.body k = .error reason n →
          RunEnds fuel p m (.error reason (n.record .exitMain))
  | returned {main : Function} {k n : Machine} {v : Value} :
      p.StartsAt main → Processes fuel p.definitions (p.entered m) k →
        evalBlockAtFuel fuel main.body k = .value v n →
          RunEnds fuel p m (.value v ((n.record (.mainReturned v)).record .exitMain))
  | outOfFuel : RunEnds fuel p m .outOfFuel

/-- Every run of a program ends in one of these ways. -/
theorem runEnds (fuel : Nat) (p : Program) (m : Machine) : RunEnds fuel p m (runAtFuel fuel p m) := by
  by_cases hstarts : ∃ main, p.StartsAt main
  · obtain ⟨main, hp⟩ := hstarts
    rw [runAtFuel_eq hp]
    cases hdeclare : declareAllAtFuel fuel p.definitions (p.entered m) with
    | value u k =>
      have hk := declareAllAtFuel_eq_value_iff.mp hdeclare
      show RunEnds fuel p m (evalBlockAtFuel fuel main.body k).returned
      cases hbody : evalBlockAtFuel fuel main.body k with
      | value v n => exact .returned hp hk hbody
      | error reason n => exact .bodyFailed hp hk hbody
      | outOfFuel => exact .outOfFuel
    | error reason n =>
      obtain ⟨before, d, after, k, hsplit, hbefore, hd⟩ := declareAllAtFuel_eq_error_iff.mp hdeclare
      exact .failed hp hsplit hbefore hd
    | outOfFuel => exact .outOfFuel
  · rw [runAtFuel_of_not_startsAt hstarts]
    exact .notStarted hstarts

end Scriptlet
