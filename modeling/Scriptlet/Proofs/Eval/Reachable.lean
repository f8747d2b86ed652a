import Scriptlet.Proofs.Eval.Discipline

/-!
# The frames of a session

A session reaches machines by serving requests, and, while it serves one, by what is evaluated before
a nested evaluation starts and by entering calls (`Machine.Reachable`). The frames of all of them are
in order:

* `Machine.Reachable.rooted_and_depth`: there is one frame for each pending call, and the global one.
* `evalExpr_congr`: evaluation starts at such machines only, so that none is left out.
* `frame_discipline`: what is evaluated at such a machine keeps its frames and functions.
-/

namespace Scriptlet

open Scriptlet.Action

/-! ### Sessions and pending calls -/

/-- A machine that a session reaches while a number of calls are pending: between two requests, and,
while a request is served, wherever the evaluation of an expression may start. -/
inductive Machine.Reachable : Nat → Machine → Prop where
  | fresh (sink : Sink) (journal : Journal) : Reachable 0 (.fresh sink journal)
  /-- A request was served, with a result or an error. -/
  | served {fuel : Nat} {request : Request} {answer : Answer} {m n : Machine} :
      Reachable 0 m → serve fuel request m = some (answer, n) → Reachable 0 n
  /-- A definition of a program was processed. -/
  | declared {fuel : Nat} {d : Definition} {m n : Machine} :
      Reachable 0 m → (declareAtFuel fuel d m).state? = some n → Reachable 0 n
  /-- A part of what is being evaluated was evaluated. -/
  | evaluated {k fuel : Nat} {e : Expr} {m n : Machine} :
      Reachable k m → (evalAtFuel fuel e m).state? = some n → Reachable k n
  | recorded {k : Nat} {m : Machine} (event : Event) : Reachable k m → Reachable k (m.record event)
  /-- A function that is known was called with as many values as it has parameters. -/
  | called {k : Nat} {name : String} {f : Function} {values : List Value} {m : Machine} :
      Reachable k m → m.functions.get? name = some f → f.parameters.length = values.length →
        Reachable (k + 1) (m.enterFrame (f.parameters.zip values))

namespace Machine.Reachable

variable {k : Nat} {m : Machine}

/-- There is a frame for each pending call, and the global one. -/
theorem rooted_and_depth (h : m.Reachable k) :
    m.environment.Rooted ∧ m.environment.depth = k + 1 := by
  induction h with
  | fresh sink journal => exact ⟨Environment.rooted_initial, rfl⟩
  | served _ hserve ih =>
    have hsame := serve_sameFrames ih.1 hserve
    exact ⟨hsame.rooted ih.1, hsame.depth.trans ih.2⟩
  | declared _ hstate ih =>
    have hsame := declareAtFuel_keeps _ _ _ ih.1 _ hstate
    exact ⟨hsame.rooted ih.1, hsame.depth.trans ih.2⟩
  | evaluated _ hstate ih =>
    have hkept := evalAtFuel_keeps _ _ _ ih.1 _ hstate
    exact ⟨hkept.rooted ih.1, hkept.environment.depth.trans ih.2⟩
  | recorded event _ ih => exact ih
  | called _ _ _ ih =>
    rw [Machine.environment_enterFrame]
    refine ⟨Environment.rooted_enter ih.1 _, ?_⟩
    rw [Environment.depth_enter, ih.2]

end Machine.Reachable

/-! ### Where evaluation starts -/

namespace Action

variable {α β : Type} {k : Nat}

/-- Two actions do the same at every machine that is reached while `k` calls are pending. -/
def AgreeAt (k : Nat) (p q : Action α) : Prop :=
  ∀ m : Machine, m.Reachable k → p m = q m

/-- An action that has a value leads from reached machines to reached machines. -/
def Reaches (k : Nat) (p : Action α) : Prop :=
  ∀ (m n : Machine) (a : α), m.Reachable k → p m = .value a n → n.Reachable k

/-- A sequence leads on if its parts do. -/
theorem Reaches.bind {p : Action α} {f : α → Action β} (hp : Reaches k p)
    (hf : ∀ a, Reaches k (f a)) : Reaches k (p >>= f) := by
  intro m n b hm hn
  cases h : p m with
  | value a l =>
    rw [bind_value h] at hn
    exact hf a l n b (hp m l a hm h) hn
  | error reason l => rw [bind_error h] at hn; cases hn
  | outOfFuel => rw [bind_outOfFuel h] at hn; cases hn

/-- A value is given at the machine that was reached. -/
theorem Reaches.pure (a : α) : Reaches k (pure a : Action α) := by
  intro m n b hm hn
  cases hn
  exact hm

/-- An action that has no value leads nowhere. -/
theorem Reaches.outOfFuel : Reaches k (outOfFuel : Action α) :=
  fun _ _ _ _ h => nomatch h

/-- Leading from reached machines to reached machines is a property that sequences inherit. -/
theorem Reaches.sequential (k : Nat) : Sequential fun _ => Reaches k :=
  ⟨.pure, .outOfFuel, .bind⟩

/-- An action does what it does itself. -/
theorem AgreeAt.refl (p : Action α) : AgreeAt k p p :=
  fun _ _ => rfl

/-- Sequences agree if their parts do and the first part leads to where the second ones agree. -/
theorem AgreeAt.bind {p q : Action α} {f g : α → Action β} (h : AgreeAt k p q) (hq : Reaches k q)
    (hfg : ∀ a, AgreeAt k (f a) (g a)) : AgreeAt k (p >>= f) (q >>= g) := by
  intro m hm
  have heq := h m hm
  cases hout : q m with
  | value a n => rw [bind_value hout, bind_value (heq.trans hout), hfg a n (hq m n a hm hout)]
  | error reason n => rw [bind_error hout, bind_error (heq.trans hout)]
  | outOfFuel => rw [bind_outOfFuel hout, bind_outOfFuel (heq.trans hout)]

/-- A choice does the same if its alternatives do. -/
theorem AgreeAt.ite {c : Prop} [Decidable c] {p q p' q' : Action α} (h : AgreeAt k p q)
    (h' : AgreeAt k p' q') : AgreeAt k (if c then p else p') (if c then q else q') := by
  split
  · exact h
  · exact h'

/-- An action after a change of the machine is looked at there only. -/
theorem within_congr {enter leave : Machine → Machine} {p q : Action α} {m : Machine}
    (h : p (enter m) = q (enter m)) : within enter leave p m = within enter leave q m := by
  unfold within
  rw [h]

end Action

/-- A function that is found is known and takes the given number of arguments. -/
theorem findFunction_value {name : String} {given : Nat} {m n : Machine} {f : Function}
    (h : findFunction name given m = .value f n) :
    m = n ∧ m.functions.get? name = some f ∧ f.parameters.length = given := by
  rw [findFunction_apply] at h
  cases hget : m.functions.get? name with
  | none =>
    rw [hget] at h
    cases h
  | some g =>
    rw [hget] at h
    dsimp only at h
    split at h
    case isTrue hlength =>
      cases h
      exact ⟨rfl, rfl, hlength⟩
    case isFalse => cases h

/-- There are as many values as arguments. -/
theorem evalArguments_length {eval : Expr → Action Value} {es : List Expr} {m n : Machine}
    {vs : List Value} (h : evalArguments eval es m = .value vs n) : vs.length = es.length := by
  induction es generalizing m n vs with
  | nil =>
    cases h
    rfl
  | cons e es ih =>
    unfold evalArguments at h
    cases he : eval e m with
    | error reason k => rw [bind_error he] at h; cases h
    | outOfFuel => rw [bind_outOfFuel he] at h; cases h
    | value v k =>
      rw [bind_value he] at h
      cases hes : evalArguments eval es k with
      | error reason l => rw [bind_error hes] at h; cases h
      | outOfFuel => rw [bind_outOfFuel hes] at h; cases h
      | value ws l =>
        rw [bind_value hes] at h
        cases h
        rw [List.length_cons, List.length_cons, ih hes]

section nested

variable {eval : Expr → Action Value} {fuel k : Nat}

/-- Evaluation leads from reached machines to reached machines. -/
theorem evalAtFuel_reaches (e : Expr) : Reaches k (evalAtFuel fuel e) :=
  fun m n v hm hn => .evaluated hm (by rw [hn]; rfl)

/-- Expressions one after the other lead from reached machines to reached machines. -/
theorem evalFrom_reaches (last : Value) (b : Block) :
    Reaches k (evalFrom (evalAtFuel fuel) last b) :=
  (Reaches.sequential k).evalFrom last fun e _ => evalAtFuel_reaches e

/-- Arguments lead from reached machines to reached machines. -/
theorem evalArguments_reaches (es : List Expr) :
    Reaches k (evalArguments (evalAtFuel fuel) es) :=
  (Reaches.sequential k).evalArguments fun e _ => evalAtFuel_reaches e

variable (h : ∀ (k : Nat) (e : Expr), AgreeAt k (eval e) (evalAtFuel fuel e))

include h

/-- Expressions one after the other start at reached machines only. -/
theorem evalFrom_congr (last : Value) (b : Block) :
    AgreeAt k (evalFrom eval last b) (evalFrom (evalAtFuel fuel) last b) := by
  induction b generalizing last with
  | nil => exact .refl _
  | cons e es ih => exact (h k e).bind (evalAtFuel_reaches e) fun v => ih v

/-- Arguments start at reached machines only. -/
theorem evalArguments_congr (es : List Expr) :
    AgreeAt k (evalArguments eval es) (evalArguments (evalAtFuel fuel) es) := by
  induction es with
  | nil => exact .refl _
  | cons e es ih =>
    refine (h k e).bind (evalAtFuel_reaches e) fun v => ?_
    exact ih.bind (evalArguments_reaches es) fun vs => .refl _

/-- The condition and the body of a loop start at reached machines only, in each round. -/
theorem evalLoop_congr (condition : Expr) (body : Block) (rounds : Nat) :
    AgreeAt k (evalLoop eval condition body rounds)
      (evalLoop (evalAtFuel fuel) condition body rounds) := by
  induction rounds with
  | zero => exact .refl _
  | succ rounds ih =>
    refine (h k condition).bind (evalAtFuel_reaches condition) fun v => ?_
    exact .ite (.refl _) ((evalFrom_congr h 0 body).bind (evalFrom_reaches 0 body) fun _ => ih)

/-- The body of a call starts at a machine that is reached while one more call is pending. -/
theorem evalCall_congr (name : String) (arguments : List Expr) :
    AgreeAt k (evalCall eval name arguments) (evalCall (evalAtFuel fuel) name arguments) := by
  intro m hm
  refine within_congr ?_
  have hrecorded : (m.record (.enterCall name arguments.length)).Reachable k := .recorded _ hm
  cases hf : findFunction name arguments.length (m.record (.enterCall name arguments.length)) with
  | error reason n => rw [bind_error hf, bind_error hf]
  | outOfFuel => rw [bind_outOfFuel hf, bind_outOfFuel hf]
  | value f n =>
    obtain ⟨rfl, hknown, hlength⟩ := findFunction_value hf
    have hargs := evalArguments_congr h arguments _ hrecorded
    rw [bind_value hf, bind_value hf]
    cases hvalues : evalArguments (evalAtFuel fuel) arguments
        (m.record (.enterCall name arguments.length)) with
    | error reason n => rw [bind_error hvalues, bind_error (hargs.trans hvalues)]
    | outOfFuel => rw [bind_outOfFuel hvalues, bind_outOfFuel (hargs.trans hvalues)]
    | value values n =>
      rw [bind_value hvalues, bind_value (hargs.trans hvalues)]
      have hrooted := hrecorded.rooted_and_depth.1
      have hkept := evalArgumentsAtFuel_keeps fuel arguments _ hrooted n
        (by rw [hvalues]; rfl)
      have hn : n.Reachable k := evalArguments_reaches arguments _ n values hrecorded hvalues
      have hcalled : (n.enterFrame (f.parameters.zip values)).Reachable (k + 1) := by
        refine .called hn (?_ : n.functions.get? name = some f) ?_
        · rw [hkept.functions]
          exact hknown
        · rw [hlength, evalArguments_length hvalues]
      exact within_congr (evalFrom_congr h 0 f.body _ hcalled)

/-- Evaluation at a reached machine evaluates what is nested at reached machines only: an evaluator
that is right there leads to the same outcome. -/
theorem evalExpr_congr (rounds : Nat) (e : Expr) :
    AgreeAt k (evalExpr eval rounds e) (evalExpr (evalAtFuel fuel) rounds e) := by
  cases e with
  | int v => exact .refl _
  | var x => exact .refl _
  | assign x e =>
    exact .ite (.refl _) ((h k e).bind (evalAtFuel_reaches e) fun v => .refl _)
  | binary op l r =>
    refine (h k l).bind (evalAtFuel_reaches l) fun v => ?_
    exact (h k r).bind (evalAtFuel_reaches r) fun w => .refl _
  | block b => exact evalFrom_congr h 0 b
  | whileDo c b => exact evalLoop_congr h c b rounds
  | ifThen c b =>
    exact (h k c).bind (evalAtFuel_reaches c) fun v => .ite (.refl _) (evalFrom_congr h 0 b)
  | ifElse c b d =>
    refine (h k c).bind (evalAtFuel_reaches c) fun v => ?_
    exact .ite (evalFrom_congr h 0 d) (evalFrom_congr h 0 b)
  | print e => exact (h k e).bind (evalAtFuel_reaches e) fun v => .refl _
  | call f arguments => exact evalCall_congr h f arguments

end nested

/-! ### The discipline -/

/-- Requests at a machine between two requests lead to such a machine again, and each of them leaves
the global frame alone on the stack. -/
theorem serveAll_reachable {fuel : Nat} {requests : List Request} {exchanges : List Exchange}
    {m last : Machine} (hm : m.Reachable 0) (h : serveAll fuel requests m = some (exchanges, last)) :
    last.Reachable 0 ∧ ∀ x ∈ exchanges, x.depth = 1 := by
  induction requests generalizing m exchanges with
  | nil =>
    cases h
    exact ⟨hm, nofun⟩
  | cons request requests ih =>
    obtain ⟨⟨answer, after⟩, hserve, h⟩ := Option.bind_eq_some_iff.mp h
    obtain ⟨⟨rest, final⟩, hrest, h⟩ := Option.bind_eq_some_iff.mp h
    cases h
    have hafter : after.Reachable 0 := .served hm hserve
    obtain ⟨hlast, hdepth⟩ := ih hafter hrest
    exact ⟨hlast, List.forall_mem_cons.mpr ⟨hafter.rooted_and_depth.2, hdepth⟩⟩

/-- At every machine that a session reaches while `k` calls are pending there are `k + 1` frames, and
whatever is evaluated there keeps the frames and functions, whether it has a value or an error. Any
further requests between which no call is pending leave one frame. -/
theorem frame_discipline {k : Nat} {m : Machine} (h : m.Reachable k) :
    m.environment.depth = k + 1 ∧
    (∀ fuel e n, (evalAtFuel fuel e m).state? = some n → m.Kept n) ∧
    (∀ fuel b n, (evalBlockAtFuel fuel b m).state? = some n → m.Kept n) ∧
    ∀ fuel requests exchanges last, k = 0 →
      serveAll fuel requests m = some (exchanges, last) →
        last.Reachable 0 ∧ ∀ x ∈ exchanges, x.depth = 1 := by
  obtain ⟨hrooted, hdepth⟩ := h.rooted_and_depth
  refine ⟨hdepth, fun fuel e n hn => ?_, fun fuel b n hn => ?_, ?_⟩
  · exact evalAtFuel_keeps fuel e m hrooted n hn
  · exact evalBlockAtFuel_keeps fuel b m hrooted n hn
  · rintro fuel requests exchanges last rfl hserve
    exact serveAll_reachable h hserve

/-- In a call of a function, an assignment keeps the frames of the caller. -/
theorem frame_discipline_in_call :
    ∃ m n : Machine, m.Reachable 1 ∧ m.environment.depth = 2 ∧
      (evalAtFuel 3 (.assign "x" (.var "n")) m).state? = some n ∧ m.Kept n := by
  let f : Function := ⟨"f", ["n"], [.var "n"]⟩
  have hdeclared : ((Machine.fresh .unlimited .silent).register f).Reachable 0 :=
    .declared (.fresh .unlimited .silent) (rfl : (declareAtFuel 0 (.function f) _).state? = _)
  have hknown : ((Machine.fresh .unlimited .silent).register f).functions.get? "f" = some f := rfl
  have hlength : f.parameters.length = [(5 : Value)].length := rfl
  have hcalled := Machine.Reachable.called hdeclared hknown hlength
  obtain ⟨hdepth, hkept, -⟩ := frame_discipline hcalled
  exact ⟨_, _, hcalled, hdepth, rfl, hkept 3 (.assign "x" (.var "n")) _ rfl⟩

end Scriptlet
