import Scriptlet.Eval.Program

/-!
# More fuel

An action that ends does not end otherwise if it is given more fuel: fuel decides whether a run ends,
and never how. Evaluation passes fuel on to nested expressions, calls and loops only, so that this is
one induction on fuel (`evalAtFuel_below`), over the statement that an expression ends as it did if the
evaluator of what is nested does.

* `runAtFuel_below`: a run that ends is the run at any greater fuel.
* `runAtFuel_unique`: two runs that end are the same.
-/

namespace Scriptlet

namespace Action

variable {α β : Type} {p q : Action α}

/-- Wherever the first action ends, the second one ends alike. -/
def Below (p q : Action α) : Prop :=
  ∀ m : Machine, p m ≠ .outOfFuel → q m = p m

namespace Below

/-- An action ends as it does itself. -/
theorem refl (p : Action α) : Below p p :=
  fun _ _ => rfl

/-- What does not end is below every action. -/
theorem outOfFuel (q : Action α) : Below outOfFuel q :=
  fun _ hm => absurd rfl hm

/-- A sequence that ends has parts that end. -/
theorem bind {f g : α → Action β} (h : Below p q) (hf : ∀ a, Below (f a) (g a)) :
    Below (p >>= f) (q >>= g) := by
  intro m hm
  cases hp : p m with
  | value a n =>
    have hq : q m = .value a n := by
      rw [h m (by rw [hp]; nofun), hp]
    rw [bind_value hp] at hm
    rw [bind_value hp, bind_value hq]
    exact hf a n hm
  | error reason n =>
    have hq : q m = .error reason n := by
      rw [h m (by rw [hp]; nofun), hp]
    rw [bind_error hp, bind_error hq]
  | outOfFuel => exact absurd (bind_outOfFuel hp) hm

/-- What surrounds an action keeps the order. -/
theorem within (h : Below p q) (enter leave : Machine → Machine) :
    Below (within enter leave p) (within enter leave q) := by
  intro m hm
  have hends : p (enter m) ≠ .outOfFuel := fun hp => hm (within_outOfFuel hp)
  unfold Action.within
  rw [h (enter m) hends]

/-- Branches that are taken alike. -/
theorem ite {c : Prop} [Decidable c] {p' q' : Action α} (h : Below p q) (h' : Below p' q') :
    Below (if c then p else p') (if c then q else q') := by
  by_cases hc : c
  · rw [if_pos hc, if_pos hc]
    exact h
  · rw [if_neg hc, if_neg hc]
    exact h'

end Below

end Action

open Scriptlet.Action

section nested

variable {eval eval' : Expr → Action Value} (he : ∀ e, Below (eval e) (eval' e))

include he

/-- Expressions one after the other are in the order that each of them is in. -/
theorem evalFrom_below (last : Value) (b : Block) :
    Below (evalFrom eval last b) (evalFrom eval' last b) := by
  induction b generalizing last with
  | nil => exact .refl _
  | cons e es ih => exact (he e).bind fun v => ih v

/-- Blocks are in the order that their expressions are in. -/
theorem evalBlock_below (b : Block) : Below (evalBlock eval b) (evalBlock eval' b) :=
  evalFrom_below he 0 b

/-- Arguments are in the order that each of them is in. -/
theorem evalArguments_below (es : List Expr) :
    Below (evalArguments eval es) (evalArguments eval' es) := by
  induction es with
  | nil => exact .refl _
  | cons e es ih => exact (he e).bind fun v => ih.bind fun vs => .refl _

/-- Loops are in the order that their expressions are in, also if the second one has more rounds. -/
theorem evalLoop_below (condition : Expr) (body : Block) {rounds rounds' : Nat}
    (h : rounds ≤ rounds') :
    Below (evalLoop eval condition body rounds) (evalLoop eval' condition body rounds') := by
  induction rounds generalizing rounds' with
  | zero => exact .outOfFuel _
  | succ rounds ih =>
    obtain ⟨more, rfl⟩ : ∃ more, rounds' = more + 1 := ⟨rounds' - 1, by omega⟩
    have hrest := ih (Nat.le_of_succ_le_succ h)
    exact (he condition).bind fun v =>
      .ite (.refl _) ((evalBlock_below he body).bind fun _ => hrest)

/-- Calls are in the order that their arguments and the bodies of functions are in. -/
theorem evalCall_below (name : String) (arguments : List Expr) :
    Below (evalCall eval name arguments) (evalCall eval' name arguments) := by
  refine Below.within ?_ _ _
  refine (Below.refl _).bind fun f => ?_
  refine (evalArguments_below he arguments).bind fun values => ?_
  exact (evalBlock_below he f.body).within _ _

/-- An expression that ends ends as it did if its parts do. -/
theorem evalExpr_below {rounds rounds' : Nat} (h : rounds ≤ rounds') (e : Expr) :
    Below (evalExpr eval rounds e) (evalExpr eval' rounds' e) := by
  cases e with
  | int v => exact .refl _
  | var x => exact .refl _
  | assign x e => exact .ite (.refl _) ((he e).bind fun v => .refl _)
  | binary op l r => exact (he l).bind fun v => (he r).bind fun w => .refl _
  | block b => exact evalBlock_below he b
  | whileDo c b => exact evalLoop_below he c b h
  | ifThen c b => exact (he c).bind fun v => .ite (.refl _) (evalBlock_below he b)
  | ifElse c b d =>
    exact (he c).bind fun v => .ite (evalBlock_below he d) (evalBlock_below he b)
  | print e => exact (he e).bind fun v => .refl _
  | call f arguments => exact evalCall_below he f arguments

end nested

variable {fuel fuel' : Nat}

/-- An evaluation that ends ends alike at any greater fuel. -/
theorem evalAtFuel_below (h : fuel ≤ fuel') (e : Expr) :
    Below (evalAtFuel fuel e) (evalAtFuel fuel' e) := by
  induction fuel generalizing fuel' e with
  | zero => exact .outOfFuel _
  | succ fuel ih =>
    obtain ⟨more, rfl⟩ : ∃ more, fuel' = more + 1 := ⟨fuel' - 1, by omega⟩
    have hle : fuel ≤ more := Nat.le_of_succ_le_succ h
    exact (Below.refl _).bind fun _ => evalExpr_below (fun e => ih hle e) hle e

/-- Blocks end alike with more fuel. -/
theorem evalBlockAtFuel_below (h : fuel ≤ fuel') (b : Block) :
    Below (evalBlockAtFuel fuel b) (evalBlockAtFuel fuel' b) :=
  evalBlock_below (evalAtFuel_below h) b

/-- A definition ends alike with more fuel. -/
theorem declareAtFuel_below (h : fuel ≤ fuel') (d : Definition) :
    Below (declareAtFuel fuel d) (declareAtFuel fuel' d) := by
  cases d with
  | function f => exact .refl _
  | global x e => exact (evalAtFuel_below h e).bind fun v => .refl _

/-- Definitions in order end alike with more fuel. -/
theorem declareAllAtFuel_below (h : fuel ≤ fuel') (ds : List Definition) :
    Below (declareAllAtFuel fuel ds) (declareAllAtFuel fuel' ds) := by
  induction ds with
  | nil => exact .refl _
  | cons d ds ih => exact (declareAtFuel_below h d).bind fun _ => ih

/-- The entry point ends alike with more fuel. -/
theorem enterProgramAtFuel_below (h : fuel ≤ fuel') :
    Below (enterProgramAtFuel fuel) (enterProgramAtFuel fuel') := by
  refine (Below.refl _).bind fun found => ?_
  cases found with
  | none => exact .refl _
  | some main => exact (evalBlockAtFuel_below h main.body).bind fun v => .refl _

/-- A run that ends is the run at any greater fuel. -/
theorem runAtFuel_below (h : fuel ≤ fuel') (p : Program) :
    Below (runAtFuel fuel p) (runAtFuel fuel' p) := by
  refine Below.within (.ite ?_ (.refl _)) _ _
  exact (declareAllAtFuel_below h p.definitions).bind fun _ => enterProgramAtFuel_below h

/-- Two runs of a program that end are the same, whatever their fuel. -/
theorem runAtFuel_unique {p : Program} {m : Machine} (h : runAtFuel fuel p m ≠ .outOfFuel)
    (h' : runAtFuel fuel' p m ≠ .outOfFuel) : runAtFuel fuel p m = runAtFuel fuel' p m := by
  rcases Nat.le_total fuel fuel' with hle | hle
  · exact (runAtFuel_below hle p m h).symm
  · exact runAtFuel_below hle p m h'

end Scriptlet
