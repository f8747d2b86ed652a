import Scriptlet.Eval.Program

/-!
# Properties of evaluation

Evaluation is put together from a few steps: reading and assigning variables, looking up the function
that is called, applying operators and printing. A property of actions that these steps have, and
that sequences and calls inherit (`Evaluative`), is one of every evaluation, at any fuel. The induction
on fuel and on trees is done here once.

The names that an expression assigns to stand in its tree and in the bodies of the functions that it
calls. So that a property may depend on them, it is only asked for assignments to names of a given
kind, and of a function that is found it may be used that its body keeps to them as well. The names of
the functions that an expression calls are read off its tree in the same way (`Expr.callees`).

* `Sequential.evalBlock`, `Sequential.evalArguments`, `Sequential.evalLoop`: what evaluates expressions one
  after the other has every property that sequences inherit.
* `Evaluative.evalAtFuel`, `Evaluative.evalBlockAtFuel`: evaluation of trees that keep to the names has
  the property.
-/

namespace Scriptlet

open Scriptlet.Action

/-! ### Assigned names -/

mutual

/-- The names that an expression assigns to. -/
def Expr.targets : Expr → List String
  | .int _ => []
  | .var _ => []
  | .assign x e => x :: e.targets
  | .binary _ l r => l.targets ++ r.targets
  | .block b => Expr.targetsOf b
  | .whileDo e b => e.targets ++ Expr.targetsOf b
  | .ifThen e b => e.targets ++ Expr.targetsOf b
  | .ifElse e b d => e.targets ++ Expr.targetsOf b ++ Expr.targetsOf d
  | .print e => e.targets
  | .call _ a => Expr.targetsOf a

/-- The names that several expressions assign to. -/
def Expr.targetsOf : List Expr → List String
  | [] => []
  | e :: es => e.targets ++ Expr.targetsOf es

end

/-- The names that a definition assigns to, apart from the one that it defines. -/
def Definition.targets : Definition → List String
  | .function f => Expr.targetsOf f.body
  | .global _ e => e.targets

/-- What one of several expressions assigns to, they do. -/
theorem Expr.mem_targetsOf {x : String} {e : Expr} {es : List Expr} (he : e ∈ es)
    (hx : x ∈ e.targets) : x ∈ Expr.targetsOf es := by
  induction es with
  | nil => cases he
  | cons _ _ ih =>
    rcases List.mem_cons.mp he with rfl | he
    · exact List.mem_append_left _ hx
    · exact List.mem_append_right _ (ih he)

/-- The functions that a machine knows assign to names of a kind only. -/
def Machine.AssignsOnly (N : String → Prop) (m : Machine) : Prop :=
  ∀ (name : String) (f : Function), m.functions.get? name = some f →
    ∀ x ∈ Expr.targetsOf f.body, N x

/-! ### Called names -/

mutual

/-- The names of the functions that an expression calls. -/
def Expr.callees : Expr → List String
  | .int _ => []
  | .var _ => []
  | .assign _ e => e.callees
  | .binary _ l r => l.callees ++ r.callees
  | .block b => Expr.calleesOf b
  | .whileDo e b => e.callees ++ Expr.calleesOf b
  | .ifThen e b => e.callees ++ Expr.calleesOf b
  | .ifElse e b d => e.callees ++ Expr.calleesOf b ++ Expr.calleesOf d
  | .print e => e.callees
  | .call f a => f :: Expr.calleesOf a

/-- The names of the functions that several expressions call. -/
def Expr.calleesOf : List Expr → List String
  | [] => []
  | e :: es => e.callees ++ Expr.calleesOf es

end

/-- What one of several expressions calls, they do. -/
theorem Expr.mem_calleesOf {f : String} {e : Expr} {es : List Expr} (he : e ∈ es)
    (hf : f ∈ e.callees) : f ∈ Expr.calleesOf es := by
  induction es with
  | nil => cases he
  | cons _ _ ih =>
    rcases List.mem_cons.mp he with rfl | he
    · exact List.mem_append_left _ hf
    · exact List.mem_append_right _ (ih he)

/-! ### Sequences -/

/-- A property that a sequence of actions has if the actions do. -/
structure Sequential (P : (α : Type) → Action α → Prop) : Prop where
  pure : ∀ {α : Type} (a : α), P α (pure a)
  outOfFuel : ∀ {α : Type}, P α outOfFuel
  bind : ∀ {α β : Type} {p : Action α} {f : α → Action β},
    P α p → (∀ a, P β (f a)) → P β (p >>= f)

namespace Sequential

variable {P : (α : Type) → Action α → Prop} {eval : Expr → Action Value}

/-- A branch has the property if both of its sides do. -/
theorem branch {α : Type} {c : Prop} [Decidable c] {p q : Action α} (hp : P α p) (hq : P α q) :
    P α (if c then p else q) := by
  split
  · exact hp
  · exact hq

variable (hP : Sequential P)

include hP

/-- Expressions one after the other have the property if each of them does. -/
theorem evalFrom (last : Value) {b : Block} (heval : ∀ e ∈ b, P _ (eval e)) :
    P _ (evalFrom eval last b) := by
  induction b generalizing last with
  | nil => exact hP.pure last
  | cons e es ih =>
    obtain ⟨he, hes⟩ := List.forall_mem_cons.mp heval
    exact hP.bind he fun v => ih v hes

/-- Blocks have the property if their expressions do. -/
theorem evalBlock {b : Block} (heval : ∀ e ∈ b, P _ (eval e)) : P _ (evalBlock eval b) :=
  hP.evalFrom 0 heval

/-- Arguments have the property if each of them does. -/
theorem evalArguments {es : List Expr} (heval : ∀ e ∈ es, P _ (eval e)) :
    P _ (evalArguments eval es) := by
  induction es with
  | nil => exact hP.pure []
  | cons e es ih =>
    obtain ⟨he, hes⟩ := List.forall_mem_cons.mp heval
    exact hP.bind he fun v => hP.bind (ih hes) fun vs => hP.pure (v :: vs)

/-- A loop has the property if its expressions do, by induction on its rounds. -/
theorem evalLoop {condition : Expr} {body : Block} (hc : P _ (eval condition))
    (hb : ∀ e ∈ body, P _ (eval e)) (rounds : Nat) : P _ (evalLoop eval condition body rounds) := by
  induction rounds with
  | zero => exact hP.outOfFuel
  | succ rounds ih =>
    apply hP.bind hc
    intro v
    exact branch (hP.pure 1) (hP.bind (hP.evalBlock hb) fun _ => ih)

end Sequential

/-! ### From steps to evaluation -/

/-- The function of a name is given if it is known and takes so many arguments. -/
theorem findFunction_apply (name : String) (given : Nat) (m : Machine) :
    findFunction name given m =
      match m.functions.get? name with
      | none => .error (.undefinedFunction name) m
      | some f =>
        if f.parameters.length = given then .value f m
        else .error (.arityMismatch name f.parameters.length given) m := by
  unfold findFunction
  rw [bind_value (read_apply _ m)]
  cases m.functions.get? name with
  | none => rfl
  | some f =>
    by_cases hlength : f.parameters.length = given
    · simp only [if_pos hlength]
      rfl
    · simp only [if_neg hlength]
      rfl

/-- A property that the steps of an evaluation have if they assign to names of a kind only, and that
what is put together from actions has if the actions do. -/
structure Evaluative (N : String → Prop) (P : (α : Type) → Action α → Prop) : Prop where
  pure : ∀ {α : Type} (a : α), P α (pure a)
  outOfFuel : ∀ {α : Type}, P α outOfFuel
  bind : ∀ {α β : Type} {p : Action α} {f : α → Action β},
    P α p → (∀ a, P β (f a)) → P β (p >>= f)
  readVariable : ∀ name : String, P _ (readVariable name)
  /-- Looking up a function, with what is done if it is found. -/
  findFunction : ∀ {α : Type} {q : Function → Action α} (name : String) (given : Nat),
    (∀ f : Function, (∀ x ∈ Expr.targetsOf f.body, N x) → P α (q f)) →
      P α (findFunction name given >>= q)
  operator : ∀ (op : Operator) (l r : Value), P _ (ofExcept (op.apply l r))
  assign : ∀ (name : String) (v : Value), N name → P _ (change fun m => (m.assign name v).2)
  /-- The assignment that is refused. -/
  emptyTarget : N "" → P Value (fail (.malformed .emptyTarget))
  printValue : ∀ v : Value, P _ (printValue v)
  evaluate : ∀ e : Expr, P _ (record (.evaluate e))
  /-- The reports at the two ends of a call. -/
  withinCall : ∀ {α : Type} {p : Action α} (name : String) (given : Nat),
    P α p → P α (within (·.record (.enterCall name given)) (·.record .exitCall) p)
  /-- The frame of a call. -/
  withinFrame : ∀ {α : Type} {p : Action α} (bindings : List (String × Value)),
    P α p → P α (within (·.enterFrame bindings) (·.leaveFrame) p)

namespace Evaluative

variable {N : String → Prop} {P : (α : Type) → Action α → Prop}

/-- Each of several expressions has the property if together they keep to the names. -/
theorem each {eval : Expr → Action Value} (heval : ∀ e : Expr, (∀ x ∈ e.targets, N x) → P _ (eval e))
    {es : List Expr} (hes : ∀ x ∈ Expr.targetsOf es, N x) : ∀ e ∈ es, P _ (eval e) :=
  fun e he => heval e fun _ hx => hes _ (Expr.mem_targetsOf he hx)

variable (hP : Evaluative N P)

include hP

/-- What the property says of sequences. -/
theorem sequential : Sequential P :=
  ⟨hP.pure, hP.outOfFuel, hP.bind⟩

section nested

variable {eval : Expr → Action Value} (heval : ∀ e : Expr, (∀ x ∈ e.targets, N x) → P _ (eval e))

include heval

/-- A block that keeps to the names has the property. -/
theorem evalBlock {b : Block} (hb : ∀ x ∈ Expr.targetsOf b, N x) : P _ (evalBlock eval b) :=
  hP.sequential.evalBlock (each heval hb)

/-- The body of a call keeps to the names because the function that is found does. -/
theorem evalCall (name : String) {arguments : List Expr}
    (ha : ∀ x ∈ Expr.targetsOf arguments, N x) : P _ (evalCall eval name arguments) := by
  apply hP.withinCall
  apply hP.findFunction name
  intro f hf
  apply hP.bind (hP.sequential.evalArguments (each heval ha))
  intro values
  exact hP.withinFrame _ (hP.evalBlock heval hf)

/-- An expression has the property if its parts do. -/
theorem evalExpr (rounds : Nat) (e : Expr) (he : ∀ x ∈ e.targets, N x) :
    P _ (evalExpr eval rounds e) := by
  cases e with
  | int v => exact hP.pure v
  | var x => exact hP.readVariable x
  | assign x e =>
    obtain ⟨hx, he⟩ := List.forall_mem_cons.mp he
    rw [Scriptlet.evalExpr]
    split
    case isTrue hempty => exact hP.emptyTarget (hempty ▸ hx)
    case isFalse => exact hP.bind (heval e he) fun v => hP.bind (hP.assign x v hx) fun _ => hP.pure v
  | binary op l r =>
    obtain ⟨hl, hr⟩ := List.forall_mem_append.mp he
    exact hP.bind (heval l hl) fun v => hP.bind (heval r hr) fun w => hP.operator op v w
  | block b => exact hP.evalBlock heval he
  | whileDo c b =>
    obtain ⟨hc, hb⟩ := List.forall_mem_append.mp he
    exact hP.sequential.evalLoop (heval c hc) (each heval hb) rounds
  | ifThen c b =>
    obtain ⟨hc, hb⟩ := List.forall_mem_append.mp he
    exact hP.bind (heval c hc) fun v => Sequential.branch (hP.pure 1) (hP.evalBlock heval hb)
  | ifElse c b d =>
    obtain ⟨hcb, hd⟩ := List.forall_mem_append.mp he
    obtain ⟨hc, hb⟩ := List.forall_mem_append.mp hcb
    exact hP.bind (heval c hc) fun v => Sequential.branch (hP.evalBlock heval hd) (hP.evalBlock heval hb)
  | print e => exact hP.bind (heval e he) fun v => hP.bind (hP.printValue v) fun _ => hP.pure v
  | call f arguments => exact hP.evalCall heval f he

end nested

/-- An expression that keeps to the names has it at any fuel. -/
theorem evalAtFuel (fuel : Nat) (e : Expr) (he : ∀ x ∈ e.targets, N x) :
    P _ (evalAtFuel fuel e) := by
  induction fuel generalizing e with
  | zero => exact hP.outOfFuel
  | succ fuel ih => exact hP.bind (hP.evaluate e) fun _ => hP.evalExpr ih fuel e he

/-- A block that keeps to the names has it at any fuel. -/
theorem evalBlockAtFuel (fuel : Nat) {b : Block} (hb : ∀ x ∈ Expr.targetsOf b, N x) :
    P _ (evalBlockAtFuel fuel b) :=
  hP.evalBlock (hP.evalAtFuel fuel) hb

end Evaluative

end Scriptlet
