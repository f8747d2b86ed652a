import Scriptlet.Eval.Arithmetic
import Scriptlet.Eval.Machine

/-!
# Evaluation

The value of an expression and what its evaluation does to the machine. Expressions nest and
functions call each other, so evaluation is written first over any evaluator `eval` of the nested
expressions; `evalAtFuel` then follows nesting, calls and loops as far as its fuel reaches.
-/

namespace Scriptlet

/-! ### Steps -/

/-- Reports an event. -/
def Action.record (event : Event) : Action Unit :=
  .change fun m => m.record event

/-- The value of a variable. -/
def readVariable (name : String) : Action Value := do
  match ← Action.read fun m => m.valueOf? name with
  | some v => return v
  | none => .fail (.unboundVariable name)

/-- Prints the decimal text of a value. -/
def printValue (v : Value) : Action Unit := fun m =>
  match m.sink.print (Value.text v) with
  | (none, sink) => .value () { m with sink }
  | (some reason, sink) => .error (.output reason) { m with sink }

/-- The function of a name, which is to take a given number of arguments. -/
def findFunction (name : String) (given : Nat) : Action Function := do
  match ← Action.read fun m => m.functions.get? name with
  | none => .fail (.undefinedFunction name)
  | some f =>
    if f.parameters.length = given then return f
    else .fail (.arityMismatch name f.parameters.length given)

/-! ### Expressions over the evaluator of nested expressions -/

section nested

variable (eval : Expr → Action Value)

/-- Evaluates expressions one after the other and gives the value of the last one, or `last` if
there is none. -/
def evalFrom (last : Value) : Block → Action Value
  | [] => pure last
  | e :: es => do
    let v ← eval e
    evalFrom v es

/-- The value of a block. An empty one has the value zero. -/
def evalBlock (b : Block) : Action Value :=
  evalFrom eval 0 b

/-- The values of arguments, from left to right. -/
def evalArguments : List Expr → Action (List Value)
  | [] => pure []
  | e :: es => do
    let v ← eval e
    let vs ← evalArguments es
    return v :: vs

/-- Repeats a body while a condition is not zero, for fewer than `rounds` rounds. A loop that ends
has the value one. -/
def evalLoop (condition : Expr) (body : Block) : Nat → Action Value
  | 0 => .outOfFuel
  | rounds + 1 => do
    let v ← eval condition
    if v = 0 then return 1
    else
      let _ ← evalBlock eval body
      evalLoop condition body rounds

/-- Calls a function. The function is looked up before its arguments are evaluated; these see the
variables of the caller. -/
def evalCall (name : String) (arguments : List Expr) : Action Value :=
  .within (·.record (.enterCall name arguments.length)) (·.record .exitCall) do
    let f ← findFunction name arguments.length
    let values ← evalArguments eval arguments
    .within (·.enterFrame (f.parameters.zip values)) (·.leaveFrame) (evalBlock eval f.body)

/-- The value of an expression, with a bound on the rounds of a loop. -/
def evalExpr (rounds : Nat) : Expr → Action Value
  | .int v => pure v
  | .var x => readVariable x
  | .assign x e =>
    if x = "" then .fail (.malformed .emptyTarget)
    else do
      let v ← eval e
      .change fun m => (m.assign x v).2
      return v
  | .binary op l r => do
    let v ← eval l
    let w ← eval r
    .ofExcept (op.apply v w)
  | .block b => evalBlock eval b
  | .whileDo c b => evalLoop eval c b rounds
  | .ifThen c b => do
    let v ← eval c
    if v = 0 then return 1 else evalBlock eval b
  | .ifElse c b d => do
    let v ← eval c
    if v = 0 then evalBlock eval d else evalBlock eval b
  | .print e => do
    let v ← eval e
    printValue v
    return v
  | .call f arguments => evalCall eval f arguments

end nested

/-! ### Evaluation at a given fuel -/

/-- The value of an expression. Fuel bounds the nesting of expressions and calls and the rounds of
each loop. -/
def evalAtFuel : Nat → Expr → Action Value
  | 0, _ => .outOfFuel
  | fuel + 1, e => do
    Action.record (.evaluate e)
    evalExpr (evalAtFuel fuel) fuel e

/-- The value of a block. -/
def evalBlockAtFuel (fuel : Nat) (b : Block) : Action Value :=
  evalBlock (evalAtFuel fuel) b

/-- No fuel gives no result. -/
theorem evalAtFuel_zero (e : Expr) : evalAtFuel 0 e = Action.outOfFuel := rfl

/-- An evaluation is reported before it does anything. -/
theorem evalAtFuel_succ (fuel : Nat) (e : Expr) (m : Machine) :
    evalAtFuel (fuel + 1) e m = evalExpr (evalAtFuel fuel) fuel e (m.record (.evaluate e)) := rfl

end Scriptlet
