import Scriptlet.Eval.Program

/-!
# Evaluation over the integers

What a program does if numbers have no bounds. Variables hold integers of any size, sums, differences
and products are exact, quotients are rounded toward zero, and only a zero divisor makes an operator
fail. Frames are those of the language over another type of values (`Environment Int`). Control flow,
calls, output, the order of definitions and all other errors are those of the language, and fuel bounds
the same nesting and the same rounds, so that this is the evaluation that the one with values of 64 bits
is to be compared with.

A run keeps a list of the expressions that it has come to and of the operators that it has applied
(`Step`), also when it fails or runs out of fuel.
-/

namespace Scriptlet.Ideal

/-! ### Runs -/

/-- What a run reads and changes. -/
structure State where
  environment : Environment Int
  functions : Table Function
  sink : Sink
  deriving DecidableEq, Repr, Inhabited

namespace State

/-- Before a run, no variable and no function is known. -/
def fresh (sink : Sink) : State := ⟨.initial, .empty, sink⟩

/-- Gives an integer to a variable, as the current frame sees it. -/
def assign (s : State) (name : String) (value : Int) : State :=
  { s with environment := (s.environment.assign s.environment.current name value).2 }

/-- Defines a global variable. -/
def defineGlobal (s : State) (name : String) (value : Int) : State :=
  { s with environment := s.environment.set Environment.global name value }

/-- Makes a function known. One of the same name is forgotten. -/
def register (s : State) (f : Function) : State :=
  { s with functions := s.functions.insert f.name f }

/-- Enters the frame of a call, which sees its parameters and the global variables. -/
def enterFrame (s : State) (bindings : List (String × Int)) : State :=
  let pushed := s.environment.push Environment.global
  { s with environment := pushed.setAll pushed.current bindings }

/-- Leaves the frame of a call. -/
def leaveFrame (s : State) : State :=
  { s with environment := s.environment.pop }

end State

/-- What a run does: it comes to an expression, or applies an operator to two integers, when the sink
holds what has been printed so far. -/
inductive Step where
  | evaluate (expr : Expr)
  | apply (op : Operator) (left right : Int) (sink : Sink)
  deriving DecidableEq, Repr, Inhabited

/-- The expression that a run comes to. -/
def Step.expression? : Step → Option Expr
  | .evaluate e => some e
  | .apply _ _ _ _ => none

/-- The expressions that a run comes to, in order. -/
def evaluated (steps : List Step) : List Expr :=
  steps.filterMap Step.expression?

/-- Why a run ends without an integer. -/
inductive Stop where
  | error (reason : EvalError)
  | outOfFuel
  deriving DecidableEq, Repr, Inhabited

/-- What came of a run: how it ended, in which state, and what it did, the first step first. -/
structure Trace (α : Type) where
  ending : Except Stop α
  state : State
  steps : List Step

/-- A part of a run. -/
def Run (α : Type) : Type := State → Trace α

namespace Run

variable {α β : Type}

/-- The steps of a sequence are those of its parts, one after the other. -/
instance : Monad Run where
  pure a := fun s => ⟨.ok a, s, []⟩
  bind p f := fun s =>
    match p s with
    | ⟨.ok a, t, steps⟩ =>
      let rest := f a t
      { rest with steps := steps ++ rest.steps }
    | ⟨.error stop, t, steps⟩ => ⟨.error stop, t, steps⟩

/-- Ends the run. -/
def stop (reason : Stop) : Run α := fun s => ⟨.error reason, s, []⟩

/-- Gives a part of the state. -/
def read (f : State → α) : Run α := fun s => ⟨.ok (f s), s, []⟩

/-- Changes the state. -/
def change (f : State → State) : Run Unit := fun s => ⟨.ok (), f s, []⟩

/-- Does a step. -/
def note (step : State → Step) : Run Unit := fun s => ⟨.ok (), s, [step s]⟩

/-- Surrounds a part of a run by two changes. The second one is made on every way out. -/
def within (enter leave : State → State) (p : Run α) : Run α := fun s =>
  let trace := p (enter s)
  { trace with state := leave trace.state }

end Run

open Run

/-! ### Expressions -/

/-- Applies an operator to two integers. -/
def applyOperator (op : Operator) (l r : Int) : Run Int := do
  note fun s => .apply op l r s.sink
  if op = .divide ∧ r = 0 then stop (.error .divisionByZero) else return op.exact l r

/-- What an application comes to. It is a step whether it fails or not. -/
theorem applyOperator_eq (op : Operator) (l r : Int) (s : State) :
    applyOperator op l r s =
      ⟨if op = .divide ∧ r = 0 then .error (.error .divisionByZero) else .ok (op.exact l r), s,
        [.apply op l r s.sink]⟩ := by
  unfold applyOperator
  split <;> rfl

/-- The integer of a variable. -/
def readVariable (name : String) : Run Int := do
  match ← read fun s => s.environment.get? s.environment.current name with
  | some v => return v
  | none => stop (.error (.unboundVariable name))

/-- Prints the decimal text of an integer. -/
def printInteger (v : Int) : Run Unit := fun s =>
  match s.sink.print (Value.decimal v) with
  | (none, sink) => ⟨.ok (), { s with sink }, []⟩
  | (some reason, sink) => ⟨.error (.error (.output reason)), { s with sink }, []⟩

/-- The function of a name, which is to take a given number of arguments. -/
def findFunction (name : String) (given : Nat) : Run Function := do
  match ← read fun s => s.functions.get? name with
  | none => stop (.error (.undefinedFunction name))
  | some f =>
    if f.parameters.length = given then return f
    else stop (.error (.arityMismatch name f.parameters.length given))

section nested

variable (eval : Expr → Run Int)

/-- Evaluates expressions one after the other and gives the integer of the last one, or `last` if there
is none. -/
def evalFrom (last : Int) : Block → Run Int
  | [] => pure last
  | e :: es => do
    let v ← eval e
    evalFrom v es

/-- The integer of a block. An empty one gives zero. -/
def evalBlock (b : Block) : Run Int :=
  evalFrom eval 0 b

/-- The integers of arguments, from left to right. -/
def evalArguments : List Expr → Run (List Int)
  | [] => pure []
  | e :: es => do
    let v ← eval e
    let vs ← evalArguments es
    return v :: vs

/-- Repeats a body while a condition is not zero, for fewer than `rounds` rounds. -/
def evalLoop (condition : Expr) (body : Block) : Nat → Run Int
  | 0 => stop .outOfFuel
  | rounds + 1 => do
    let v ← eval condition
    if v = 0 then return 1
    else
      let _ ← evalBlock eval body
      evalLoop condition body rounds

/-- Calls a function, which is looked up before its arguments are evaluated. -/
def evalCall (name : String) (arguments : List Expr) : Run Int := do
  let f ← findFunction name arguments.length
  let values ← evalArguments eval arguments
  within (·.enterFrame (f.parameters.zip values)) (·.leaveFrame) (evalBlock eval f.body)

/-- The integer of an expression, with a bound on the rounds of a loop. -/
def evalExpr (rounds : Nat) : Expr → Run Int
  | .int v => pure v.toInt
  | .var x => readVariable x
  | .assign x e =>
    if x = "" then stop (.error (.malformed .emptyTarget))
    else do
      let v ← eval e
      change fun s => s.assign x v
      return v
  | .binary op l r => do
    let v ← eval l
    let w ← eval r
    applyOperator op v w
  | .block b => evalBlock eval b
  | .whileDo c b => evalLoop eval c b rounds
  | .ifThen c b => do
    let v ← eval c
    if v = 0 then return 1 else evalBlock eval b
  | .ifElse c b d => do
    let v ← eval c
    if v = 0 then evalBlock eval d else evalBlock eval b
  | .print e => do
    let v ← eval e
    printInteger v
    return v
  | .call f arguments => evalCall eval f arguments

end nested

/-- The integer of an expression. Fuel bounds the nesting of expressions and calls and the rounds of
each loop. -/
def evalAtFuel : Nat → Expr → Run Int
  | 0, _ => stop .outOfFuel
  | fuel + 1, e => do
    note fun _ => .evaluate e
    evalExpr (evalAtFuel fuel) fuel e

/-! ### Programs -/

/-- Processes a definition. -/
def declareAtFuel (fuel : Nat) : Definition → Run Unit
  | .function f =>
    match f.malformation? with
    | some reason => stop (.error (.malformed reason))
    | none => change fun s => s.register f
  | .global x e => do
    let v ← evalAtFuel fuel e
    change fun s => s.defineGlobal x v

/-- Processes definitions in order. -/
def declareAllAtFuel (fuel : Nat) : List Definition → Run Unit
  | [] => pure ()
  | d :: ds => do
    declareAtFuel fuel d
    declareAllAtFuel fuel ds

/-- Evaluates the body of the entry point. -/
def enterProgramAtFuel (fuel : Nat) : Run Int := do
  match ← read fun s => s.functions.get? entryName with
  | none => stop (.error .missingEntryPoint)
  | some main => evalBlock (evalAtFuel fuel) main.body

/-- Runs a program. -/
def runAtFuel (fuel : Nat) (p : Program) : Run Int :=
  if p.hasEntryPoint then do
    declareAllAtFuel fuel p.definitions
    enterProgramAtFuel fuel
  else stop (.error .missingEntryPoint)

end Scriptlet.Ideal
