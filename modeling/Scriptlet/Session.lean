import Scriptlet.Eval.Program
import Scriptlet.Parser.Source

/-!
# Sessions

A machine that serves one request after the other. What a request leaves behind, such as variables,
functions and printed text, stays for the next one, also if the request fails.
-/

namespace Scriptlet

/-- Fuel that no run uses up before its user gives up. -/
def ampleFuel : Nat := 4000000000000000000

/-- Why source text has no value: it cannot be read, or its run fails. -/
inductive ScriptError where
  | parse (reason : ParseError)
  | eval (reason : EvalError)
  deriving DecidableEq, Repr, Inhabited

/-- What a user is told. -/
def ScriptError.message : ScriptError → String
  | parse reason => reason.message
  | eval reason => reason.message

/-- The end of an action that had enough fuel: its value or error, and the state it has led to. -/
def Outcome.ended? {α : Type} : Outcome α → Option (Except ScriptError α × Machine)
  | .value a m => some (.ok a, m)
  | .error reason m => some (.error (.eval reason), m)
  | .outOfFuel => none

/-- Evaluates an expression. -/
def evaluate (fuel : Nat) (e : Expr) (m : Machine) : Option (Except ScriptError Value × Machine) :=
  (evalAtFuel fuel e m).ended?

/-- Evaluates a block. -/
def evaluateBlock (fuel : Nat) (b : Block) (m : Machine) :
    Option (Except ScriptError Value × Machine) :=
  (evalBlockAtFuel fuel b m).ended?

/-- Runs a program. -/
def runProgram (fuel : Nat) (p : Program) (m : Machine) :
    Option (Except ScriptError Value × Machine) :=
  (runAtFuel fuel p m).ended?

/-- Reads and evaluates an expression. -/
def evaluateSource (fuel : Nat) (source : String) (m : Machine) :
    Option (Except ScriptError Value × Machine) :=
  match Expr.ofString source with
  | .ok e => evaluate fuel e m
  | .error reason => some (.error (.parse reason), m)

/-- Reads and runs a program. -/
def runSource (fuel : Nat) (source : String) (m : Machine) :
    Option (Except ScriptError Value × Machine) :=
  match Program.ofString source with
  | .ok p => runProgram fuel p m
  | .error reason => some (.error (.parse reason), m)

/-- What a session can be asked. -/
inductive Request where
  | evaluate (expr : Expr)
  | evaluateSource (source : String)
  | evaluateBlock (block : Block)
  | runProgram (program : Program)
  | runSource (source : String)
  | getVariable (name : String)
  | setVariable (name : String) (value : Value)
  deriving DecidableEq, Repr, Inhabited

/-- What a request is answered. -/
inductive Answer where
  /-- The value of what was evaluated, or why it has none. -/
  | result (result : Except ScriptError Value)
  /-- The value of a variable before the request, if it had one. -/
  | previous (value : Option Value)

/-- Serves a request. -/
def serve (fuel : Nat) : Request → Machine → Option (Answer × Machine)
  | .evaluate e, m => (evaluate fuel e m).map fun (r, m) => (.result r, m)
  | .evaluateSource s, m => (evaluateSource fuel s m).map fun (r, m) => (.result r, m)
  | .evaluateBlock b, m => (evaluateBlock fuel b m).map fun (r, m) => (.result r, m)
  | .runProgram p, m => (runProgram fuel p m).map fun (r, m) => (.result r, m)
  | .runSource s, m => (runSource fuel s m).map fun (r, m) => (.result r, m)
  | .getVariable x, m => some (.previous (m.valueOf? x), m)
  | .setVariable x v, m =>
    let (previous, m) := m.assign x v
    some (.previous previous, m)

/-- One request of a session with its answer, what it printed and the depth that it left. -/
structure Exchange where
  answer : Answer
  output : String
  depth : Nat

/-- Serves requests one after the other. The machine that they leave comes along. -/
def serveAll (fuel : Nat) : List Request → Machine → Option (List Exchange × Machine)
  | [], m => some ([], m)
  | request :: requests, m => do
    let (answer, after) ← serve fuel request m
    let output := String.ofList (after.sink.contentsSince m.sink)
    let (exchanges, last) ← serveAll fuel requests after
    return (⟨answer, output, after.environment.depth⟩ :: exchanges, last)

end Scriptlet
