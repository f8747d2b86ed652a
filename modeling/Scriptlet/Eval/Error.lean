import Scriptlet.Operator
import Scriptlet.Sink

/-!
# Errors of a running program

Why a run can fail, and the messages that say so. Every error ends the run.
-/

namespace Scriptlet

/-- A tree that no run can make sense of. -/
inductive Malformation where
  | emptyTarget
  | unnamedFunction
  | repeatedParameter (parameter function : String)
  deriving DecidableEq, Repr, Inhabited

namespace Malformation

/-- What is wrong with the tree. -/
def text : Malformation → String
  | emptyTarget => "assignment to an empty name"
  | unnamedFunction => "function definition without a name"
  | repeatedParameter parameter function =>
    "parameter `" ++ parameter ++ "` repeated in `" ++ function ++ "`"

end Malformation

/-- Why a run fails. -/
inductive EvalError where
  | divisionByZero
  | unboundVariable (name : String)
  | undefinedFunction (name : String)
  | arityMismatch (name : String) (expected given : Nat)
  | missingEntryPoint
  | malformed (reason : Malformation)
  | overflow (op : Operator)
  | output (reason : SinkError)
  deriving DecidableEq, Repr, Inhabited

namespace EvalError

/-- What a user is told. -/
def message : EvalError → String
  | divisionByZero => "division by zero"
  | unboundVariable name => "unbound identifier `" ++ name ++ "`"
  | undefinedFunction name => "undefined function `" ++ name ++ "`"
  | arityMismatch name expected given =>
    "function `" ++ name ++ "` takes " ++ toString expected ++ " argument(s) but " ++
      toString given ++ " were given"
  | missingEntryPoint => "program has no zero-argument `main` function"
  | malformed reason => "malformed expression: " ++ reason.text
  | overflow op => "integer overflow in `" ++ op.symbol ++ "`"
  | output reason => "failed to write output: " ++ reason.message

end EvalError

end Scriptlet
