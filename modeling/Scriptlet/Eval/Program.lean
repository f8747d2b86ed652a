import Scriptlet.Eval.Basic

/-!
# Running programs

A program is run by going through its definitions in order, where functions become known and global
variables get their values, and then evaluating the body of its entry point. That there is an entry
point is made sure of before anything else happens.
-/

namespace Scriptlet

/-- The name of the function that a program starts with. -/
def entryName : String := "main"

/-- The parameters of the last function of a name. -/
def Program.lastParameters? (p : Program) (name : String) : Option (List String) :=
  p.definitions.reverse.findSome? fun
    | .function f => if f.name = name then some f.parameters else none
    | .global _ _ => none

/-- Whether a program can be started: its last function with the name of the entry point takes no
arguments. -/
def Program.hasEntryPoint (p : Program) : Bool :=
  p.lastParameters? entryName == some []

/-- The first name of a list that is also earlier in it, or among the names seen before. -/
def firstRepeated (seen : List String) : List String → Option String
  | [] => none
  | x :: xs => if x ∈ seen then some x else firstRepeated (x :: seen) xs

/-- What is wrong with a function, if anything is. Its name is looked at before its parameters. -/
def Function.malformation? (f : Function) : Option Malformation :=
  if f.name = "" then some .unnamedFunction
  else (firstRepeated [] f.parameters).map fun x => .repeatedParameter x f.name

/-- Processes a definition. -/
def declareAtFuel (fuel : Nat) : Definition → Action Unit
  | .function f =>
    match f.malformation? with
    | some reason => .fail (.malformed reason)
    | none => .change fun m => m.register f
  | .global x e => do
    let v ← evalAtFuel fuel e
    .change fun m => m.defineGlobal x v
    Action.record (.globalDefined x v)

/-- Processes definitions in order. -/
def declareAllAtFuel (fuel : Nat) : List Definition → Action Unit
  | [] => pure ()
  | d :: ds => do
    declareAtFuel fuel d
    declareAllAtFuel fuel ds

/-- Evaluates the body of the entry point. -/
def enterProgramAtFuel (fuel : Nat) : Action Value := do
  match ← Action.read fun m => m.functions.get? entryName with
  | none => .fail .missingEntryPoint
  | some main =>
    let result ← evalBlockAtFuel fuel main.body
    Action.record (.mainReturned result)
    return result

/-- Runs a program on a machine, which may know variables and functions already. -/
def runAtFuel (fuel : Nat) (p : Program) : Action Value :=
  .within (·.record (.enterMain p.definitions.length)) (·.record .exitMain) do
    if p.hasEntryPoint then
      declareAllAtFuel fuel p.definitions
      enterProgramAtFuel fuel
    else .fail .missingEntryPoint

end Scriptlet
