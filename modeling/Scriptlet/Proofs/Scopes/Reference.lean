import Scriptlet.Eval.Program

/-!
# Evaluation over two scopes

What names stand for, said without frames. A run knows the global variables and, while a call goes
on, the variables of that call. A name is looked for in the call and then among the global variables
(`Scopes.get?`). An assignment goes to where the name is bound, and a name that is bound nowhere comes
into the call (`Scopes.assign`). A call starts with its parameters and nothing else, and after it, with
a value or an error, the variables of its caller are there again (`Scoped.call`).

Operators, control flow, the order of definitions and the errors are those of the language, so that
this is the evaluation that the one over frames is to be compared with.
-/

namespace Scriptlet

/-- What a run over two scopes reads and changes. -/
structure Scopes where
  globals : Table Value
  /-- The variables of the call that goes on, if one does. -/
  locals : Option (Table Value)
  functions : Table Function
  sink : Sink
  deriving DecidableEq, Repr, Inhabited

namespace Scopes

/-- Before a run, no variable and no function is known. -/
def fresh (sink : Sink) : Scopes := ⟨.empty, none, .empty, sink⟩

/-- The value of a name in the call, or else its global value. -/
def get? (s : Scopes) (name : String) : Option Value :=
  (s.locals.bind (·.get? name)).or (s.globals.get? name)

/-- Gives a value to a name where it is bound, first in the call and then globally. A name that is
bound nowhere is bound in the call, or globally outside of calls. -/
def assign (s : Scopes) (name : String) (value : Value) : Scopes :=
  match s.locals with
  | none => { s with globals := s.globals.insert name value }
  | some locals =>
    if locals.contains name then { s with locals := some (locals.insert name value) }
    else if s.globals.contains name then { s with globals := s.globals.insert name value }
    else { s with locals := some (locals.insert name value) }

variable {s : Scopes}

/-- Outside of calls an assignment writes to the globals. -/
theorem assign_of_global (h : s.locals = none) (name : String) (value : Value) :
    s.assign name value = { s with globals := s.globals.insert name value } := by
  unfold assign
  rw [h]

/-- In a call it writes to the locals if they hold the name, then to the globals if these do, and
else to the locals. -/
theorem assign_of_call {locals : Table Value} (h : s.locals = some locals) (name : String)
    (value : Value) : s.assign name value =
      if locals.contains name then { s with locals := some (locals.insert name value) }
      else if s.globals.contains name then { s with globals := s.globals.insert name value }
      else { s with locals := some (locals.insert name value) } := by
  unfold assign
  rw [h]

end Scopes

/-- A step of a run over two scopes. It has a value or an error, or too little fuel. -/
abbrev Scoped := ExceptT EvalError (StateT Scopes Option)

namespace Scoped

variable {α β : Type}

/-- How a step ends, and the scopes that it has led to. -/
def runFrom (p : Scoped α) (s : Scopes) : Option (Except EvalError α × Scopes) :=
  p.run.run s

/-- Ends without a result for lack of fuel. -/
def outOfFuel : Scoped α := ExceptT.mk fun _ => none

/-- Gives a part of the scopes. -/
def read (f : Scopes → α) : Scoped α := f <$> get

/-- Runs a step with variables in place of those of the caller, which are there again afterwards. -/
def call (locals : Table Value) (p : Scoped α) : Scoped α := ExceptT.mk fun s =>
  (p.runFrom { s with locals := some locals }).map fun (result, t) =>
    (result, { t with locals := s.locals })

/-- Names with their values, the later ones over the earlier ones. -/
def bindAll (bindings : List (String × Value)) : Table Value :=
  bindings.foldl (fun t binding => t.insert binding.1 binding.2) .empty

/-- What is bound last for a name is found, before what the table had already. -/
theorem get?_foldl_insert (bindings : List (String × Value)) (t : Table Value) (name : String) :
    (bindings.foldl (fun t binding => t.insert binding.1 binding.2) t).get? name =
      ((bindings.reverse.find? fun binding => binding.1 = name).map Prod.snd).or (t.get? name) := by
  induction bindings generalizing t with
  | nil => rfl
  | cons binding rest ih =>
    rw [List.foldl_cons, ih, List.reverse_cons, List.find?_append, Table.get?_insert]
    cases rest.reverse.find? fun binding => binding.1 = name with
    | some later => rfl
    | none => by_cases h : binding.1 = name <;> simp [h]

/-- A call starts with what is bound last for each name, and nothing else. -/
theorem get?_bindAll (bindings : List (String × Value)) (name : String) :
    (bindAll bindings).get? name =
      (bindings.reverse.find? fun binding => binding.1 = name).map Prod.snd := by
  rw [bindAll, get?_foldl_insert, Table.get?_empty, Option.or_none]

/-- A call that is given a value for each parameter starts with all of them bound. -/
theorem isSome_get?_bindAll {parameters : List String} {values : List Value}
    (hlength : parameters.length = values.length) {name : String} (h : name ∈ parameters) :
    ((bindAll (parameters.zip values)).get? name).isSome := by
  have hbound : name ∈ (parameters.zip values).map Prod.fst := by
    rwa [List.map_fst_zip (Nat.le_of_eq hlength)]
  obtain ⟨binding, hbinding, rfl⟩ := List.mem_map.mp hbound
  rw [get?_bindAll, Option.isSome_map, List.find?_isSome]
  exact ⟨binding, List.mem_reverse.mpr hbinding, decide_eq_true rfl⟩

/-! ### Expressions -/

/-- The value of a variable. -/
def readVariable (name : String) : Scoped Value := do
  match ← read (·.get? name) with
  | some v => return v
  | none => throw (.unboundVariable name)

/-- Prints the decimal text of a value. -/
def printValue (v : Value) : Scoped Unit := do
  let (failure, sink) ← read (·.sink.print (Value.text v))
  modify fun s => { s with sink }
  match failure with
  | none => return
  | some reason => throw (.output reason)

/-- The function of a name, which is to take a given number of arguments. -/
def findFunction (name : String) (given : Nat) : Scoped Function := do
  match ← read (·.functions.get? name) with
  | none => throw (.undefinedFunction name)
  | some f =>
    if f.parameters.length = given then return f
    else throw (.arityMismatch name f.parameters.length given)

section nested

variable (eval : Expr → Scoped Value)

/-- The value of the last expression of a block, or zero. -/
def evalBlock (b : Block) : Scoped Value :=
  b.foldlM (fun _ e => eval e) 0

/-- Repeats a body while a condition is not zero, for fewer than `rounds` rounds. -/
def evalLoop (condition : Expr) (body : Block) : Nat → Scoped Value
  | 0 => outOfFuel
  | rounds + 1 => do
    if (← eval condition) = 0 then return 1
    else
      let _ ← evalBlock eval body
      evalLoop condition body rounds

/-- Calls a function. The caller's variables are those that its arguments see, and the values of the
arguments are all that its body starts with. -/
def evalCall (name : String) (arguments : List Expr) : Scoped Value := do
  let f ← findFunction name arguments.length
  let values ← arguments.mapM eval
  call (bindAll (f.parameters.zip values)) (evalBlock eval f.body)

/-- The value of an expression, with a bound on the rounds of a loop. -/
def evalExpr (rounds : Nat) : Expr → Scoped Value
  | .int v => return v
  | .var x => readVariable x
  | .assign x e => do
    if x = "" then throw (.malformed .emptyTarget)
    else
      let v ← eval e
      modify (·.assign x v)
      return v
  | .binary op l r => do
    let v ← eval l
    let w ← eval r
    MonadExcept.ofExcept (op.apply v w)
  | .block b => evalBlock eval b
  | .whileDo c b => evalLoop eval c b rounds
  | .ifThen c b => do
    if (← eval c) = 0 then return 1 else evalBlock eval b
  | .ifElse c b d => do
    if (← eval c) = 0 then evalBlock eval d else evalBlock eval b
  | .print e => do
    let v ← eval e
    printValue v
    return v
  | .call f arguments => evalCall eval f arguments

end nested

/-- The value of an expression. Fuel bounds the nesting of expressions and calls and the rounds of
each loop. -/
def evalAtFuel : Nat → Expr → Scoped Value
  | 0, _ => outOfFuel
  | fuel + 1, e => evalExpr (evalAtFuel fuel) fuel e

/-! ### Programs -/

/-- Processes a definition. -/
def declareAtFuel (fuel : Nat) : Definition → Scoped Unit
  | .function f =>
    match f.malformation? with
    | some reason => throw (.malformed reason)
    | none => modify fun s => { s with functions := s.functions.insert f.name f }
  | .global x e => do
    let v ← evalAtFuel fuel e
    modify fun s => { s with globals := s.globals.insert x v }

/-- Runs a program: its definitions in order, and then the body of its entry point. -/
def runAtFuel (fuel : Nat) (p : Program) : Scoped Value := do
  if p.hasEntryPoint then
    forM p.definitions (declareAtFuel fuel)
    match ← read (·.functions.get? entryName) with
    | none => throw .missingEntryPoint
    | some main => evalBlock (evalAtFuel fuel) main.body
  else throw .missingEntryPoint

end Scoped

end Scriptlet
