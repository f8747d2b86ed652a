import Scriptlet.Proofs.Eval.Monotonic
import Scriptlet.Proofs.Eval.Observation
import Scriptlet.Proofs.Runs.Processing

/-!
# Hoisting functions

The definitions of a program may be reordered so that all functions come first (`Program.hoist`). Then
every initial value is evaluated where more functions are known than before, and so is the body of the
entry point. If names of functions are not used twice and functions are well formed, none of the
functions that come first fails or is overwritten, so that a definition is processed alike as long as
the program does not miss a function (`declareAllAtFuel_hoisted`).

* `hoist_sound`: a run that has not ended with a missed function ends alike if the functions are
  hoisted.
-/

namespace Scriptlet

open Scriptlet.Action

/-- Whether a definition is one of a function. -/
def Definition.isFunction : Definition → Bool
  | .function _ => true
  | .global _ _ => false

/-- The function that a definition defines. -/
def Definition.function? : Definition → Option Function
  | .function f => some f
  | .global _ _ => none

/-- The functions that a program defines, in order. -/
def Program.functions (p : Program) : List Function :=
  p.definitions.filterMap Definition.function?

/-- A program with its functions before its global variables, both in the order in which they were. -/
def Program.hoist (p : Program) : Program where
  definitions :=
    p.definitions.filter (·.isFunction) ++ p.definitions.filter fun d => !d.isFunction

variable {fuel : Nat} {p : Program} {m n k : Machine} {ds es : List Definition}

/-! ### Functions that are known -/

/-- The functions of a list of definitions are those that it defines. -/
theorem mem_filterMap_function? {f : Function} :
    f ∈ ds.filterMap Definition.function? ↔ .function f ∈ ds := by
  rw [List.mem_filterMap]
  constructor
  · rintro ⟨_ | ⟨x, e⟩, hd, heq⟩
    · cases heq
      exact hd
    · cases heq
  · exact fun hf => ⟨.function f, hf, rfl⟩

/-- If its name is not used twice, a function is known under it after all definitions. -/
theorem get?_registerAll_of_mem {f : Function} (known : Table Function)
    (hnames : ((ds.filterMap Definition.function?).map Function.name).Nodup)
    (hf : .function f ∈ ds) : (registerAll known ds).get? f.name = some f := by
  obtain ⟨before, after, rfl⟩ := List.append_of_mem hf
  have hlast : (before ++ .function f :: after).reverse.findSome?
      (Definition.functionNamed? f.name) = some f := by
    refine lastNamed_eq_some_iff.mpr ⟨rfl, before, after, rfl, ?_⟩
    intro g hg hname
    rw [List.filterMap_append, List.map_append] at hnames
    have hrest : (f.name :: (after.filterMap Definition.function?).map Function.name).Nodup :=
      (List.nodup_append.mp hnames).2.1
    have hafter := List.mem_map_of_mem (f := Function.name) (mem_filterMap_function?.mpr hg)
    rw [hname] at hafter
    exact (List.nodup_cons.mp hrest).1 hafter
  rw [get?_registerAll, hlast, Option.some_or]

/-! ### Entry points -/

/-- Where a function of a name is looked for, only functions count. -/
theorem findSome?_filter_isFunction (name : String) (ds : List Definition) :
    (ds.filter (·.isFunction)).findSome? (Definition.functionNamed? name) =
      ds.findSome? (Definition.functionNamed? name) := by
  induction ds with
  | nil => rfl
  | cons d ds ih =>
    cases d with
    | function f =>
      show List.findSome? _ (.function f :: ds.filter (·.isFunction)) = _
      rw [List.findSome?_cons, List.findSome?_cons, ih]
    | global x e => exact ih

/-- Hoisting leaves the last function of a name the last one. -/
theorem lastNamed_hoist (name : String) :
    p.hoist.definitions.reverse.findSome? (Definition.functionNamed? name) =
      p.definitions.reverse.findSome? (Definition.functionNamed? name) := by
  have hglobals : (p.definitions.filter fun d => !d.isFunction).reverse.findSome?
      (Definition.functionNamed? name) = none := by
    rw [List.findSome?_eq_none_iff]
    intro d hd
    cases d with
    | function f => simp [Definition.isFunction] at hd
    | global x e => rfl
  show (p.definitions.filter (·.isFunction) ++ _).reverse.findSome? _ = _
  rw [List.reverse_append, List.findSome?_append, hglobals, Option.none_or, ← List.filter_reverse,
    findSome?_filter_isFunction]

/-- A program starts at the same function if it is hoisted. -/
theorem startsAt_hoist_iff {main : Function} : p.hoist.StartsAt main ↔ p.StartsAt main := by
  rw [Program.startsAt_iff, Program.startsAt_iff, lastNamed_hoist]

/-! ### Processing hoisted definitions -/

/-- Well-formed functions become known. -/
theorem processes_functions
    (hwell : ∀ f, .function f ∈ ds → f.name ≠ "" ∧ f.parameters.Nodup) :
    Processes fuel (ds.filter (·.isFunction)) m
      { m with functions := registerAll m.functions ds } := by
  induction ds generalizing m with
  | nil => exact .nil m
  | cons d ds ih =>
    have hrest := fun f hf => hwell f (List.mem_cons_of_mem d hf)
    cases d with
    | function f =>
      obtain ⟨hname, hnodup⟩ := hwell f List.mem_cons_self
      exact .function hname hnodup (ih hrest)
    | global x e => exact ih hrest

/-- Definitions before others are processed first. -/
theorem Processes.declareAllAtFuel_append (h : Processes fuel ds m k) (es : List Definition) :
    declareAllAtFuel fuel (ds ++ es) m = declareAllAtFuel fuel es k := by
  induction h with
  | nil m => rfl
  | function hname hnodup _ ih =>
    exact (bind_value (declareAtFuel_function hname hnodup fuel _)).trans ih
  | global hinitial _ ih => exact (bind_value (declareAtFuel_global hinitial _)).trans ih

/-- The definition of a global variable is monotonic, as the evaluation of its initial value is. -/
theorem declareAtFuel_global_monotonic (fuel : Nat) (x : String) (e : Expr) :
    Monotonic (declareAtFuel fuel (.global x e)) := by
  refine (evalAtFuel_monotonic fuel e).bind fun v => ?_
  refine (Monotonic.change fun m n h => h.defineGlobal x v).bind fun _ => ?_
  exact .change fun m n h => h.record _ _

/-- Where their functions are known already, definitions may be processed without them. -/
theorem declareAllAtFuel_globals
    (hwell : ∀ f, .function f ∈ ds → f.name ≠ "" ∧ f.parameters.Nodup) (hmn : m.ExtendedBy n)
    (hknown : ∀ f, .function f ∈ ds → n.functions.get? f.name = some f) :
    (declareAllAtFuel fuel ds m).ExtendedBy
      (declareAllAtFuel fuel (ds.filter fun d => !d.isFunction) n) := by
  -- on the right the functions that are still to come stay known throughout
  induction ds generalizing m n with
  | nil => exact .value hmn
  | cons d ds ih =>
    have hrest := fun f hf => hwell f (List.mem_cons_of_mem d hf)
    have hknown' := fun f hf => hknown f (List.mem_cons_of_mem d hf)
    cases d with
    | function f =>
      obtain ⟨hname, hnodup⟩ := hwell f List.mem_cons_self
      have hregistered := hmn.register (hknown f List.mem_cons_self)
      show Outcome.ExtendedBy ((declareAtFuel fuel (.function f) >>= _) m) _
      rw [bind_value (declareAtFuel_function hname hnodup fuel m)]
      exact ih hrest hregistered hknown'
    | global x e =>
      have hfirst := declareAtFuel_global_monotonic fuel x e m n hmn
      refine hfirst.bind fun _ k l hl hkl => ?_
      -- the initial value has made no function known and none forgotten
      have hsame : l.functions = n.functions := (declareAtFuel_eq_value_iff.mp hl).functions
      apply ih hrest hkl
      rw [hsame]
      exact hknown'

/-- On a machine that knows no function, a program's definitions may be processed hoisted. -/
theorem declareAllAtFuel_hoisted (hnames : (p.functions.map Function.name).Nodup)
    (hwell : ∀ f ∈ p.functions, f.name ≠ "" ∧ f.parameters.Nodup) (hm : m.functions = .empty) :
    (declareAllAtFuel fuel p.definitions m).ExtendedBy
      (declareAllAtFuel fuel p.hoist.definitions m) := by
  have hwell' : ∀ f, .function f ∈ p.definitions → f.name ≠ "" ∧ f.parameters.Nodup :=
    fun f hf => hwell f (mem_filterMap_function?.mpr hf)
  have hfunctions : Processes fuel (p.definitions.filter (·.isFunction)) m
      { m with functions := registerAll m.functions p.definitions } := processes_functions hwell'
  show Outcome.ExtendedBy _ (declareAllAtFuel fuel (_ ++ _) m)
  rw [hfunctions.declareAllAtFuel_append]
  apply declareAllAtFuel_globals hwell'
  · refine ⟨rfl, rfl, ?_⟩
    intro name f hf
    rw [hm] at hf
    cases hf
  · intro f hf
    exact get?_registerAll_of_mem _ hnames hf

/-! ### Runs -/

/-- The report of a result leaves outcomes alike. -/
theorem Outcome.ExtendedBy.returned {left right : Outcome Value} (h : left.ExtendedBy right) :
    left.returned.ExtendedBy right.returned := by
  cases h with
  | value hk => exact .value ((hk.record _ _).record _ _)
  | error hk => exact .error (hk.record _ _)
  | undefined => exact .undefined
  | outOfFuel => exact .outOfFuel

/-- A hoisted program has as many definitions. -/
theorem entered_hoist (p : Program) (m : Machine) : p.hoist.entered m = p.entered m := by
  unfold Program.entered
  have hperm : p.hoist.definitions.Perm p.definitions :=
    List.filter_append_perm Definition.isFunction p.definitions
  rw [hperm.length_eq]

/-- A run may be one of the hoisted program. -/
theorem runAtFuel_hoisted (hnames : (p.functions.map Function.name).Nodup)
    (hwell : ∀ f ∈ p.functions, f.name ≠ "" ∧ f.parameters.Nodup) (hm : m.functions = .empty) :
    (runAtFuel fuel p m).ExtendedBy (runAtFuel fuel p.hoist m) := by
  by_cases hstarts : ∃ main, p.StartsAt main
  · obtain ⟨main, hp⟩ := hstarts
    rw [runAtFuel_eq hp, runAtFuel_eq (startsAt_hoist_iff.mpr hp)]
    rw [entered_hoist]
    have hdeclared : (declareAllAtFuel fuel p.definitions (p.entered m)).ExtendedBy
        (declareAllAtFuel fuel p.hoist.definitions (p.entered m)) :=
      declareAllAtFuel_hoisted hnames hwell hm
    generalize declareAllAtFuel fuel p.definitions (p.entered m) = left at hdeclared
    generalize declareAllAtFuel fuel p.hoist.definitions (p.entered m) = right at hdeclared
    cases hdeclared with
    | value hk => exact (evalBlockAtFuel_monotonic fuel main.body _ _ hk).returned
    | error hk => exact .error (hk.record _ _)
    | undefined => exact .undefined
    | outOfFuel => exact .outOfFuel
  · have hstarts' : ¬∃ main, p.hoist.StartsAt main := by
      simpa only [startsAt_hoist_iff] using hstarts
    rw [runAtFuel_of_not_startsAt hstarts, runAtFuel_of_not_startsAt hstarts']
    exact .error ⟨rfl, rfl, fun _ _ h => h⟩

/-- What is seen of an action that has not missed a function is the same if more functions are known. -/
theorem Outcome.ExtendedBy.visible {α : Type} {left right : Outcome α} (h : left.ExtendedBy right)
    {result : Except EvalError α} {globals : String → Option Value} {sink : Sink}
    (hleft : left.visible = some (result, globals, sink))
    (hdefined : ∀ name, result ≠ .error (.undefinedFunction name)) :
    right.visible = some (result, globals, sink) := by
  have hsame : ∀ {m n : Machine}, m.ExtendedBy n → n.globalOf? = m.globalOf? ∧ n.sink = m.sink := by
    intro m n hmn
    refine ⟨?_, hmn.sink⟩
    unfold Machine.globalOf?
    rw [hmn.environment]
  cases h with
  | @value a m n hmn =>
    obtain ⟨hglobals, hsink⟩ := hsame hmn
    show some (Except.ok a, n.globalOf?, n.sink) = _
    rw [hglobals, hsink]
    exact hleft
  | @error reason m n hmn =>
    obtain ⟨hglobals, hsink⟩ := hsame hmn
    show some (Except.error reason, n.globalOf?, n.sink) = _
    rw [hglobals, hsink]
    exact hleft
  | @undefined name _ _ =>
    cases hleft
    exact absurd rfl (hdefined name)
  | outOfFuel => cases hleft

/-- Hoisting functions is sound. If no name of a function is used twice and all functions are well
formed, a run that ends, with a value or with an error other than a missed function, ends alike if all
functions come first: with the same value or error, the same output and the same global variables. -/
theorem hoist_sound (hnames : (p.functions.map Function.name).Nodup)
    (hwell : ∀ f ∈ p.functions, f.name ≠ "" ∧ f.parameters.Nodup) (sink : Sink) (journal : Journal)
    {result : Except EvalError Value} {globals : String → Option Value} {sink' : Sink}
    (hrun : (runAtFuel fuel p (.fresh sink journal)).visible = some (result, globals, sink'))
    (hdefined : ∀ name, result ≠ .error (.undefinedFunction name)) :
    (runAtFuel fuel p.hoist (.fresh sink journal)).visible = some (result, globals, sink') :=
  (runAtFuel_hoisted hnames hwell rfl).visible hrun hdefined

/-- Global variables stand before, between and behind functions, one is assigned to by the function that
another one's initial value calls, and the run fails in the end. -/
theorem hoist_sound_of_failing_run :
    let f : Function := ⟨"f", ["n"], [.assign "a" (.var "n"), .binary .multiply (.var "n") (.var "n")]⟩
    let main : Function := ⟨"main", [], [.call "g" [.var "b"], .binary .divide (.var "a") (.int 0)]⟩
    let g : Function := ⟨"g", ["n"], [.print (.var "n")]⟩
    let p : Program := ⟨[.global "a" (.int 1), .function f, .global "b" (.call "f" [.int 3]),
      .function main, .function g, .global "c" (.int 4)]⟩
    p.hoist = ⟨[.function f, .function main, .function g, .global "a" (.int 1),
      .global "b" (.call "f" [.int 3]), .global "c" (.int 4)]⟩ ∧
    (runAtFuel 9 p.hoist (.fresh .unlimited .silent)).visible =
      (runAtFuel 9 p (.fresh .unlimited .silent)).visible ∧
    (runAtFuel 9 p (.fresh .unlimited .silent)).visible.map
        (fun (result, global, sink) => (result, global "a", global "b", sink.texts)) =
      some (.error .divisionByZero, some 3, some 9, [['9']]) := by
  intro f main g p
  have hresult : (runAtFuel 9 p (.fresh .unlimited .silent)).visible.map Prod.fst =
      some (.error .divisionByZero) := by decide +kernel
  obtain ⟨⟨_, globals, sink⟩, hrun, rfl⟩ := Option.map_eq_some_iff.mp hresult
  have hhoisted := hoist_sound (by decide) (by decide) _ _ hrun nofun
  exact ⟨by decide, hhoisted.trans hrun.symm, by decide +kernel⟩

end Scriptlet
