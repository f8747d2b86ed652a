import Mathlib.Order.Filter.Finite
import Mathlib.Order.WellFoundedSet
import Scriptlet.Proofs.Eval.Halting
import Scriptlet.Proofs.Eval.Observation

/-!
# Runs that come to an end

A program without loops in which no function calls itself, directly or through others, comes to an end.
Whether a function calls another is read off the bodies of all functions of its name (`Program.Calls`),
so that it does not matter which of them is known when. Since a program has finitely many functions,
calls without cycles go down a well-founded order, along which the bodies of all functions halt
(`eventually_bodiesHalt`); the initial values of global variables halt after them, and so does the run.

* `run_terminates`: there is fuel at which every run from a fresh machine ends.
-/

namespace Scriptlet

open Filter
open Scriptlet.Action

/-! ### Calls between functions -/

/-- Whether no loop stands anywhere in a definition. -/
def Definition.loopFree : Definition → Bool
  | .function f => Expr.allLoopFree f.body
  | .global _ e => e.loopFree

/-- Whether no loop stands anywhere in a program. -/
def Program.loopFree (p : Program) : Bool :=
  p.definitions.all Definition.loopFree

/-- The body of some function of the first name holds a call of the second name. -/
def Program.Calls (p : Program) (caller callee : String) : Prop :=
  ∃ f, .function f ∈ p.definitions ∧ f.name = caller ∧ callee ∈ Expr.calleesOf f.body

/-- The name of a function or a global variable. -/
def Definition.name : Definition → String
  | .function f => f.name
  | .global x _ => x

variable {p : Program}

/-- No function calls itself if calls go down some order of the names. -/
theorem Program.acyclic_of_rank (rank : String → Nat)
    (h : ∀ caller callee, p.Calls caller callee → rank callee < rank caller) (name : String) :
    ¬ Relation.TransGen p.Calls name name := by
  have hdown : ∀ {caller callee}, Relation.TransGen p.Calls caller callee →
      rank callee < rank caller := by
    intro caller callee hcalls
    induction hcalls with
    | single hcall => exact h _ _ hcall
    | tail _ hcall ih => exact Nat.lt_trans (h _ _ hcall) ih
  exact fun hcycle => Nat.lt_irrefl _ (hdown hcycle)

/-- A function of the program may become known. -/
theorem declare_function_halts {f : Function} (hf : .function f ∈ p.definitions) (fuel : Nat) :
    Halts p (declareAtFuel fuel (.function f)) := by
  rw [declareAtFuel]
  cases f.malformation? with
  | some reason => exact .fail _
  | none =>
    refine .change fun m hm name g hg => ?_
    have hinsert : (m.functions.insert f.name f).get? name = some g := hg
    rw [Table.get?_insert] at hinsert
    split at hinsert
    case isTrue hname =>
      cases hinsert
      exact ⟨hf, hname⟩
    case isFalse => exact hm name g hinsert

section acyclic

variable (hloop : p.loopFree) (hacyclic : ∀ name, ¬ Relation.TransGen p.Calls name name)

include hloop

/-- The definitions of a program without loops have none. -/
theorem Program.loopFree_of_mem {d : Definition} (hd : d ∈ p.definitions) : d.loopFree :=
  List.all_eq_true.mp hloop d hd

/-- The bodies of the functions of a name halt if those of the functions that they call do. -/
theorem eventually_bodiesHalt_of_callees {name : String}
    (h : ∀ callee, p.Calls name callee → ∀ᶠ fuel in atTop, p.BodiesHalt callee fuel) :
    ∀ᶠ fuel in atTop, p.BodiesHalt name fuel := by
  have hdefinitions : ∀ d ∈ p.definitions, ∀ᶠ fuel in atTop, ∀ f, d = .function f → f.name = name →
      ∀ e ∈ f.body, Halts p (evalAtFuel fuel e) := by
    intro d hd
    cases d with
    | global x e => exact .of_forall fun _ => nofun
    | function f =>
      by_cases hname : f.name = name
      · have hbody := eventually_all_halt f.body (Program.loopFree_of_mem hloop hd) fun callee hcallee =>
          h callee ⟨f, hd, hname, hcallee⟩
        filter_upwards [hbody] with fuel hbody
        rintro _ ⟨⟩ -
        exact hbody
      · refine .of_forall fun fuel => ?_
        rintro _ ⟨⟩ hsame
        exact absurd hsame hname
  have hall := (eventually_all_finite (List.finite_toSet p.definitions)).mpr hdefinitions
  filter_upwards [hall] with fuel hall
  exact fun f hf hname => hall _ hf f rfl hname

include hacyclic

/-- The bodies of all functions halt. -/
theorem eventually_bodiesHalt (name : String) : ∀ᶠ fuel in atTop, p.BodiesHalt name fuel := by
  have hfinite : {name | name ∈ p.definitions.map Definition.name}.Finite := List.finite_toSet _
  have horder : IsStrictOrder String fun callee caller => Relation.TransGen p.Calls caller callee :=
    { irrefl := hacyclic, trans := fun _ _ _ h h' => h'.trans h }
  have hdown : {name | name ∈ p.definitions.map Definition.name}.WellFoundedOn
      fun callee caller => Relation.TransGen p.Calls caller callee := hfinite.wellFoundedOn
  -- a name that no definition has calls nothing
  have hundefined : ∀ name, name ∉ p.definitions.map Definition.name →
      ∀ᶠ fuel in atTop, p.BodiesHalt name fuel := by
    refine fun name hname => .of_forall fun fuel f hf hsame => ?_
    exact absurd (List.mem_map.mpr ⟨.function f, hf, hsame⟩) hname
  by_cases hname : name ∈ p.definitions.map Definition.name
  · refine hdown.induction (P := fun name => ∀ᶠ fuel in atTop, p.BodiesHalt name fuel) hname
      fun name _ ih => ?_
    apply eventually_bodiesHalt_of_callees hloop
    intro callee hcall
    by_cases hcallee : callee ∈ p.definitions.map Definition.name
    · exact ih callee hcallee (.single hcall)
    · exact hundefined callee hcallee
  · exact hundefined name hname

/-! ### Runs -/

/-- The definitions of the program are processed to an end. -/
theorem eventually_declareAll_halts {ds : List Definition} (hds : ∀ d ∈ ds, d ∈ p.definitions) :
    ∀ᶠ fuel in atTop, Halts p (declareAllAtFuel fuel ds) := by
  induction ds with
  | nil => exact .of_forall fun _ => .pure ()
  | cons d ds ih =>
    obtain ⟨hd, hds⟩ := List.forall_mem_cons.mp hds
    have hfirst : ∀ᶠ fuel in atTop, Halts p (declareAtFuel fuel d) := by
      cases d with
      | function f => exact .of_forall (declare_function_halts hd)
      | global x e =>
        have he := eventually_halts e (Program.loopFree_of_mem hloop hd) fun name _ =>
          eventually_bodiesHalt hloop hacyclic name
        filter_upwards [he] with fuel he
        exact he.bind fun v => .bind (.change fun _ hm => hm) fun _ => .record _
    filter_upwards [hfirst, ih hds] with fuel hfirst hrest
    exact hfirst.bind fun _ => hrest

/-- The body of the entry point is evaluated to an end. -/
theorem eventually_enterProgram_halts : ∀ᶠ fuel in atTop, Halts p (enterProgramAtFuel fuel) := by
  filter_upwards [eventually_bodiesHalt hloop hacyclic entryName] with fuel hbodies
  intro m hm
  unfold enterProgramAtFuel
  rw [bind_value (read_apply _ m)]
  cases hget : m.functions.get? entryName with
  | none => exact .error hm
  | some main =>
    obtain ⟨hmain, hname⟩ := hm entryName main hget
    have hbody : Halts p (evalBlockAtFuel fuel main.body) := .evalBlock (hbodies main hmain hname)
    exact (hbody.bind fun v => (Halts.record _).bind fun _ => .pure v) m hm

end acyclic

/-- At first no function is known, and so none that is not of the program. -/
theorem Machine.knowsOnly_fresh (p : Program) (sink : Sink) (journal : Journal) :
    (Machine.fresh sink journal).KnowsOnly p :=
  nofun

/-- A program without loops, in which no function calls itself directly or through others, comes to an
end: at some fuel, every run of it from a fresh machine ends with a value or an error, whatever it prints
to. -/
theorem run_terminates (hloop : p.loopFree)
    (hacyclic : ∀ name, ¬ Relation.TransGen p.Calls name name) :
    ∃ fuel, ∀ sink journal, ∃ result m,
      (runAtFuel fuel p (.fresh sink journal)).ending? = some (result, m) := by
  have hdeclared := eventually_declareAll_halts hloop hacyclic (fun d hd => hd)
  have hentered := eventually_enterProgram_halts hloop hacyclic
  obtain ⟨fuel, hdeclared, hentered⟩ := (hdeclared.and hentered).exists
  refine ⟨fuel, fun sink journal => ?_⟩
  have hrun : Halts p (runAtFuel fuel p) :=
    .within_record (.ite (hdeclared.bind fun _ => hentered) (.fail _)) _ _
  have hends := hrun _ (Machine.knowsOnly_fresh p sink journal)
  generalize runAtFuel fuel p (.fresh sink journal) = outcome at hends
  cases hends with
  | value => exact ⟨_, _, rfl⟩
  | error => exact ⟨_, _, rfl⟩

/-- A function calls another one twice, is called by an initial value, and is then defined anew. -/
theorem run_terminates_of_redefinition :
    let square : Function := ⟨"square", ["n"], [.binary .multiply (.var "n") (.var "n")]⟩
    let twice : Function := ⟨"f", ["n"], [.call "square" [.call "square" [.var "n"]]]⟩
    let shorter : Function := ⟨"f", [], [.print (.call "square" [.var "x"])]⟩
    let main : Function := ⟨"main", [], [.ifThen (.var "x") [.call "f" []]]⟩
    let p : Program := ⟨[.function square, .function twice, .global "x" (.call "f" [.int 3]),
      .function shorter, .function main]⟩
    ∃ fuel, ∀ sink journal, ∃ result m,
      (runAtFuel fuel p (.fresh sink journal)).ending? = some (result, m) := by
  intro square twice shorter main p
  let rank (name : String) : Nat := if name = "main" then 2 else if name = "f" then 1 else 0
  have hdown : ∀ caller callee, p.Calls caller callee → rank callee < rank caller := by
    rintro _ callee ⟨f, hf, rfl, hcallee⟩
    have hfunction : f ∈ [square, twice, shorter, main] := by simpa [p] using hf
    have hbodies : ∀ f ∈ [square, twice, shorter, main], ∀ callee ∈ Expr.calleesOf f.body,
        rank callee < rank f.name := by decide
    exact hbodies f hfunction callee hcallee
  exact run_terminates (by decide) (Program.acyclic_of_rank rank hdown)

end Scriptlet
