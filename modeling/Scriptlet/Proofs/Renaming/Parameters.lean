import Mathlib.Data.List.Forall2
import Scriptlet.Proofs.Renaming.Simulation
import Scriptlet.Proofs.Runs.Processing

/-!
# The names of parameters are not seen

Two programs whose functions differ in the names of their parameters at most (`Definition.Alpha`) run
alike (`Scoped.run_endAlike`): they can be started both or neither, their definitions do the same one
after the other, and their entry points, which take no arguments, are the same function.

* `renameParameter_not_seen`: a parameter of a function in a program may get a new name.
-/

namespace Scriptlet

/-- Two definitions of the same global variable, or of functions that are equally well formed and
differ in the names of their parameters at most. -/
inductive Definition.Alpha : Definition → Definition → Prop where
  | function {f g : Function} : f.Alpha g → g.malformation? = f.malformation? →
      Alpha (.function f) (.function g)
  | global (x : String) (e : Expr) : Alpha (.global x e) (.global x e)

/-- A definition is like itself. -/
theorem Definition.Alpha.refl (d : Definition) : d.Alpha d := by
  cases d with
  | function f => exact .function (.refl f) rfl
  | global x e => exact .global x e

/-! ### Entry points -/

/-- The first functions of one name, if there are any, differ in the names of their parameters at
most. -/
theorem firstNamed_rel {ds ds' : List Definition} (h : List.Forall₂ Definition.Alpha ds ds')
    (name : String) :
    Option.Rel Function.Alpha (ds.findSome? (Definition.functionNamed? name))
      (ds'.findSome? (Definition.functionNamed? name)) := by
  induction h with
  | nil => exact .none
  | cons hd hds ih =>
    cases hd with
    | global x e => exact ih
    | @function f g hfg hwell =>
      simp only [List.findSome?_cons, Definition.functionNamed?, hfg.name_eq]
      by_cases hname : f.name = name
      · rw [if_pos hname, if_pos hname]
        exact .some hfg
      · rw [if_neg hname, if_neg hname]
        exact ih

/-- The programs can be started both or neither. -/
theorem hasEntryPoint_eq {p q : Program}
    (h : List.Forall₂ Definition.Alpha p.definitions q.definitions) :
    q.hasEntryPoint = p.hasEntryPoint := by
  have hlast := firstNamed_rel (List.rel_reverse h) entryName
  unfold Program.hasEntryPoint
  rw [p.lastParameters?_eq, q.lastParameters?_eq]
  revert hlast
  generalize p.definitions.reverse.findSome? _ = last
  generalize q.definitions.reverse.findSome? _ = last'
  rintro (@⟨f, g, hfg⟩ | -)
  · have hempty : g.parameters = [] ↔ f.parameters = [] := by
      rw [← List.length_eq_zero_iff, ← List.length_eq_zero_iff, hfg.length_parameters]
    rw [Bool.eq_iff_iff]
    simp [hempty]
  · rfl

/-! ### Runs -/

namespace Scoped

/-- Outside of calls, variables have no new names. -/
theorem evalAtFuel_simulates_self (fuel : Nat) (e : Expr) :
    Simulates (LocalsRenamed (fun _ => True) id) Eq (evalAtFuel fuel e) (evalAtFuel fuel e) := by
  have hself := evalAtFuel_follows fuel (fun _ => True) id e (faithful_id _) fun _ _ => trivial
  have hsame : e.rename id = e := Expr.rename_eq_self e fun _ _ => rfl
  rwa [hsame] at hself

variable {fuel : Nat}

/-- Definitions that differ in the names of parameters are processed alike. -/
theorem declareAtFuel_simulates {d d' : Definition} (h : d.Alpha d') :
    Simulates (LocalsRenamed (fun _ => True) id) Eq (declareAtFuel fuel d)
      (declareAtFuel fuel d') := by
  cases h with
  | @function f g hfg hwell =>
    simp only [declareAtFuel, hwell]
    cases f.malformation? with
    | some reason => exact .throw _
    | none => exact .modify fun s t hst => hst.register hfg
  | global x e =>
    apply (evalAtFuel_simulates_self fuel e).bind
    rintro v _ rfl
    exact .modify fun s t hst => hst.defineGlobal x v

/-- Definitions in order are processed alike if they differ in the names of parameters. -/
theorem declareAll_simulates {ds ds' : List Definition} (h : List.Forall₂ Definition.Alpha ds ds') :
    Simulates (LocalsRenamed (fun _ => True) id) Eq (forM ds (declareAtFuel fuel))
      (forM ds' (declareAtFuel fuel)) := by
  induction h with
  | nil => exact .pure rfl
  | cons hd hds ih =>
    rw [List.forM_cons, List.forM_cons]
    exact (declareAtFuel_simulates hd).bind fun _ _ _ => ih

/-- After the definitions of a program that can be started, its entry point is known. -/
theorem exists_entry {p : Program} {sink : Sink} {s : Scopes} (hentry : p.hasEntryPoint)
    (h : runFrom (forM p.definitions (declareAtFuel fuel)) (.fresh sink) = some (.ok (), s)) :
    ∃ main, s.functions.get? entryName = some main ∧ main.parameters = [] := by
  have hm : (Machine.fresh sink .silent).environment.Rooted := Environment.rooted_initial
  have hends := (declareAllAtFuel_refines fuel p.definitions).agrees _ hm
  rw [Machine.scopes_fresh, h] at hends
  cases hdeclared : Scriptlet.declareAllAtFuel fuel p.definitions (.fresh sink .silent) with
  | value u n =>
    rw [hdeclared] at hends
    cases hends
    exact exists_entry_of_declareAll hentry hdeclared
  | error reason n =>
    rw [hdeclared] at hends
    cases hends
  | outOfFuel =>
    rw [hdeclared] at hends
    cases hends

/-- Programs whose functions differ in the names of their parameters at most run alike. -/
theorem run_endAlike {p q : Program}
    (h : List.Forall₂ Definition.Alpha p.definitions q.definitions) (fuel : Nat) (sink : Sink) :
    EndAlike (LocalsRenamed (fun _ => True) id) Eq (runFrom (runAtFuel fuel p) (.fresh sink))
      (runFrom (runAtFuel fuel q) (.fresh sink)) := by
  have hfresh : (Scopes.fresh sink).Alike (LocalsRenamed (fun _ => True) id) (.fresh sink) :=
    ⟨fun _ => rfl, fun _ => .none, rfl, .refl _ _⟩
  unfold runAtFuel
  rw [hasEntryPoint_eq h]
  by_cases hentry : p.hasEntryPoint
  · rw [if_pos hentry, if_pos hentry]
    apply (declareAll_simulates h _ _ hfresh).bind
    intro _ _ s t hdeclared _ hst
    obtain ⟨main, hs, hparameters⟩ := exists_entry hentry hdeclared
    have hfound := hst.functions entryName
    rw [runFrom_read_bind, runFrom_read_bind]
    revert hfound
    rw [hs]
    generalize t.functions.get? entryName = found
    rintro (@⟨_, main', hsame⟩ | -)
    -- the entry point takes no arguments, so that nothing in it has a new name
    rw [hsame.eq_of_no_parameters hparameters]
    have hbody := evalBlock_simulates fun e (_ : e ∈ main.body) =>
      evalAtFuel_simulates_self fuel (id e)
    rw [List.map_id'] at hbody
    exact hbody s t hst
  · rw [if_neg hentry, if_neg hentry]
    exact .error hfresh

end Scoped

/-- A parameter of a function is not seen from outside: under a name that stands nowhere in the
program, all else is the same. Whatever the fuel, neither run ends without the other, and both have the
same value or error, have printed the same and leave the same global variables. The function may call
itself, others may have its name, and the parameter may have the name of a global variable. -/
theorem renameParameter_not_seen {before after : List Definition} {d : Function} {x y : String}
    (hdistinct : d.parameters.Nodup) (hx : x ∈ d.parameters) (hxne : x ≠ "") (hyne : y ≠ "")
    (hfresh : y ∉ (Program.mk (before ++ .function d :: after)).names) (sink : Sink)
    (journal : Journal) (fuel : Nat) :
    (runAtFuel fuel ⟨before ++ .function (d.renameParameter x y) :: after⟩
        (.fresh sink journal)).visible =
      (runAtFuel fuel ⟨before ++ .function d :: after⟩ (.fresh sink journal)).visible := by
  have hmentions : ¬ d.Mentions y := by
    intro hy
    apply hfresh
    apply List.mem_flatMap.mpr
    refine ⟨.function d, List.mem_append_right _ List.mem_cons_self, ?_⟩
    exact List.mem_cons_of_mem _ (List.mem_append.mpr hy)
  have hd : d.RenamedBy (replace x y) (d.renameParameter x y) :=
    Function.renamedBy_renameParameter hx hxne hyne hmentions
  have hwell := Function.malformation?_rename hd.faithful hdistinct
  have hsame : ∀ ds : List Definition, List.Forall₂ Definition.Alpha ds ds := fun ds =>
    List.forall₂_same.mpr fun e _ => .refl e
  have hprograms : List.Forall₂ Definition.Alpha (before ++ .function d :: after)
      (before ++ .function (d.renameParameter x y) :: after) :=
    List.rel_append (hsame before) (.cons (.function ⟨_, hd⟩ hwell) (hsame after))
  have hends := Scoped.run_endAlike (p := ⟨_⟩) (q := ⟨_⟩) hprograms fuel sink
  have hrefines : ∀ p : Program, (runAtFuel fuel p (.fresh sink journal)).onScopes =
      Scoped.runFrom (Scoped.runAtFuel fuel p) (.fresh sink) := fun p =>
    (runAtFuel_refines fuel p).agrees _ Environment.rooted_initial
  rw [Outcome.visible_eq_onScopes, Outcome.visible_eq_onScopes, hrefines, hrefines]
  exact hends.visible_eq

/-- A function that calls itself assigns its parameter, which has the name of a global variable, and
another function had its name before. -/
theorem renameParameter_not_seen_of_recursive_function :
    let f : Function := ⟨"f", ["n"], [.print (.var "n"),
      .assign "n" (.binary .subtract (.var "n") (.int 1)),
      .ifThen (.binary .lessThan (.int 0) (.var "n")) [.call "f" [.var "n"]]]⟩
    let before : List Definition := [.global "n" (.int 5), .function ⟨"f", [], [.var "n"]⟩]
    let after : List Definition := [.function ⟨"main", [], [.call "f" [.int 2], .var "n"]⟩]
    f.renameParameter "n" "k" = ⟨"f", ["k"], [.print (.var "k"),
      .assign "k" (.binary .subtract (.var "k") (.int 1)),
      .ifThen (.binary .lessThan (.int 0) (.var "k")) [.call "f" [.var "k"]]]⟩ ∧
    (runAtFuel 9 ⟨before ++ .function (f.renameParameter "n" "k") :: after⟩
        (.fresh .unlimited .silent)).visible =
      (runAtFuel 9 ⟨before ++ .function f :: after⟩ (.fresh .unlimited .silent)).visible ∧
    (runAtFuel 9 ⟨before ++ .function f :: after⟩ (.fresh .unlimited .silent)).visible.map
        (fun (result, global, sink) => (result, global "n", sink.texts)) =
      some (.ok 5, some 5, [['2'], ['1']]) := by
  intro f before after
  refine ⟨by decide, ?_, by decide +kernel⟩
  exact renameParameter_not_seen (by decide) (by decide) (by decide) (by decide) (by decide) _ _ 9

end Scriptlet
