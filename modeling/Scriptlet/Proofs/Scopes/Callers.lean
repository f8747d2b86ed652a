import Scriptlet.Proofs.Renaming.Simulation

/-!
# Calls do not see their callers

A call starts with its parameters as its only variables, and beyond these it sees the global ones. If
its arguments are literals, nothing that its caller binds is read at all. Two machines with the same
global variables, functions and sink therefore do the same in it, whatever frames they have on their
stacks. That these are frames of calls, with the global frame around them, is all that is asked of the
stacks (`Environment.Rooted`), and it holds wherever a run gets.

* `call_ignores_callers`: a call with literal arguments ends alike at two such machines.
-/

namespace Scriptlet

/-- Over two scopes, a call with literal arguments ends alike, whatever the variables of its callers
are. -/
theorem Scoped.call_simulates (fuel : Nat) (f : String) (values : List Value) :
    Simulates (fun _ _ => True) Eq (evalAtFuel fuel (.call f (values.map .int)))
      (evalAtFuel fuel (.call f (values.map .int))) := by
  cases fuel with
  | zero => exact .outOfFuel
  | succ fuel =>
    have hliteral : ∀ e ∈ values.map Expr.int,
        Simulates (fun _ _ => True) Eq (evalAtFuel fuel e) (evalAtFuel fuel (id e)) := by
      intro e he
      obtain ⟨v, -, rfl⟩ := List.mem_map.mp he
      cases fuel with
      | zero => exact .outOfFuel
      | succ fuel => exact .pure rfl
    have hcall := evalCall_simulates hliteral (evalAtFuel_follows fuel) f
    rwa [List.map_id] at hcall

/-- Machines with the same global variables, functions and sink look alike to a call, whatever else is
on their stacks. -/
theorem Machine.alike_scopes {m n : Machine} (hglobals : ∀ x, m.globalOf? x = n.globalOf? x)
    (hfunctions : ∀ f, m.functions.get? f = n.functions.get? f) (hsink : m.sink = n.sink) :
    m.scopes.Alike (fun _ _ => True) n.scopes where
  globals := by
    intro x
    have hx := hglobals x
    unfold globalOf? at hx
    rw [Environment.own?_eq_get?, Environment.own?_eq_get?] at hx
    exact hx.symm
  functions := by
    intro f
    change Option.Rel Function.Alpha (m.functions.get? f) (n.functions.get? f)
    rw [hfunctions]
    cases n.functions.get? f with
    | none => exact .none
    | some g => exact .some (.refl g)
  sink := hsink.symm
  locals := trivial

/-- A call with literal arguments depends on the global variables, the functions and the sink only. At
two machines that have the same ones, it ends at one of them exactly if it ends at the other, with the
same value or error, after printing the same, and with the same global variables. The frames of the
calls that are pending there may be as many and as different as they like. -/
theorem call_ignores_callers {m n : Machine} (hm : m.environment.Rooted)
    (hn : n.environment.Rooted) (hglobals : ∀ x, m.globalOf? x = n.globalOf? x)
    (hfunctions : ∀ f, m.functions.get? f = n.functions.get? f) (hsink : m.sink = n.sink)
    (f : String) (values : List Value) (fuel : Nat) :
    (evalAtFuel fuel (.call f (values.map .int)) m).visible =
      (evalAtFuel fuel (.call f (values.map .int)) n).visible := by
  have hends := Scoped.call_simulates fuel f values m.scopes n.scopes
    (Machine.alike_scopes hglobals hfunctions hsink)
  rw [Outcome.visible_eq_onScopes, Outcome.visible_eq_onScopes,
    (evalAtFuel_refines fuel _).agrees m hm, (evalAtFuel_refines fuel _).agrees n hn]
  exact hends.visible_eq.symm

/-- A function reads a variable that only its callers bind, in a call at the top and in one that two
other calls are waiting for. -/
theorem call_ignores_callers_of_unbound_variable :
    let f : Function :=
      ⟨"f", ["n"], [.print (.var "n"), .assign "g" (.var "n"), .assign "y" (.int 5), .var "x"]⟩
    let m := ((Machine.fresh .unlimited .silent).defineGlobal "g" 1).register f
    let n := (m.enterFrame [("x", 7), ("y", 2)]).enterFrame [("n", 8), ("x", 9)]
    m.environment.depth = 1 ∧ n.environment.depth = 3 ∧
      (evalAtFuel 4 (.call "f" [.int 3]) m).visible =
        (evalAtFuel 4 (.call "f" [.int 3]) n).visible ∧
      (evalAtFuel 4 (.call "f" [.int 3]) n).visible.map
          (fun (result, global, sink) => (result, global "g", global "y", sink.texts)) =
        some (.error (.unboundVariable "x"), some 3, none, [['3']]) := by
  intro f m n
  have hm : m.environment.Rooted := Environment.rooted_initial.set _ _ _
  have hentered : (m.environment.enter [("x", 7), ("y", 2)]).Rooted := Environment.rooted_enter hm _
  have hn : n.environment.Rooted := Environment.rooted_enter hentered _
  refine ⟨rfl, by decide +kernel, ?_, by decide +kernel⟩
  apply call_ignores_callers hm hn _ (fun _ => rfl) rfl "f" [3] 4
  intro x
  have hinner := Environment.frames_enter hentered.global_lt [("n", 8), ("x", 9)]
  have houter := Environment.frames_enter hm.global_lt [("x", 7), ("y", 2)]
  exact (Environment.own?_congr (hinner.trans houter) x).symm

end Scriptlet
