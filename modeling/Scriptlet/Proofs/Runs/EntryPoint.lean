import Scriptlet.Proofs.Eval.Observation
import Scriptlet.Proofs.Runs.Processing

/-!
# The contract of a run

Whether a program can be started is made sure of before anything else happens, and from the program
alone. The function that is found there is still the one that is known by the name of the entry point
after the definitions are processed, whatever functions were known before and whatever the initial
values of global variables call, so that a run that has started never misses its entry point
(`ne_missingEntryPoint_of_startsAt`).

* `run_contract`: how a run ends and what it leaves, for every program and every machine.
-/

namespace Scriptlet

variable {fuel : Nat} {p : Program} {main : Function} {m n : Machine}

/-- A program that can be started does not miss its entry point. -/
theorem ne_missingEntryPoint_of_startsAt (hp : p.StartsAt main) :
    runAtFuel fuel p m ≠ .error .missingEntryPoint n := by
  intro h
  have hends := runEnds fuel p m
  rw [h] at hends
  cases hends with
  | notStarted hstarts => exact hstarts ⟨main, hp⟩
  | failed _ _ _ hd => exact hd.samePlace.2 rfl
  | bodyFailed _ _ hbody => exact ((evalBlockAtFuel_confined_any fuel _).samePlace_of_error hbody).2 rfl

/-- A run that ends has failed at a definition or got through them all. -/
theorem processing_of_ends (hp : p.StartsAt main) (h : runAtFuel fuel p m ≠ .outOfFuel) :
    (∃ before d after k reason n, p.definitions = before ++ d :: after ∧
      Processes fuel before (p.entered m) k ∧ FailsAt fuel d k reason n) ∨
    ∃ k, Processes fuel p.definitions (p.entered m) k := by
  have hends := runEnds fuel p m
  generalize runAtFuel fuel p m = outcome at hends h
  cases hends with
  | notStarted hstarts => exact absurd ⟨main, hp⟩ hstarts
  | failed _ hsplit hbefore hd => exact .inl ⟨_, _, _, _, _, _, hsplit, hbefore, hd⟩
  | bodyFailed _ hk _ => exact .inr ⟨_, hk⟩
  | returned _ hk _ => exact .inr ⟨_, hk⟩
  | outOfFuel => exact absurd rfl h

/-- A run misses its entry point exactly if the program does not start at a function, and then does
nothing. Otherwise it processes the definitions in order. If one of them fails, the run fails with its
error where that definition has left it, and just the functions before it have become known; what comes
behind it makes no difference. If none fails, the run ends as the body of the function at which the
program starts does, evaluated in the frame in which the run started. -/
theorem run_contract (fuel : Nat) (p : Program) (m : Machine) :
    ((∃ n, runAtFuel fuel p m = .error .missingEntryPoint n) ↔ ¬∃ main, p.StartsAt main) ∧
    (∀ n, runAtFuel fuel p m = .error .missingEntryPoint n →
      n.environment = m.environment ∧ n.functions = m.functions ∧ n.sink = m.sink) ∧
    ∀ main, p.StartsAt main →
      (∀ before d after k reason n, p.definitions = before ++ d :: after →
        Processes fuel before (p.entered m) k → FailsAt fuel d k reason n →
          runAtFuel fuel p m = .error reason (n.record .exitMain) ∧
          n.functions = registerAll m.functions before) ∧
      (∀ k, Processes fuel p.definitions (p.entered m) k →
        runAtFuel fuel p m = (evalBlockAtFuel fuel main.body k).returned ∧
        k.functions = registerAll m.functions p.definitions ∧
        k.functions.get? entryName = some main ∧
        k.environment.current = m.environment.current) ∧
      (runAtFuel fuel p m ≠ .outOfFuel →
        (∃ before d after k reason n, p.definitions = before ++ d :: after ∧
          Processes fuel before (p.entered m) k ∧ FailsAt fuel d k reason n) ∨
        ∃ k, Processes fuel p.definitions (p.entered m) k) := by
  refine ⟨⟨?_, ?_⟩, ?_, ?_⟩
  · rintro ⟨n, hmissing⟩ ⟨main, hp⟩
    exact ne_missingEntryPoint_of_startsAt hp hmissing
  · intro hp
    exact ⟨_, runAtFuel_of_not_startsAt hp⟩
  · intro n hmissing
    have hp : ¬∃ main, p.StartsAt main := fun ⟨main, hp⟩ =>
      ne_missingEntryPoint_of_startsAt hp hmissing
    rw [runAtFuel_of_not_startsAt hp] at hmissing
    cases hmissing
    exact ⟨rfl, rfl, rfl⟩
  · intro main hp
    refine ⟨?_, ?_, processing_of_ends hp⟩
    · intro before d after k reason n hsplit hbefore hd
      have hsame := hd.samePlace.1.functions
      exact ⟨runAtFuel_of_failsAt hp hsplit hbefore hd, hsame.trans hbefore.functions⟩
    · intro k hk
      exact ⟨runAtFuel_of_processes hp hk, hk.functions, hp.known hk, hk.current⟩

/-- A program fails at its second global variable, on a machine that knows an entry point and both of
its variables from earlier. -/
theorem run_contract_of_failing_global :
    let old : Function := ⟨"main", [], [.int 1]⟩
    let f : Function := ⟨"f", ["n"], [.assign "a" (.var "n")]⟩
    let main : Function := ⟨"main", [], [.print (.int 2)]⟩
    let before : List Definition := [.global "a" (.print (.int 3)), .function f]
    let d : Definition := .global "b" (.binary .divide (.call "f" [.int 4]) (.int 0))
    let p : Program := ⟨before ++ d :: [.function main]⟩
    let m := ((Machine.fresh .unlimited .silent).register old).defineGlobal "b" 5
    p.StartsAt main ∧ ∃ n : Machine, runAtFuel 9 p m = .error .divisionByZero (n.record .exitMain) ∧
      n.functions = registerAll m.functions before ∧ n.functions.get? entryName = some old ∧
      n.globalOf? "a" = some 4 ∧ n.globalOf? "b" = some 5 ∧ n.sink.texts = [['3']] := by
  intro old f main before d p m
  have hp : p.StartsAt main := ⟨rfl, rfl, before ++ [d], [], rfl, fun _ h => absurd h List.not_mem_nil⟩
  have hbefore : Processes 9 before (p.entered m) _ :=
    .global rfl (.function (by decide) (by decide) (.nil _))
  obtain ⟨hrun, hfunctions⟩ :=
    ((run_contract 9 p m).2.2 main hp).1 before d _ _ _ _ rfl hbefore (.global rfl)
  exact ⟨hp, _, hrun, hfunctions, by decide +kernel, by decide +kernel, by decide +kernel,
    by decide +kernel⟩

end Scriptlet
