import Scriptlet.Proofs.Eval.Discipline
import Scriptlet.Proofs.Eval.Fuel
import Scriptlet.Proofs.Printer.Names
import Scriptlet.Proofs.Runs.Processing

/-!
# Malformed programs in source text

The trees that are read from source text have names that can be written, and so assign to no empty name
and define no function without a name. In a session whose trees all come from source text
(`Machine.Sourced`), this is true of the functions that are known as well, and evaluation calls no others.
Of the ways in which a tree may be malformed, a run therefore comes upon one only: a function with a
parameter that is repeated.

* `malformed_iff_repeated_parameter`: when that happens, and what the error says.
-/

namespace Scriptlet

open Scriptlet.Action

/-! ### Trees that are read -/

mutual

/-- An expression assigns to names that stand in it. -/
theorem Expr.targets_sublist_names : (e : Expr) → e.targets.Sublist e.names
  | .int _ => List.nil_sublist _
  | .var _ => List.nil_sublist _
  | .assign x e => e.targets_sublist_names.cons_cons x
  | .binary _ l r => l.targets_sublist_names.append r.targets_sublist_names
  | .block b => Expr.targetsOf_sublist_namesOf b
  | .whileDo e b => e.targets_sublist_names.append (Expr.targetsOf_sublist_namesOf b)
  | .ifThen e b => e.targets_sublist_names.append (Expr.targetsOf_sublist_namesOf b)
  | .ifElse e b d =>
    (e.targets_sublist_names.append (Expr.targetsOf_sublist_namesOf b)).append
      (Expr.targetsOf_sublist_namesOf d)
  | .print e => e.targets_sublist_names
  | .call f a => (Expr.targetsOf_sublist_namesOf a).cons f

/-- Among the names of several expressions are those that they assign to. -/
theorem Expr.targetsOf_sublist_namesOf : (es : List Expr) →
    (Expr.targetsOf es).Sublist (Expr.namesOf es)
  | [] => List.nil_sublist _
  | e :: es => e.targets_sublist_names.append (Expr.targetsOf_sublist_namesOf es)

end

/-- A definition assigns to names that stand in it. -/
theorem Definition.targets_sublist_names (d : Definition) : d.targets.Sublist d.names := by
  cases d with
  | function f =>
    exact (Expr.targetsOf_sublist_namesOf f.body).trans (List.sublist_append_right _ _)
  | global x e => exact e.targets_sublist_names.cons x

/-- Names that can be written are not empty. -/
theorem WellNamed.ne_empty {xs : List String} (h : WellNamed xs) : ∀ x ∈ xs, x ≠ "" := by
  rintro x hx rfl
  have hname := h "" hx
  cases hname

/-- The definitions assign to no empty name, and each function has a name. -/
structure Program.Named (p : Program) : Prop where
  targets : ∀ d ∈ p.definitions, ∀ x ∈ d.targets, x ≠ ""
  functions : ∀ f, .function f ∈ p.definitions → f.name ≠ ""

/-- In a program that is read, nothing has the empty name. -/
theorem Program.named_of_ofString {source : String} {p : Program}
    (h : Program.ofString source = .ok p) : p.Named := by
  have hnames := (Program.wellNamed_of_parse h).ne_empty
  have hmem : ∀ d ∈ p.definitions, ∀ x ∈ d.names, x ≠ "" := fun d hd x hx =>
    hnames x (List.mem_flatMap.mpr ⟨d, hd, hx⟩)
  refine ⟨?_, ?_⟩
  · exact fun d hd x hx => hmem d hd x (d.targets_sublist_names.subset hx)
  · exact fun f hf => hmem _ hf f.name List.mem_cons_self

/-! ### What runs come upon -/

variable {fuel : Nat} {p : Program} {main : Function} {m n k : Machine} {why : Malformation}

/-- Definitions make known what assigns to names of a kind only, if they do so themselves. -/
theorem Processes.assignsOnly {N : String → Prop} {ds : List Definition} (h : Processes fuel ds m k)
    (hds : ∀ d ∈ ds, ∀ x ∈ d.targets, N x) (hm : m.AssignsOnly N) : k.AssignsOnly N := by
  intro name f hf
  rw [h.functions] at hf
  rcases mem_or_of_get?_registerAll hf with hmem | hknown
  · exact hds _ hmem
  · exact hm name f hknown

/-- The entry point is one of the definitions of the program. -/
theorem Program.StartsAt.mem (hp : p.StartsAt main) : .function main ∈ p.definitions := by
  obtain ⟨before, after, hsplit, -⟩ := hp.last
  rw [hsplit]
  exact List.mem_append_right before List.mem_cons_self

/-- What stands before a definition of a program is one of its definitions. -/
theorem mem_of_split {before after : List Definition} {d e : Definition}
    (h : p.definitions = before ++ d :: after) (he : e ∈ before) : e ∈ p.definitions := by
  rw [h]
  exact List.mem_append_left _ he

/-- Evaluation that assigns to no empty name finds no tree malformed. -/
theorem not_raised_malformed : ¬ (EvalError.malformed why).Raised (· ≠ "") := by
  cases why with
  | emptyTarget => exact fun h => h rfl
  | unnamedFunction => exact id
  | repeatedParameter x f => exact id

/-- A run finds only a function malformed, for its first repeated parameter, once the definitions before
it are processed. -/
theorem repeated_of_malformed (hnamed : p.Named) (hm : m.AssignsOnly (· ≠ ""))
    (h : runAtFuel fuel p m = .error (.malformed why) n) :
    (∃ main, p.StartsAt main) ∧ ∃ before f after x k, p.definitions = before ++ .function f :: after ∧
      IsFirstRepeated x f.parameters ∧ Processes fuel before (p.entered m) k ∧
      why = .repeatedParameter x f.name := by
  have hends := runEnds fuel p m
  rw [h] at hends
  cases hends with
  | @failed main before after d k _ _ hp hsplit hbefore hd =>
    have hmem : d ∈ p.definitions := hsplit ▸ List.mem_append_right before List.mem_cons_self
    cases hd with
    | unnamed _ hempty => exact absurd hempty (hnamed.functions _ hmem)
    | repeated _ _ hx => exact ⟨⟨main, hp⟩, before, _, after, _, _, hsplit, hx, hbefore, rfl⟩
    | global hinitial =>
      have hk := hbefore.assignsOnly (fun d hd => hnamed.targets d (mem_of_split hsplit hd)) hm
      have hraised := ((evalAtFuel_confined fuel (hnamed.targets _ hmem)).of_error hk hinitial).2
      exact absurd hraised not_raised_malformed
  | bodyFailed hp hk hbody =>
    have hassigns := hk.assignsOnly hnamed.targets hm
    have hraised := ((evalBlockAtFuel_confined fuel (hnamed.targets _ hp.mem)).of_error
      hassigns hbody).2
    exact absurd hraised not_raised_malformed

/-! ### Sessions -/

/-- The request brings in trees by their source text only. -/
def Request.FromSource : Request → Prop
  | .evaluate _ => False
  | .evaluateSource _ => True
  | .evaluateBlock _ => False
  | .runProgram _ => False
  | .runSource _ => True
  | .getVariable _ => True
  | .setVariable _ _ => True

/-- A machine that a session reaches whose trees all come from source text. -/
inductive Machine.Sourced : Machine → Prop where
  | fresh (sink : Sink) (journal : Journal) : Sourced (.fresh sink journal)
  /-- A request was served, with a result or an error. -/
  | served {fuel : Nat} {request : Request} {answer : Answer} {m n : Machine} :
      Sourced m → request.FromSource → serve fuel request m = some (answer, n) → Sourced n

/-- However a run ends, the functions that are known afterwards assign to names as they did before and
as the definitions do. -/
theorem assignsOnly_of_run {N : String → Prop} (hp : ∀ d ∈ p.definitions, ∀ x ∈ d.targets, N x)
    (hm : m.AssignsOnly N) (h : (runAtFuel fuel p m).state? = some n) : n.AssignsOnly N := by
  have hends := runEnds fuel p m
  generalize runAtFuel fuel p m = outcome at hends h
  cases hends with
  | notStarted _ =>
    cases h
    exact hm
  | failed _ hsplit hbefore hd =>
    cases h
    have hk := hbefore.assignsOnly (fun d hd => hp d (mem_of_split hsplit hd)) hm
    exact hd.samePlace.1.assignsOnly hk
  | bodyFailed _ hk hbody =>
    cases h
    have hsame := ((evalBlockAtFuel_confined_any fuel _).samePlace_of_error hbody).1
    exact hsame.assignsOnly (hk.assignsOnly hp hm)
  | returned _ hk hbody =>
    cases h
    have hsame := (evalBlockAtFuel_confined_any fuel _).samePlace hbody
    exact hsame.assignsOnly (hk.assignsOnly hp hm)
  | outOfFuel => cases h

/-- However a confined action ends, it does so in the place in which it started. -/
theorem samePlace_of_state? {α : Type} {q : Action α} (hq : Confined (fun _ => True) q)
    (h : (q m).state? = some n) : m.SamePlace n := by
  cases hends : q m with
  | value a k =>
    rw [hends] at h
    cases h
    exact hq.samePlace hends
  | error reason k =>
    rw [hends] at h
    cases h
    exact (hq.samePlace_of_error hends).1
  | outOfFuel =>
    rw [hends] at h
    cases h

/-- What comes from source text makes known functions that assign to no empty name. -/
theorem Machine.Sourced.assignsOnly (h : m.Sourced) : m.AssignsOnly (· ≠ "") := by
  induction h with
  | fresh sink journal =>
    intro name f hf
    cases hf
  | @served fuel request answer m n _ hsource hserve ih =>
    have ended : ∀ {q : Action Value} {f : Except ScriptError Value × Machine → Answer × Machine},
        (∀ l, (q m).state? = some l → l.AssignsOnly (· ≠ "")) → (∀ x, (f x).2 = x.2) →
        (q m).ended?.map f = some (answer, n) → n.AssignsOnly (· ≠ "") := by
      intro q f hq hf hmap
      obtain ⟨x, hended, heq⟩ := Option.map_eq_some_iff.mp hmap
      have hlast : x.2 = n := by rw [← hf x, heq]
      exact hq n (hlast ▸ state?_of_ended? hended)
    cases request with
    | evaluate e => exact hsource.elim
    | evaluateBlock b => exact hsource.elim
    | runProgram p => exact hsource.elim
    | evaluateSource s =>
      change (evaluateSource fuel s m).map _ = _ at hserve
      unfold evaluateSource at hserve
      split at hserve
      · refine ended (fun l hl => ?_) (fun _ => rfl) hserve
        exact (samePlace_of_state? (evalAtFuel_confined_any fuel _) hl).assignsOnly ih
      · cases hserve
        exact ih
    | runSource s =>
      change (runSource fuel s m).map _ = _ at hserve
      unfold runSource at hserve
      split at hserve
      next p hp =>
        refine ended (fun l hl => ?_) (fun _ => rfl) hserve
        exact assignsOnly_of_run (Program.named_of_ofString hp).targets ih hl
      · cases hserve
        exact ih
    | getVariable x =>
      cases hserve
      exact ih
    | setVariable x v =>
      cases hserve
      exact ih

/-! ### Exactly when a program is malformed -/

/-- A source that holds a program is run like the program. -/
theorem runSource_of_ok {source : String} (hp : Program.ofString source = .ok p) :
    runSource fuel source m = (runAtFuel fuel p m).ended? := by
  unfold runSource
  rw [hp]
  rfl

/-- A run of source text fails as the run of its program does. -/
theorem ended?_eq_error_iff {α : Type} {outcome : Outcome α} {reason : EvalError} :
    outcome.ended? = some (.error (.eval reason), n) ↔ outcome = .error reason n := by
  cases outcome <;> simp [Outcome.ended?]

/-- A run of source text that holds a program fails with a malformed tree exactly if the program can be
started, one of its functions repeats a parameter, and the global variables before the first such function
get their initial values. The error names the function's first parameter that is equal to an earlier one.
Trees without a name are never found, whatever source texts a session has served before. -/
theorem malformed_iff_repeated_parameter {source : String} (hp : Program.ofString source = .ok p) :
    (∀ fuel sink journal result n,
      runSource fuel source (.fresh sink journal) = some (result, n) →
      ∀ why, result = .error (.eval (.malformed why)) ↔
        (∃ main, p.StartsAt main) ∧
        ∃ before f after x, p.definitions = before ++ .function f :: after ∧
          (∀ g, .function g ∈ before → g.parameters.Nodup) ∧ IsFirstRepeated x f.parameters ∧
          (∃ fuel' k, Processes fuel' before (p.entered (.fresh sink journal)) k) ∧
          why = .repeatedParameter x f.name) ∧
    ∀ fuel m n, m.Sourced →
      runSource fuel source m ≠ some (.error (.eval (.malformed .emptyTarget)), n) ∧
      runSource fuel source m ≠ some (.error (.eval (.malformed .unnamedFunction)), n) := by
  have hnamed := Program.named_of_ofString hp
  constructor
  · intro fuel sink journal result n hrun why
    rw [runSource_of_ok hp] at hrun
    constructor
    · rintro rfl
      have herror := ended?_eq_error_iff.mp hrun
      obtain ⟨hstarts, before, f, after, x, k, hsplit, hx, hbefore, hwhy⟩ :=
        repeated_of_malformed hnamed (Machine.Sourced.fresh sink journal).assignsOnly herror
      exact ⟨hstarts, before, f, after, x, hsplit, fun g => hbefore.nodup, hx, ⟨fuel, k, hbefore⟩, hwhy⟩
    · rintro ⟨⟨main, hmain⟩, before, f, after, x, hsplit, -, hx, ⟨fuel', k, hbefore⟩, rfl⟩
      have hmem : .function f ∈ p.definitions := hsplit ▸ List.mem_append_right before List.mem_cons_self
      have hfails := runAtFuel_of_failsAt hmain hsplit hbefore
        (.repeated k (hnamed.functions f hmem) hx)
      -- the run and the one that fails need not have the same fuel, but both end
      have hends : runAtFuel fuel p (.fresh sink journal) ≠ .outOfFuel := by
        intro hend
        rw [hend] at hrun
        cases hrun
      have hends' : runAtFuel fuel' p (.fresh sink journal) ≠ .outOfFuel := by
        rw [hfails]
        nofun
      rw [runAtFuel_unique hends hends', hfails] at hrun
      cases hrun
      rfl
  · intro fuel m n hm
    have hnever : ∀ why, (∀ x f, why ≠ .repeatedParameter x f) →
        runSource fuel source m ≠ some (.error (.eval (.malformed why)), n) := by
      intro why hwhy hrun
      rw [runSource_of_ok hp] at hrun
      obtain ⟨-, before, f, after, x, k, -, -, -, heq⟩ :=
        repeated_of_malformed hnamed hm.assignsOnly (ended?_eq_error_iff.mp hrun)
      exact hwhy x f.name heq
    exact ⟨hnever _ nofun, hnever _ nofun⟩

/-- The first of two functions that repeat parameters stands behind a global variable that prints. -/
theorem malformed_iff_repeated_parameter_of_second_parameter :
    let source := "global a = println(7) define f(x, y, y, x) \x7b\x7d define f(z, z) \x7b\x7d define main() \x7b\x7d"
    ∃ n, runSource 9 source (.fresh .unlimited .silent) =
        some (.error (.eval (.malformed (.repeatedParameter "y" "f"))), n) ∧
      n.sink.texts = [['7']] := by
  intro source
  let before : List Definition := [.global "a" (.print (.int 7))]
  let f : Function := ⟨"f", ["x", "y", "y", "x"], []⟩
  let main : Function := ⟨"main", [], []⟩
  let p : Program := ⟨before ++ .function f :: [.function ⟨"f", ["z", "z"], []⟩, .function main]⟩
  have hp : Program.ofString source = .ok p := by decide +kernel
  have hprinted : (runSource 9 source (.fresh .unlimited .silent)).map (·.2.sink.texts) =
      some [['7']] := by decide +kernel
  obtain ⟨⟨result, n⟩, hrun, hsink⟩ := Option.map_eq_some_iff.mp hprinted
  have hmain : p.StartsAt main :=
    ⟨rfl, rfl, before ++ [.function f, .function ⟨"f", ["z", "z"], []⟩], [], rfl,
      fun _ h => absurd h List.not_mem_nil⟩
  have hbefore : ∃ fuel k, Processes fuel before (p.entered (.fresh .unlimited .silent)) k :=
    ⟨9, _, .global rfl (.nil _)⟩
  have hresult := ((malformed_iff_repeated_parameter hp).1 9 _ _ result n hrun
    (.repeatedParameter "y" "f")).mpr ⟨⟨main, hmain⟩, before, f, _, "y", rfl,
      fun g hg => by simp [before] at hg, ⟨["x", "y"], ["x"], rfl, by decide, by decide⟩, hbefore, rfl⟩
  exact ⟨n, hresult ▸ hrun, hsink⟩

end Scriptlet
