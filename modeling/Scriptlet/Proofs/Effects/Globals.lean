import Mathlib.Data.Set.Insert
import Scriptlet.Proofs.Eval.Observation
import Scriptlet.Proofs.Eval.Reachable
import Scriptlet.Proofs.Scopes.Projection

/-!
# Global variables that calls leave alone

Which global variables a call leaves alone can be read off the functions that it may come to. Let a set
of functions be closed under calls, and let each of them have a parameter of some name or assign to no
variable of that name (`Table.Spares`). Then no call of one of them writes to the global variable:

* A call binds its parameters before its body starts, and what is bound stays bound. An assignment to
  the name of a parameter therefore writes to the frame of the call (`Machine.InCall.assign`).
* An assignment to another name may write to the global frame, but not to this variable there.
* A function that is called from the set is in the set, and its call starts with a frame of its own
  (`evalCall_keptWith`). Whether the variable is hidden there depends on its own parameters alone.

The induction is on fuel, over all calls of the set at once (`evalAtFuel_sparing`). As everywhere, that
every frame but the global one is that of a call (`Environment.Rooted`) is all that is asked of frames,
and it holds wherever a run gets.

* `call_leaves_global`: a call of a function of the set leaves the global variable as it was.
-/

namespace Scriptlet

open Scriptlet.Action

/-! ### Sets of functions -/

/-- The functions of a set spare the global variable of a name: a call of one of them comes to functions
of the set only, and none of these assigns to the variable, as its syntax shows. -/
structure Table.Spares (known : Table Function) (F : Set String) (g : String) : Prop where
  closed : ∀ name ∈ F, ∀ f, known.get? name = some f → ∀ callee ∈ Expr.calleesOf f.body, callee ∈ F
  /-- A parameter of the name hides the global variable. -/
  spared : ∀ name ∈ F, ∀ f, known.get? name = some f →
    g ∈ f.parameters ∨ g ∉ Expr.targetsOf f.body

variable {F : Set String} {g : String} {hidden : Prop} {m n : Machine}

/-- An evaluation makes no function known that might not spare the variable. -/
theorem Machine.Kept.spares (h : m.Kept n) (hF : m.functions.Spares F g) :
    n.functions.Spares F g := by
  rw [h.functions]
  exact hF

/-! ### What is kept -/

/-- What an evaluation keeps of a machine if it leaves one global variable alone. -/
structure Machine.KeptWith (g : String) (before after : Machine) : Prop where
  kept : before.Kept after
  globalOf? : after.globalOf? g = before.globalOf? g

namespace Machine.KeptWith

/-- The global variable is as before if all variables are. -/
theorem of_environment_eq (h : m.Kept n) (henv : n.environment = m.environment) :
    m.KeptWith g n := by
  refine ⟨h, ?_⟩
  unfold Machine.globalOf?
  rw [henv]

/-- A report leaves the global variable as it is. -/
theorem record (m : Machine) (event : Event) : m.KeptWith g (m.record event) :=
  of_environment_eq (.record m event) rfl

/-- A print leaves the global variable as it is. -/
theorem print (m : Machine) (sink : Sink) : m.KeptWith g { m with sink } :=
  of_environment_eq (.print m sink) rfl

/-- A call starts and ends with the global frame that its body finds and leaves. -/
theorem leaveFrame (hm : m.environment.Rooted) {bindings : List (String × Value)}
    (h : (m.enterFrame bindings).KeptWith g n) : m.KeptWith g n.leaveFrame := by
  refine ⟨.leaveFrame hm h.kept, ?_⟩
  have hbody := h.kept.environment
  have hglobal := h.globalOf?
  unfold Machine.globalOf? at hglobal ⊢
  rw [Machine.environment_enterFrame] at hbody hglobal
  calc n.leaveFrame.environment.own? Environment.global g
      = n.environment.own? Environment.global g :=
        Environment.own?_congr (Environment.frames_pop_call hbody hm.global_lt) g
    _ = (m.environment.enter bindings).own? Environment.global g := hglobal
    _ = m.environment.own? Environment.global g :=
        Environment.own?_congr (Environment.frames_enter hm.global_lt bindings) g

end Machine.KeptWith

/-- What leaves the global variable as it is passes from step to step. -/
instance : Persistent (Machine.KeptWith g) :=
  ⟨fun m => .of_environment_eq (.refl m) rfl,
    fun h h' => ⟨h.kept.trans h'.kept, h'.globalOf?.trans h.globalOf?⟩, fun h => h.kept.rooted⟩

/-! ### Calls of the set -/

/-- A call of a function of the set goes on, in which the global variable is hidden or not. -/
structure Machine.InCall (F : Set String) (g : String) (hidden : Prop) (m : Machine) : Prop where
  rooted : m.environment.Rooted
  current : m.environment.current ≠ Environment.global
  spares : m.functions.Spares F g
  bound : hidden → (m.environment.own? m.environment.current g).isSome

namespace Machine.InCall

/-- Whatever is evaluated in a call, the call goes on, with what is bound in it. -/
theorem of_kept (h : m.InCall F g hidden) (hk : m.Kept n) : n.InCall F g hidden where
  rooted := hk.rooted h.rooted
  current := by
    rw [hk.environment.current]
    exact h.current
  spares := hk.spares h.spares
  bound := by
    intro hhidden
    rw [hk.environment.current]
    exact hk.environment.bound _ _ (h.bound hhidden)

/-- A call hides a global variable that has the name of a parameter. -/
theorem enterFrame (hm : m.environment.Rooted) (hF : m.functions.Spares F g)
    {parameters : List String} {values : List Value} (hlength : parameters.length = values.length) :
    (m.enterFrame (parameters.zip values)).InCall F g (g ∈ parameters) := by
  have hcurrent : (m.enterFrame (parameters.zip values)).environment.current ≠
      Environment.global := by
    rw [Machine.environment_enterFrame]
    exact Environment.current_enter_ne_global hm.depth_pos _
  refine ⟨Machine.rooted_enterFrame hm _, hcurrent, hF, fun hg => ?_⟩
  have hlocals := Environment.locals?_enter hm (parameters.zip values)
  rw [← Machine.environment_enterFrame, Environment.locals?_of_call hcurrent] at hlocals
  rw [Environment.own?_eq_get?, Option.some.inj hlocals]
  exact Scoped.isSome_get?_bindAll hlength hg

/-- An assignment in a call writes to the global variable only if it is one to that name, and the
variable is not hidden. -/
theorem assign (h : m.InCall F g hidden) {x : String} (hx : x = g → hidden) (v : Value) :
    m.KeptWith g (m.assign x v).2 := by
  refine ⟨.assign h.rooted x v, ?_⟩
  change (m.environment.assign m.environment.current x v).2.own? Environment.global g =
    m.environment.own? Environment.global g
  have hlocal : (m.environment.set m.environment.current x v).own? Environment.global g =
      m.environment.own? Environment.global g := by
    rw [Environment.own?_set h.rooted.current_lt, if_neg fun heq => h.current heq.1]
  rw [Environment.assign_current h.rooted]
  split
  case isTrue => exact hlocal
  case isFalse hown =>
    split
    case isFalse => exact hlocal
    case isTrue =>
      -- the call binds no variable of the name, so that the name is not that of the hidden variable
      have hne : x ≠ g := by
        rintro rfl
        rw [← Environment.isSome_own?] at hown
        exact hown (h.bound (hx rfl))
      rw [Environment.own?_set h.rooted.global_lt, if_neg fun heq => hne heq.2]

end Machine.InCall

/-! ### Evaluation in calls of the set -/

/-- In every call of the set, an action leaves the global variable alone. -/
def Action.Sparing (F : Set String) (g : String) (hidden : Prop) {α : Type} (p : Action α) : Prop :=
  ∀ m : Machine, m.InCall F g hidden → KeepsAt (Machine.KeptWith g) p m

namespace Action.Sparing

variable {α β : Type}

/-- What leaves the global variable alone everywhere does so in the calls of the set. -/
theorem of_keeps {p : Action α} (hp : Keeps (Machine.KeptWith g) p) : Sparing F g hidden p :=
  fun m hm => hp m hm.rooted

/-- A sequence leaves it alone if its parts do. -/
theorem bind {p : Action α} {f : α → Action β} (hp : Sparing F g hidden p)
    (hf : ∀ a, Sparing F g hidden (f a)) : Sparing F g hidden (p >>= f) :=
  fun m hm => (hp m hm).bind fun a k _ hk => hf a k (hm.of_kept hk.kept)

/-- A value is given without touching it. -/
theorem pure (a : α) : Sparing F g hidden (pure a : Action α) :=
  of_keeps (.pure a)

/-- Leaving the global variable alone is a property that sequences inherit. -/
theorem sequential : Sequential fun _ => Sparing F g hidden :=
  ⟨pure, of_keeps .outOfFuel, bind⟩

end Action.Sparing

open Scriptlet.Action (Sparing)

/-- The names that stand in the body of a call of the set: it calls functions of the set only, and
assigns to the global variable's name only if that is hidden. -/
structure Harmless (F : Set String) (g : String) (hidden : Prop) (callees targets : List String) :
    Prop where
  callees : ∀ f ∈ callees, f ∈ F
  targets : ∀ x ∈ targets, x = g → hidden

namespace Harmless

/-- What is harmless together is so apart. -/
theorem split {callees callees' targets targets' : List String}
    (h : Harmless F g hidden (callees ++ callees') (targets ++ targets')) :
    Harmless F g hidden callees targets ∧ Harmless F g hidden callees' targets' := by
  obtain ⟨hc, hc'⟩ := List.forall_mem_append.mp h.callees
  obtain ⟨ht, ht'⟩ := List.forall_mem_append.mp h.targets
  exact ⟨⟨hc, ht⟩, ⟨hc', ht'⟩⟩

/-- Where the expressions of a list are harmless, each of them is. -/
theorem each {es : List Expr} (h : Harmless F g hidden (Expr.calleesOf es) (Expr.targetsOf es))
    {e : Expr} (he : e ∈ es) : Harmless F g hidden e.callees e.targets :=
  ⟨fun f hf => h.callees f (Expr.mem_calleesOf he hf),
    fun x hx => h.targets x (Expr.mem_targetsOf he hx)⟩

/-- The body of a function of the set is harmless in a call of it. -/
theorem body {known : Table Function} (hF : known.Spares F g) {name : String} (hname : name ∈ F)
    {f : Function} (hf : known.get? name = some f) :
    Harmless F g (g ∈ f.parameters) (Expr.calleesOf f.body) (Expr.targetsOf f.body) := by
  refine ⟨hF.closed name hname f hf, ?_⟩
  rintro _ hx rfl
  exact (hF.spared name hname f hf).resolve_right fun hnot => hnot hx

end Harmless

section nested

variable {eval : Expr → Action Value} (heval : ∀ {hidden : Prop} (e : Expr),
  Harmless F g hidden e.callees e.targets → Sparing F g hidden (eval e))

include heval

/-- A harmless block leaves the global variable alone. -/
theorem evalBlock_sparing {b : Block}
    (hb : Harmless F g hidden (Expr.calleesOf b) (Expr.targetsOf b)) :
    Sparing F g hidden (evalBlock eval b) :=
  Sparing.sequential.evalBlock fun e he => heval e (hb.each he)

/-- A call of a function of the set leaves the global variable alone, from wherever it is made, if its
arguments do. -/
theorem evalCall_keptWith {name : String} {arguments : List Expr} (hm : m.environment.Rooted)
    (hF : m.functions.Spares F g) (hname : name ∈ F)
    (harguments : KeepsAt (Machine.KeptWith g) (evalArguments eval arguments)
      (m.record (.enterCall name arguments.length))) :
    KeepsAt (Machine.KeptWith g) (evalCall eval name arguments) m := by
  refine KeepsAt.within_record .record ?_
  refine KeepsAt.bind (findFunction_keeps name arguments.length _ hm) fun f _ hfound _ => ?_
  obtain ⟨rfl, hknown, hlength⟩ := findFunction_value hfound
  refine harguments.bind fun values k hvalues hk => ?_
  have hrooted : k.environment.Rooted := hk.kept.rooted hm
  have hentered : (k.enterFrame (f.parameters.zip values)).InCall F g (g ∈ f.parameters) :=
    .enterFrame hrooted (hk.kept.spares hF) (by rw [hlength, evalArguments_length hvalues])
  have hbody := evalBlock_sparing heval (.body hF hname hknown)
  exact KeepsAt.within (hbody _ hentered) fun n hn => .leaveFrame hrooted hn

/-- An expression leaves the global variable alone if its parts do. -/
theorem evalExpr_sparing (rounds : Nat) (e : Expr) (he : Harmless F g hidden e.callees e.targets) :
    Sparing F g hidden (evalExpr eval rounds e) := by
  cases e with
  | int v => exact .pure v
  | var x => exact .of_keeps (readVariable_keeps x)
  | assign x e =>
    obtain ⟨hx, htargets⟩ := List.forall_mem_cons.mp he.targets
    rw [evalExpr]
    split
    case isTrue => exact .of_keeps (.fail _)
    case isFalse =>
      refine (heval e ⟨he.callees, htargets⟩).bind fun v => ?_
      refine Sparing.bind (fun m hm n hn => ?_) fun _ => .pure v
      cases hn
      exact hm.assign hx v
  | binary op l r =>
    obtain ⟨hl, hr⟩ := he.split
    exact (heval l hl).bind fun v => (heval r hr).bind fun w => .of_keeps (.ofExcept _)
  | block b => exact evalBlock_sparing heval he
  | whileDo c b =>
    obtain ⟨hc, hb⟩ := he.split
    exact Sparing.sequential.evalLoop (heval c hc) (fun e he => heval e (hb.each he)) rounds
  | ifThen c b =>
    obtain ⟨hc, hb⟩ := he.split
    exact (heval c hc).bind fun v => Sequential.branch (.pure 1) (evalBlock_sparing heval hb)
  | ifElse c b d =>
    obtain ⟨hcb, hd⟩ := he.split
    obtain ⟨hc, hb⟩ := hcb.split
    exact (heval c hc).bind fun v =>
      Sequential.branch (evalBlock_sparing heval hd) (evalBlock_sparing heval hb)
  | print e =>
    exact (heval e he).bind fun v =>
      (Sparing.of_keeps (printValue_keeps .print v)).bind fun _ => .pure v
  | call f arguments =>
    obtain ⟨hf, hcallees⟩ := List.forall_mem_cons.mp he.callees
    have harguments : Harmless F g hidden (Expr.calleesOf arguments) (Expr.targetsOf arguments) :=
      ⟨hcallees, he.targets⟩
    intro m hm
    refine evalCall_keptWith heval hm.rooted hm.spares hf ?_
    exact Sparing.sequential.evalArguments (fun e he => heval e (harguments.each he)) _
      (hm.of_kept (.record m _))

end nested

/-- What stands in the body of a call of the set leaves the global variable alone, at any fuel. -/
theorem evalAtFuel_sparing (fuel : Nat) (e : Expr)
    (he : Harmless F g hidden e.callees e.targets) : Sparing F g hidden (evalAtFuel fuel e) := by
  induction fuel generalizing hidden e with
  | zero => exact .of_keeps .outOfFuel
  | succ fuel ih =>
    refine Sparing.bind (.of_keeps (.change fun m _ => .record m _)) fun _ => ?_
    exact evalExpr_sparing ih fuel e he

/-! ### Calls with literal arguments -/

/-- Literals leave everything alone. -/
theorem evalArguments_literals_keeps (fuel : Nat) (values : List Value) :
    Keeps (Machine.KeptWith g) (evalArguments (evalAtFuel fuel) (values.map .int)) := by
  refine Keeps.sequential.evalArguments fun e he => ?_
  obtain ⟨v, -, rfl⟩ := List.mem_map.mp he
  cases fuel with
  | zero => exact .outOfFuel
  | succ fuel => exact (Keeps.change fun m _ => .record m _).bind fun _ => .pure v

/-- A function that cannot assign to a global variable leaves it alone. If the functions of a set call
each other only, and each of them has a parameter of the variable's name or assigns to no variable of
that name, then a call of one of them with literal arguments, whenever it ends, with a value or with an
error, leaves the global variable with the value that it had, or unbound. The call may be made from
anywhere in a run, also from a function outside the set. -/
theorem call_leaves_global (hm : m.environment.Rooted) (hF : m.functions.Spares F g)
    {name : String} (hname : name ∈ F) (values : List Value) {fuel : Nat}
    (hends : (evalAtFuel fuel (.call name (values.map .int)) m).state? = some n) :
    n.globalOf? g = m.globalOf? g := by
  have hkept : KeepsAt (Machine.KeptWith g) (evalAtFuel fuel (.call name (values.map .int))) m := by
    cases fuel with
    | zero => exact Keeps.outOfFuel m hm
    | succ fuel =>
      refine KeepsAt.bind (Keeps.change (fun m _ => .record m _) m hm) fun _ k _ hk => ?_
      have hrooted := hk.kept.rooted hm
      exact evalCall_keptWith (evalAtFuel_sparing fuel) hrooted (hk.kept.spares hF) hname
        (evalArguments_literals_keeps fuel values _ hrooted)
  exact (hkept n hends).globalOf?

/-- Two functions call each other until a quotient fails. One of them assigns to its parameter, which has
the name of the global variable. A variable of the call from which they are called has it as well. -/
theorem call_leaves_global_of_failing_recursion :
    let f : Function := ⟨"f", ["g"], [.assign "g" (.binary .subtract (.var "g") (.int 1)),
      .ifThen (.var "g") [.call "h" [.var "g"]], .var "g"]⟩
    let h : Function := ⟨"h", ["n"], [.assign "t" (.call "f" [.var "n"]),
      .binary .divide (.var "n") (.var "t")]⟩
    let known := ((Machine.fresh .unlimited .silent).register f).register h
    let m := (known.defineGlobal "g" 5).enterFrame [("g", 9)]
    ∃ n, evalAtFuel 9 (.call "f" [.int 2]) m = .error .divisionByZero n ∧
      n.globalOf? "g" = some 5 := by
  intro f h known m
  have hm : m.environment.Rooted :=
    Machine.rooted_enterFrame (Environment.rooted_initial.set _ _ _) _
  have hknown : ∀ name ∈ ({"f", "h"} : Set String), ∀ d, m.functions.get? name = some d →
      d = f ∨ d = h := by
    rintro _ (rfl | rfl) d hd
    · exact .inl (Option.some.inj hd).symm
    · exact .inr (Option.some.inj hd).symm
  have hF : m.functions.Spares {"f", "h"} "g" := by
    constructor
    · intro name hname d hd
      obtain rfl | rfl := hknown name hname d hd
      · exact fun callee hcallee => .inr (List.mem_singleton.mp hcallee)
      · exact fun callee hcallee => .inl (List.mem_singleton.mp hcallee)
    · intro name hname d hd
      obtain rfl | rfl := hknown name hname d hd
      · exact .inl (by decide)
      · exact .inr (by decide)
  have hfails : (evalAtFuel 9 (.call "f" [.int 2]) m).ending?.map Prod.fst =
      some (.error .divisionByZero) := by decide +kernel
  cases hends : evalAtFuel 9 (.call "f" [.int 2]) m with
  | value v n => rw [hends] at hfails; cases hfails
  | outOfFuel => rw [hends] at hfails; cases hfails
  | error reason n =>
    rw [hends] at hfails
    cases hfails
    exact ⟨n, rfl, call_leaves_global hm hF (.inl rfl) [2] (congrArg Outcome.state? hends)⟩

end Scriptlet
