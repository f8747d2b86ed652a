import Scriptlet.Proofs.Eval.Compositional
import Scriptlet.Proofs.Eval.Observation
import Scriptlet.Proofs.Output.Bounds

/-!
# Runs with a bounded sink

A sink with bounds cuts a run short and changes nothing else. Compare an action at a machine whose sink
has no bounds with the same action at the machine with another sink: as long as the other sink takes
what is printed, both do the same; when a print fails, the action fails, and nothing is evaluated any
more (`Action.Truncates`). The steps of a run have this property and sequences and calls inherit it, so
that runs have it (`truncates_compositional`).

* `bounded_sink_truncates`: what a run with a bounded sink gives, by what it prints without bounds.
-/

namespace Scriptlet

/-- A machine that prints to another sink. -/
def Machine.withSink (m : Machine) (s : Sink) : Machine :=
  { m with sink := s }

/-- A sink without bounds. -/
structure Sink.Unbounded (s : Sink) : Prop where
  room : s.room = none
  flushes : s.flushes = none

namespace Action

variable {α β : Type} {p : Action α} {f : α → Action β} {m n k : Machine}

/-- An action that prints some texts in a sink without bounds, from one machine to another, and what it
does with any other sink. -/
structure Truncation (p : Action α) (m n : Machine) (texts : List (List Char)) : Prop where
  sink : n.sink = { m.sink with printed := texts.reverse ++ m.sink.printed }
  /-- The texts are those of values. -/
  values : ∀ text ∈ texts, ∃ v, text = Value.text v
  evaluated : m.journal.evaluated <+: n.journal.evaluated
  /-- A sink that takes the texts is told apart by nothing else. -/
  taken : ∀ {s t : Sink}, s.printAll texts = (none, t) → p (m.withSink s) = (p m).mapState (·.withSink t)
  /-- A sink that does not take them ends the action. -/
  failed : ∀ {s t : Sink} {reason : SinkError}, s.printAll texts = (some reason, t) →
    ∃ l, p (m.withSink s) = .error (.output reason) l ∧ l.sink = t ∧
      l.journal.evaluated <+: n.journal.evaluated

/-- Whenever the action ends in a sink without bounds, other sinks cut it short at most. -/
def Truncates (p : Action α) : Prop :=
  ∀ (m n : Machine) (result : Except EvalError α), m.sink.Unbounded →
    (p m).ending? = some (result, n) → ∃ texts, Truncation p m n texts

/-- A sink without bounds is left without bounds. -/
theorem Truncation.unbounded {texts : List (List Char)} (h : Truncation p m n texts)
    (hm : m.sink.Unbounded) : n.sink.Unbounded := by
  rw [h.sink]
  exact ⟨hm.room, hm.flushes⟩

/-- An action that prints nothing and does the same with every sink. -/
theorem Truncation.silent (hsink : n.sink = m.sink)
    (hevaluated : m.journal.evaluated <+: n.journal.evaluated)
    (h : ∀ s, p (m.withSink s) = (p m).mapState (·.withSink s)) : Truncation p m n [] where
  sink := by
    rw [hsink]
    rfl
  values := nofun
  evaluated := hevaluated
  taken := by
    intro s t ht
    cases ht
    exact h s
  failed := nofun

/-! ### Sequences -/

/-- If the first action fails, the sequence does what it does. -/
theorem Truncation.bind_of_error {texts : List (List Char)} {reason : EvalError}
    (hp : p m = .error reason n) (h : Truncation p m n texts) : Truncation (p >>= f) m n texts where
  sink := h.sink
  values := h.values
  evaluated := h.evaluated
  taken := by
    intro s t ht
    have hout := h.taken ht
    rw [hp] at hout
    rw [bind_error hp, bind_error hout]
    rfl
  failed := by
    intro s t reason' ht
    obtain ⟨l, hout, hl⟩ := h.failed ht
    exact ⟨l, bind_error hout, hl⟩

/-- A sequence prints what its parts print, and is cut short in one of them. -/
theorem Truncation.bind {texts more : List (List Char)} {a : α} (hp : p m = .value a k)
    (h : Truncation p m k texts) (hf : Truncation (f a) k n more) :
    Truncation (p >>= f) m n (texts ++ more) where
  sink := by
    rw [hf.sink, h.sink]
    simp
  values := by
    intro text htext
    rcases List.mem_append.mp htext with htext | htext
    · exact h.values text htext
    · exact hf.values text htext
  evaluated := h.evaluated.trans hf.evaluated
  taken := by
    intro s t ht
    -- a sink that takes the texts of both parts has taken those of the first one before
    rw [Sink.printAll_append] at ht
    split at ht
    · next hfirst =>
      have hout := h.taken hfirst
      rw [hp] at hout
      rw [bind_value hp, bind_value hout]
      exact hf.taken ht
    · cases ht
  failed := by
    intro s t reason ht
    rw [Sink.printAll_append] at ht
    split at ht
    · next hfirst =>
      have hout := h.taken hfirst
      rw [hp] at hout
      obtain ⟨l, hrest, hl⟩ := hf.failed ht
      exact ⟨l, (bind_value hout).trans hrest, hl⟩
    · next hfirst =>
      cases ht
      obtain ⟨l, hout, hsink, hl⟩ := h.failed hfirst
      exact ⟨l, bind_error hout, hsink, hl.trans hf.evaluated⟩

/-- A sequence is cut short where one of its parts is. -/
theorem Truncates.bind (hp : Truncates p) (hf : ∀ a, Truncates (f a)) : Truncates (p >>= f) := by
  intro m n result hm hn
  cases h : p m with
  | value a k =>
    rw [bind_value h] at hn
    obtain ⟨texts, htexts⟩ := hp m _ _ hm (congrArg Outcome.ending? h)
    obtain ⟨more, hmore⟩ := hf a k n result (htexts.unbounded hm) hn
    exact ⟨texts ++ more, htexts.bind h hmore⟩
  | error reason k =>
    rw [bind_error h] at hn
    cases hn
    obtain ⟨texts, htexts⟩ := hp m _ _ hm (congrArg Outcome.ending? h)
    exact ⟨texts, htexts.bind_of_error h⟩
  | outOfFuel =>
    rw [bind_outOfFuel h] at hn
    cases hn

/-! ### Steps -/

/-- A change of the machine that has nothing to do with its sink. -/
structure IgnoresSink (g : Machine → Machine) : Prop where
  withSink : ∀ (m : Machine) (s : Sink), g (m.withSink s) = (g m).withSink s
  evaluated : ∀ m : Machine, (g m).journal.evaluated = m.journal.evaluated

/-- A change that ignores the sink leaves it as it is. -/
theorem IgnoresSink.sink {g : Machine → Machine} (h : IgnoresSink g) (m : Machine) :
    (g m).sink = m.sink := by
  have hsame : g m = (g m).withSink m.sink := h.withSink m m.sink
  rw [hsame]
  rfl

/-- A report ignores the sink, unless it is of an expression that is come to. -/
theorem IgnoresSink.record {event : Event} (h : event.expression? = none) :
    IgnoresSink (·.record event) :=
  ⟨fun _ _ => rfl, fun m => Journal.evaluated_record h m.journal⟩

/-- A value is given with every sink. -/
theorem Truncates.pure (a : α) : Truncates (pure a : Action α) := by
  intro m n result hm hn
  cases hn
  exact ⟨[], .silent rfl (List.prefix_refl _) fun s => rfl⟩

/-- A failure is the same with every sink. -/
theorem Truncates.fail (reason : EvalError) : Truncates (fail reason : Action α) := by
  intro m n result hm hn
  cases hn
  exact ⟨[], .silent rfl (List.prefix_refl _) fun s => rfl⟩

/-- What is read does not depend on the sink. -/
theorem Truncates.read {g : Machine → α} (h : ∀ m s, g (Machine.withSink m s) = g m) :
    Truncates (read g) := by
  intro m n result hm hn
  cases hn
  refine ⟨[], .silent rfl (List.prefix_refl _) fun s => ?_⟩
  rw [read_apply, h]
  rfl

/-- A change that ignores the sink is made with every sink. -/
theorem Truncates.change {g : Machine → Machine} (h : IgnoresSink g) : Truncates (change g) := by
  intro m n result hm hn
  cases hn
  have hevaluated : m.journal.evaluated <+: (g m).journal.evaluated :=
    (h.evaluated m).symm ▸ List.prefix_refl m.journal.evaluated
  refine ⟨[], .silent (h.sink m) hevaluated fun s => ?_⟩
  rw [change_apply, h.withSink]
  rfl

/-- A report is made with every sink. -/
theorem Truncates.record (event : Event) : Truncates (record event) := by
  intro m n result hm hn
  cases hn
  exact ⟨[], .silent rfl (m.journal.evaluated_prefix_record event) fun s => rfl⟩

/-- A print prints the text of its value. -/
theorem Truncates.printValue (v : Value) : Truncates (printValue v) := by
  intro m n result hm hn
  have hprint : Scriptlet.printValue v m =
      .value () (m.withSink { m.sink with printed := Value.text v :: m.sink.printed }) := by
    unfold Scriptlet.printValue
    rw [Sink.print_of_unbounded hm.room hm.flushes]
    rfl
  rw [hprint] at hn
  cases hn
  refine ⟨[Value.text v], rfl, ?_, List.prefix_refl _, ?_, ?_⟩
  case refine_1 =>
    intro text htext
    exact ⟨v, List.mem_singleton.mp htext⟩
  case refine_2 =>
    intro s t ht
    have hsink : (m.withSink s).sink.print (Value.text v) = (none, t) :=
      (Sink.printAll_singleton s _).symm.trans ht
    rw [hprint]
    unfold Scriptlet.printValue
    rw [hsink]
    rfl
  case refine_3 =>
    intro s t reason ht
    have hsink : (m.withSink s).sink.print (Value.text v) = (some reason, t) :=
      (Sink.printAll_singleton s _).symm.trans ht
    unfold Scriptlet.printValue
    rw [hsink]
    exact ⟨_, rfl, rfl, List.prefix_refl _⟩

/-- What surrounds an action and has nothing to do with the sink is done on the way out of a failing
print as well. -/
theorem Truncation.within {enter leave : Machine → Machine} {texts : List (List Char)}
    (henter : IgnoresSink enter) (hleave : IgnoresSink leave)
    (h : Truncation p (enter m) k texts) : Truncation (within enter leave p) m (leave k) texts where
  sink := by
    rw [hleave.sink, h.sink, henter.sink]
  values := h.values
  evaluated := by
    rw [hleave.evaluated, ← henter.evaluated]
    exact h.evaluated
  taken := by
    intro s t ht
    simp only [within_eq_mapState, henter.withSink, h.taken ht, Outcome.mapState_mapState,
      hleave.withSink]
  failed := by
    intro s t reason ht
    obtain ⟨l, hout, hsink, hl⟩ := h.failed ht
    refine ⟨leave l, ?_, ?_, ?_⟩
    · rw [← henter.withSink] at hout
      exact within_error hout
    · rw [hleave.sink, hsink]
    · rwa [hleave.evaluated, hleave.evaluated]

/-- What surrounds an action by changes that ignore the sink is cut short where the action is. -/
theorem Truncates.within {enter leave : Machine → Machine} (henter : IgnoresSink enter)
    (hleave : IgnoresSink leave) (hp : Truncates p) : Truncates (within enter leave p) := by
  intro m n result hm hn
  rw [within_eq_mapState, Outcome.ending?_mapState] at hn
  obtain ⟨⟨result', k⟩, hk, heq⟩ := Option.map_eq_some_iff.mp hn
  cases heq
  have hunbounded : (enter m).sink.Unbounded := by
    rwa [henter.sink]
  obtain ⟨texts, htexts⟩ := hp (enter m) k _ hunbounded hk
  exact ⟨texts, htexts.within henter hleave⟩

end Action

/-- Of all that a run does, only prints have to do with the sink. -/
theorem truncates_compositional : Compositional fun _ p => p.Truncates where
  pure := .pure
  fail := .fail
  outOfFuel := fun _ _ _ _ => nofun
  bind := .bind
  readValue _ := .read fun _ _ => rfl
  readFunction _ := .read fun _ _ => rfl
  assign _ _ := .change ⟨fun _ _ => rfl, fun _ => rfl⟩
  defineGlobal _ _ := .change ⟨fun _ _ => rfl, fun _ => rfl⟩
  register _ := .change ⟨fun _ _ => rfl, fun _ => rfl⟩
  printValue := .printValue
  record := .record
  withinCall _ _ := .within (.record rfl) (.record rfl)
  withinMain _ := .within (.record rfl) (.record rfl)
  withinFrame _ := .within ⟨fun _ _ => rfl, fun _ => rfl⟩ ⟨fun _ _ => rfl, fun _ => rfl⟩

/-- The characters of printed values take up one byte each. -/
theorem Value.utf8Size_of_mem_text {c : Char} {v : Value} (h : c ∈ Value.text v) :
    c.utf8Size = 1 := by
  have hdigit : ∀ {n : Nat}, c ∈ Nat.toDigits 10 n → c.utf8Size = 1 := by
    intro n hc
    have := Nat.isDigit_of_mem_toDigits (by decide) (by decide) hc
    simp only [Char.isDigit, Bool.and_eq_true, decide_eq_true_eq] at this
    rw [Char.utf8Size_eq_one_iff]
    exact UInt32.le_trans this.2 (by decide)
  unfold Value.text Value.decimal at h
  split at h
  · exact hdigit h
  · rcases List.mem_cons.mp h with rfl | hc
    · rfl
    · exact hdigit hc

/-- What a run does with a bounded sink, said by what it prints without bounds. Printed characters take
up one byte each. If all printed texts stay within the bounds, the run is the same, down to the machine
that it leaves. Otherwise it fails at the first text that exceeds them, for want of room if there is
one and otherwise for want of a flush; the sink holds what fits of the texts up to there, and nothing
was evaluated after it. -/
theorem bounded_sink_truncates {p : Program} {journal : Journal} {fuel : Nat}
    {result : Except EvalError Value} {m : Machine}
    (h : (runAtFuel fuel p (.fresh .unlimited journal)).ending? = some (result, m))
    (room flushes : Option Nat) :
    let bounded := runAtFuel fuel p (.fresh (.limited room flushes) journal)
    (∀ c ∈ m.sink.contents, c.utf8Size = 1) ∧
    ((∀ count ≤ m.sink.texts.length, ¬ Sink.Exceeds room flushes m.sink.texts count) →
      ∃ s, bounded.ending? = some (result, m.withSink s) ∧ s.texts = m.sink.texts) ∧
    ∀ place, Sink.CutAt room flushes m.sink.texts place →
      ∃ n, bounded.ending? =
          some (.error (.output (Sink.cutError room m.sink.texts place)), n) ∧
        n.sink.contents =
          m.sink.contents.take (Sink.fitting room (Sink.sizeOf m.sink.texts place)) ∧
        n.journal.evaluated <+: m.journal.evaluated := by
  obtain ⟨texts, hrun⟩ :=
    truncates_compositional.runAtFuel fuel p (.fresh .unlimited journal) m result ⟨rfl, rfl⟩ h
  have htexts : m.sink.texts = texts := by
    rw [hrun.sink]
    simp [Sink.texts, Machine.fresh, Sink.unlimited, Sink.limited]
  have hcontents : m.sink.contents = texts.flatten := congrArg List.flatten htexts
  rw [htexts, hcontents]
  refine ⟨?_, ?_, ?_⟩
  · intro c hc
    obtain ⟨text, htext, hc⟩ := List.mem_flatten.mp hc
    obtain ⟨v, rfl⟩ := hrun.values text htext
    exact Value.utf8Size_of_mem_text hc
  · intro hwithin
    have htaken := Sink.printAll_of_not_exceeds (s := .limited room flushes)
      (hwithin texts.length (Nat.le_refl _))
    refine ⟨(Sink.limited room flushes).after texts, ?_, ?_⟩
    · change (runAtFuel fuel p ((Machine.fresh .unlimited journal).withSink _)).ending? = _
      rw [hrun.taken htaken, Outcome.ending?_mapState, h]
      rfl
    · simp [Sink.texts, Sink.after, Sink.limited]
  · intro place hcut
    obtain ⟨t, hfailed, ht⟩ := Sink.printAll_of_cutAt (s := .limited room flushes) hcut
    obtain ⟨n, hout, hsink, hevaluated⟩ := hrun.failed hfailed
    refine ⟨n, congrArg Outcome.ending? hout, ?_, hevaluated⟩
    rw [hsink, ht]
    rfl

/-- Two calls print, and there is room for the minus sign of the second one only. -/
theorem bounded_sink_truncates_within_call :
    let p : Program := ⟨[.function ⟨"f", ["n"], [.print (.var "n"), .assign "n" (.int 0)]⟩,
      .function ⟨"main", [], [.call "f" [.int (-12)], .call "f" [.int (-345)], .print (.int 7)]⟩]⟩
    ∃ m n, (runAtFuel 5 p (.fresh .unlimited .silent)).ending? = some (.ok 7, m) ∧
      Sink.CutAt (some 4) none m.sink.texts 2 ∧
      (runAtFuel 5 p (.fresh (.limited (some 4) none) .silent)).ending? =
        some (.error (.output .full), n) ∧
      n.sink.contents = ['-', '1', '2', '-'] := by
  intro p
  have hprinted : (runAtFuel 5 p (.fresh .unlimited .silent)).ending?.map
      (fun (result, m) => (result.toOption, m.sink.texts)) =
        some (some 7, [['-', '1', '2'], ['-', '3', '4', '5'], ['7']]) := by
    decide +kernel
  obtain ⟨⟨result, m⟩, h, heq⟩ := Option.map_eq_some_iff.mp hprinted
  obtain ⟨hresult, htexts⟩ := Prod.mk.inj heq
  obtain rfl : result = .ok 7 := by
    cases result with
    | ok v => exact congrArg Except.ok (Option.some.inj hresult)
    | error reason => cases hresult
  have hcut : Sink.CutAt (some 4) none m.sink.texts 2 := by
    rw [htexts]
    exact ⟨by decide, by decide, by decide⟩
  obtain ⟨n, hn, hcontents, -⟩ := (bounded_sink_truncates h (some 4) none).2.2 2 hcut
  have hfull : Sink.cutError (some 4) m.sink.texts 2 = .full := by
    rw [htexts]
    decide
  rw [hfull] at hn
  refine ⟨m, n, h, hcut, hn, ?_⟩
  rw [hcontents, Sink.contents, htexts]
  decide

end Scriptlet
