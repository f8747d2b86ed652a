import Scriptlet.Proofs.Parser.Progress

/-!
# What an answer says about the parts

Each combinator succeeds only through successes of its parts; the lemmas `…_eq_ok_iff` say which. It
misses or fails by a part, after successes of the parts before it (`…_eq_miss_iff`, `…_eq_fail_iff`).
`NeverFails p` says that `p` never fails for good, so that where it does not succeed, it misses
(`NeverFails.exists_miss`); this holds of every parser without commitment.
-/

namespace Scriptlet

open Scriptlet.Text

namespace Parser

variable {α β : Type}

/-! ### Successes -/

/-- A sequence succeeds exactly by a success of each part. -/
theorem bind_eq_ok_iff {p : Parser α} {f : α → Parser β} {s r : List Char} {b : β} :
    (p >>= f) s = .ok b r ↔ ∃ a t, p s = .ok a t ∧ f a t = .ok b r := by
  constructor
  · intro h
    cases hp : p s with
    | ok a t => exact ⟨a, t, rfl, by rwa [bind_ok hp] at h⟩
    | miss t => rw [bind_miss hp] at h; cases h
    | fail fault t => rw [bind_fail hp] at h; cases h
  · rintro ⟨a, t, hp, hf⟩
    rw [bind_ok hp, hf]

/-- `pure` succeeds with its own value and reads nothing. -/
theorem pure_eq_ok_iff {a b : α} {s r : List Char} :
    (pure a : Parser α) s = .ok b r ↔ a = b ∧ s = r := by
  rw [pure_apply, Reply.ok.injEq]

/-- A mapped parser succeeds exactly where the parser does. -/
theorem map_eq_ok_iff {p : Parser α} {f : α → β} {s r : List Char} {b : β} :
    (f <$> p) s = .ok b r ↔ ∃ a, p s = .ok a r ∧ f a = b := by
  rw [map_eq_pure_bind, bind_eq_ok_iff]
  constructor
  · rintro ⟨a, t, hp, h⟩
    obtain ⟨hb, rfl⟩ := pure_eq_ok_iff.mp h
    exact ⟨a, hp, hb⟩
  · rintro ⟨a, hp, rfl⟩
    exact ⟨a, r, hp, rfl⟩

/-- A choice succeeds by its first side, or by its second where the first one misses. -/
theorem orElse_eq_ok_iff {p q : Parser α} {s r : List Char} {a : α} :
    (p <|> q) s = .ok a r ↔ p s = .ok a r ∨ (∃ t, p s = .miss t) ∧ q s = .ok a r := by
  cases hp : p s with
  | ok b t => rw [orElse_ok hp]; simp
  | miss t => rw [orElse_miss hp]; simp
  | fail fault t => rw [orElse_fail hp]; simp

/-- Commitment changes no success. -/
theorem committed_eq_ok_iff {p : Parser α} {s r : List Char} {a : α} :
    committed p s = .ok a r ↔ p s = .ok a r := by
  cases hp : p s with
  | ok b t => rw [committed_ok hp]
  | miss t => rw [committed_miss hp]; simp
  | fail fault t => rw [committed_fail hp]

/-- Looking ahead succeeds where the parser does, and reads nothing. -/
theorem ahead_eq_ok_iff {p : Parser α} {s r : List Char} {u : Unit} :
    ahead p s = .ok u r ↔ s = r ∧ ∃ a t, p s = .ok a t := by
  cases hp : p s with
  | ok b t => rw [ahead_ok hp]; simp
  | miss t => rw [ahead_miss hp]; simp
  | fail fault t => simp [ahead, hp]

/-- An optional part is read, or is not there and left out. -/
theorem optional_eq_ok_iff {p : Parser α} {s r : List Char} {o : Option α} :
    optional p s = .ok o r ↔
      (∃ a, p s = .ok a r ∧ o = some a) ∨ (∃ t, p s = .miss t) ∧ o = none ∧ s = r := by
  cases hp : p s with
  | ok a t => rw [optional_ok hp]; simp [eq_comm, and_comm]
  | miss t => rw [optional_miss hp]; simp [eq_comm]
  | fail fault t => rw [optional_fail hp]; simp

/-! ### Misses and failures -/

/-- A sequence misses by its first part, or by the second one after a success of the first. -/
theorem bind_eq_miss_iff {p : Parser α} {f : α → Parser β} {s r : List Char} :
    (p >>= f) s = .miss r ↔ p s = .miss r ∨ ∃ a t, p s = .ok a t ∧ f a t = .miss r := by
  cases hp : p s with
  | ok a t => rw [bind_ok hp]; simp
  | miss t => rw [bind_miss hp]; simp
  | fail fault t => rw [bind_fail hp]; simp

/-- A sequence fails by its first part, or by the second one after a success of the first. -/
theorem bind_eq_fail_iff {p : Parser α} {f : α → Parser β} {s r : List Char} {fault : Fault} :
    (p >>= f) s = .fail fault r ↔
      p s = .fail fault r ∨ ∃ a t, p s = .ok a t ∧ f a t = .fail fault r := by
  cases hp : p s with
  | ok a t => rw [bind_ok hp]; simp
  | miss t => rw [bind_miss hp]; simp
  | fail other t => rw [bind_fail hp]; simp

/-- A mapped parser misses exactly where the parser does. -/
theorem map_eq_miss_iff {p : Parser α} {f : α → β} {s r : List Char} :
    (f <$> p) s = .miss r ↔ p s = .miss r := by
  rw [map_eq_pure_bind, bind_eq_miss_iff]
  simp [pure_apply]

/-- A mapped parser fails exactly where the parser does. -/
theorem map_eq_fail_iff {p : Parser α} {f : α → β} {s r : List Char} {fault : Fault} :
    (f <$> p) s = .fail fault r ↔ p s = .fail fault r := by
  rw [map_eq_pure_bind, bind_eq_fail_iff]
  simp [pure_apply]

/-- A choice misses where both sides do, as the second one does. -/
theorem orElse_eq_miss_iff {p q : Parser α} {s r : List Char} :
    (p <|> q) s = .miss r ↔ (∃ t, p s = .miss t) ∧ q s = .miss r := by
  cases hp : p s with
  | ok a t => rw [orElse_ok hp]; simp
  | miss t => rw [orElse_miss hp]; simp
  | fail fault t => rw [orElse_fail hp]; simp

/-- A choice fails by its first side, or by its second where the first one misses. -/
theorem orElse_eq_fail_iff {p q : Parser α} {s r : List Char} {fault : Fault} :
    (p <|> q) s = .fail fault r ↔
      p s = .fail fault r ∨ (∃ t, p s = .miss t) ∧ q s = .fail fault r := by
  cases hp : p s with
  | ok a t => rw [orElse_ok hp]; simp
  | miss t => rw [orElse_miss hp]; simp
  | fail other t => rw [orElse_fail hp]; simp

/-- What is committed to fails where it does by itself, or for a miss. -/
theorem committed_eq_fail_iff {p : Parser α} {s r : List Char} {fault : Fault} :
    committed p s = .fail fault r ↔
      p s = .fail fault r ∨ fault = .unexpected ∧ p s = .miss r := by
  cases hp : p s with
  | ok a t => rw [committed_ok hp]; simp
  | miss t => rw [committed_miss hp]; simp [eq_comm]
  | fail other t => rw [committed_fail hp]; simp

/-- Looking ahead misses exactly where the parser does. -/
theorem ahead_eq_miss_iff {p : Parser α} {s r : List Char} :
    ahead p s = .miss r ↔ p s = .miss r := by
  cases hp : p s <;> simp [ahead, hp]

/-- Looking ahead fails exactly where the parser does. -/
theorem ahead_eq_fail_iff {p : Parser α} {s r : List Char} {fault : Fault} :
    ahead p s = .fail fault r ↔ p s = .fail fault r := by
  cases hp : p s <;> simp [ahead, hp]

/-- An optional part fails exactly where it does by itself, and never misses. -/
theorem optional_eq_fail_iff {p : Parser α} {s r : List Char} {fault : Fault} :
    optional p s = .fail fault r ↔ p s = .fail fault r := by
  cases hp : p s with
  | ok a t => rw [optional_ok hp]; simp
  | miss t => rw [optional_miss hp]; simp
  | fail other t => rw [optional_fail hp]; simp

/-- What may be left out never misses. -/
theorem optional_ne_miss (p : Parser α) (s r : List Char) : optional p s ≠ .miss r := by
  cases hp : p s with
  | ok a t => rw [optional_ok hp]; nofun
  | miss t => rw [optional_miss hp]; nofun
  | fail other t => rw [optional_fail hp]; nofun

/-! ### Parsers that never fail -/

/-- A parser that either succeeds or misses. -/
def NeverFails (p : Parser α) : Prop :=
  ∀ s fault rest, p s ≠ .fail fault rest

/-- A parser that never fails misses where it does not succeed. -/
theorem NeverFails.exists_miss {p : Parser α} (hp : NeverFails p) {s : List Char}
    (h : ∀ a r, p s ≠ .ok a r) : ∃ rest, p s = .miss rest := by
  cases hs : p s with
  | ok a r => exact absurd hs (h a r)
  | miss rest => exact ⟨rest, rfl⟩
  | fail fault rest => exact absurd hs (hp s fault rest)

/-- What reads nothing never fails. -/
theorem NeverFails.pure (a : α) : NeverFails (pure a : Parser α) :=
  fun _ _ _ => nofun

/-- A miss is no failure. -/
theorem NeverFails.missing : NeverFails (missing : Parser α) :=
  fun _ _ _ => nofun

/-- A sequence never fails if its parts never do. -/
theorem NeverFails.bind {p : Parser α} {f : α → Parser β} (hp : NeverFails p)
    (hf : ∀ a, NeverFails (f a)) : NeverFails (p >>= f) := by
  intro s fault rest
  cases h : p s with
  | ok a t => rw [bind_ok h]; exact hf a t fault rest
  | miss t => rw [bind_miss h]; nofun
  | fail other t => exact absurd h (hp s other t)

/-- A choice never fails if its alternatives never do. -/
theorem NeverFails.orElse {p q : Parser α} (hp : NeverFails p) (hq : NeverFails q) :
    NeverFails (p <|> q) := by
  intro s fault rest
  cases h : p s with
  | ok a t => rw [orElse_ok h]; nofun
  | miss t => rw [orElse_miss h]; exact hq s fault rest
  | fail other t => exact absurd h (hp s other t)

/-- Layout never fails. -/
theorem layout_neverFails : NeverFails layout :=
  fun _ _ _ => nofun

/-- Given letters miss at most. -/
theorem literal_neverFails (letters : List Char) : NeverFails (literal letters) := by
  intro s fault rest
  unfold literal
  split <;> nofun

/-- A look at the next character misses at most. -/
theorem unlessNext_neverFails (stops : Char → Bool) : NeverFails (unlessNext stops) := by
  intro s fault rest
  unfold unlessNext
  split <;> nofun

/-- Tokens miss at most. -/
theorem token_neverFails (text : String) : NeverFails (token text) :=
  layout_neverFails.bind fun _ => literal_neverFails _

/-- Keywords miss at most. -/
theorem keyword_neverFails (k : Keyword) : NeverFails (keyword k) :=
  layout_neverFails.bind fun _ => (literal_neverFails _).bind fun _ => unlessNext_neverFails _

/-- The sign of an assignment misses at most. -/
theorem assignSign_neverFails : NeverFails assignSign :=
  (token_neverFails "=").bind fun _ => unlessNext_neverFails _

/-- Words miss at most. -/
theorem word_neverFails : NeverFails word := by
  intro s fault rest h
  cases s with
  | nil => cases h
  | cons c s =>
    simp only [word] at h
    split at h
    · split at h
      · cases h
      · cases h
    · cases h

/-- Names miss at most. -/
theorem identifier_neverFails : NeverFails identifier :=
  layout_neverFails.bind fun _ => word_neverFails

/-- The choice of an operator misses at most. -/
theorem operatorAmong_neverFails : (ops : List Operator) → NeverFails (operatorAmong ops)
  | [] => NeverFails.missing
  | op :: ops =>
    ((token_neverFails op.symbol).bind fun _ => NeverFails.pure op).orElse
      (operatorAmong_neverFails ops)

end Parser

end Scriptlet
