/-!
# Parsers

A parser reads the start of a text. It answers in one of three ways: it succeeds and leaves a rest,
it misses, after which another parser may be tried on the same text, or it fails for good. A parser
misses until it has read enough to know which construct stands here; from then on it is `committed`
and fails instead.

Each combinator has a lemma for the answers of its parts, so that later proofs need not unfold it.
-/

namespace Scriptlet

namespace Parser

/-- Why a parse fails for good. -/
inductive Fault where
  /-- The construct does not go on like this. -/
  | unexpected
  /-- An integer literal is out of the range of values. -/
  | outOfRange
  /-- A repetition reads nothing, so that it would never end. No parser of the language does so. -/
  | stuck
  deriving DecidableEq, Repr, Inhabited

/-- The answer of a parser, with the text that it had not read when it answered. -/
inductive Reply (α : Type) where
  | ok (value : α) (rest : List Char)
  | miss (rest : List Char)
  | fail (fault : Fault) (rest : List Char)
  deriving DecidableEq, Repr, Inhabited

end Parser

/-- A parser reads the start of a text. -/
def Parser (α : Type) : Type := List Char → Parser.Reply α

namespace Parser

variable {α β : Type}

/-! ### One parser after the other -/

/-- Parsers read one after the other, up to the first one that misses or fails. -/
instance : Monad Parser where
  pure a := fun s => .ok a s
  bind p f := fun s =>
    match p s with
    | .ok a rest => f a rest
    | .miss rest => .miss rest
    | .fail fault rest => .fail fault rest

/-- `pure` reads nothing. -/
theorem pure_apply (a : α) (s : List Char) : (pure a : Parser α) s = .ok a s := rfl

/-- The second parser starts where the first one ended. -/
theorem bind_ok {p : Parser α} {f : α → Parser β} {s rest : List Char} {a : α}
    (h : p s = .ok a rest) : (p >>= f) s = f a rest := by
  simp only [bind, h]

/-- A miss of the first parser is one of the sequence. -/
theorem bind_miss {p : Parser α} {f : α → Parser β} {s rest : List Char}
    (h : p s = .miss rest) : (p >>= f) s = .miss rest := by
  simp only [bind, h]

/-- A failure of the first parser is one of the sequence. -/
theorem bind_fail {p : Parser α} {f : α → Parser β} {s rest : List Char} {fault : Fault}
    (h : p s = .fail fault rest) : (p >>= f) s = .fail fault rest := by
  simp only [bind, h]

/-- Sequences of parsers can be regrouped, and reading nothing leaves them as they are. -/
instance : LawfulMonad Parser := LawfulMonad.mk' Parser
  (fun p => by
    funext s
    simp only [Functor.map]
    cases p s <;> rfl)
  (fun _ _ => rfl)
  (fun p f g => by
    funext s
    simp only [bind]
    cases p s <;> rfl)

/-! ### Choice and commitment -/

/-- Misses everywhere. -/
def missing : Parser α := fun s => .miss s

/-- Fails everywhere. -/
def failing (fault : Fault) : Parser α := fun s => .fail fault s

/-- The second parser is tried where the first one misses. -/
def orElse (p q : Parser α) : Parser α := fun s =>
  match p s with
  | .miss _ => q s
  | reply => reply

/-- `p <|> q` is the choice between two parsers. -/
instance : OrElse (Parser α) := ⟨fun p q => orElse p (q ())⟩

/-- Where the first parser succeeds, the second one is not tried. -/
theorem orElse_ok {p q : Parser α} {s rest : List Char} {a : α} (h : p s = .ok a rest) :
    (p <|> q) s = .ok a rest := by
  show orElse p q s = _
  simp only [orElse, h]

/-- Where the first parser misses, the second one answers. -/
theorem orElse_miss {p q : Parser α} {s rest : List Char} (h : p s = .miss rest) :
    (p <|> q) s = q s := by
  show orElse p q s = _
  simp only [orElse, h]

/-- Where the first parser fails, the second one is not tried. -/
theorem orElse_fail {p q : Parser α} {s rest : List Char} {fault : Fault}
    (h : p s = .fail fault rest) : (p <|> q) s = .fail fault rest := by
  show orElse p q s = _
  simp only [orElse, h]

/-- The parser of a construct that can be no other: its misses are failures. -/
def committed (p : Parser α) : Parser α := fun s =>
  match p s with
  | .miss rest => .fail .unexpected rest
  | reply => reply

/-- Commitment keeps a success. -/
theorem committed_ok {p : Parser α} {s rest : List Char} {a : α} (h : p s = .ok a rest) :
    committed p s = .ok a rest := by
  simp only [committed, h]

/-- Commitment turns a miss into a failure. -/
theorem committed_miss {p : Parser α} {s rest : List Char} (h : p s = .miss rest) :
    committed p s = .fail .unexpected rest := by
  simp only [committed, h]

/-- Commitment keeps a failure. -/
theorem committed_fail {p : Parser α} {s rest : List Char} {fault : Fault}
    (h : p s = .fail fault rest) : committed p s = .fail fault rest := by
  simp only [committed, h]

/-- A part that may be left out. -/
def optional (p : Parser α) : Parser (Option α) :=
  (some <$> p) <|> pure none

/-- A part that is there is read. -/
theorem optional_ok {p : Parser α} {s rest : List Char} {a : α} (h : p s = .ok a rest) :
    optional p s = .ok (some a) rest :=
  orElse_ok (bind_ok h)

/-- A part that is not there is left out. -/
theorem optional_miss {p : Parser α} {s rest : List Char} (h : p s = .miss rest) :
    optional p s = .ok none s :=
  orElse_miss (bind_miss h)

/-- A part that fails cannot be left out. -/
theorem optional_fail {p : Parser α} {s rest : List Char} {fault : Fault}
    (h : p s = .fail fault rest) : optional p s = .fail fault rest :=
  orElse_fail (bind_fail h)

/-- Looks whether a parser would succeed, and reads nothing if so. -/
def ahead (p : Parser α) : Parser Unit := fun s =>
  match p s with
  | .ok _ _ => .ok () s
  | .miss rest => .miss rest
  | .fail fault rest => .fail fault rest

/-- Looking ahead reads nothing. -/
theorem ahead_ok {p : Parser α} {s rest : List Char} {a : α} (h : p s = .ok a rest) :
    ahead p s = .ok () s := by
  simp only [ahead, h]

/-- Looking ahead misses where the parser does. -/
theorem ahead_miss {p : Parser α} {s rest : List Char} (h : p s = .miss rest) :
    ahead p s = .miss rest := by
  simp only [ahead, h]

/-! ### Repetition -/

/-- Repeats a parser until it misses, for fewer than `rounds` rounds. -/
def manyWithin : Nat → Parser α → Parser (List α)
  | 0, _ => failing .stuck
  | rounds + 1, p => (do
      let a ← p
      let as ← manyWithin rounds p
      return a :: as) <|> pure []

/-- A miss ends the repetition where the round began. -/
theorem manyWithin_miss {p : Parser α} {s rest : List Char} (h : p s = .miss rest)
    (rounds : Nat) : manyWithin (rounds + 1) p s = .ok [] s :=
  orElse_miss (bind_miss h)

/-- A failure in a round is one of the repetition. -/
theorem manyWithin_fail {p : Parser α} {s rest : List Char} {fault : Fault}
    (h : p s = .fail fault rest) (rounds : Nat) :
    manyWithin (rounds + 1) p s = .fail fault rest :=
  orElse_fail (bind_fail h)

/-- A successful round is followed by the rounds after it. -/
theorem manyWithin_ok {p : Parser α} {s rest last : List Char} {a : α} {as : List α} {rounds : Nat}
    (h : p s = .ok a rest) (hs : manyWithin rounds p rest = .ok as last) :
    manyWithin (rounds + 1) p s = .ok (a :: as) last :=
  orElse_ok ((bind_ok h).trans (bind_ok hs))

/-- A failure in a later round is one of the repetition. -/
theorem manyWithin_ok_fail {p : Parser α} {s rest last : List Char} {a : α} {fault : Fault}
    {rounds : Nat} (h : p s = .ok a rest) (hs : manyWithin rounds p rest = .fail fault last) :
    manyWithin (rounds + 1) p s = .fail fault last :=
  orElse_fail ((bind_ok h).trans (bind_fail hs))

/-- A repetition never misses. -/
theorem manyWithin_ne_miss (rounds : Nat) (p : Parser α) (s rest : List Char) :
    manyWithin rounds p s ≠ .miss rest := by
  induction rounds generalizing s rest with
  | zero => nofun
  | succ rounds ih =>
    cases h : p s with
    | miss other => rw [manyWithin_miss h]; nofun
    | fail fault other => rw [manyWithin_fail h]; nofun
    | ok a other =>
      cases hs : manyWithin rounds p other with
      | miss last => exact absurd hs (ih other last)
      | fail fault last => rw [manyWithin_ok_fail h hs]; nofun
      | ok as last => rw [manyWithin_ok h hs]; nofun

/-- Repeats a parser until it misses. If every round reads something, the length of the text bounds
the number of rounds. -/
def many (p : Parser α) : Parser (List α) := fun s =>
  manyWithin (s.length + 1) p s

/-- Items with a separator between each two. A separator without an item after it is left
unread. -/
def separated (item : Parser α) (separator : Parser Unit) : Parser (List α) :=
  (do
    let a ← item
    let as ← many (do separator; item)
    return a :: as) <|> pure []

end Parser

end Scriptlet
