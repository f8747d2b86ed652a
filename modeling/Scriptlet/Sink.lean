/-!
# Sinks

Where a program prints to. A sink may have room for only so many characters, and may allow only so
many flushes. Printed texts are decimal numbers, whose characters take up one byte each, so that
room in characters is room in bytes.

A sink keeps the texts apart that were printed one after the other; `contents` is what a reader of
the sink sees.
-/

namespace Scriptlet

/-- Why a print fails. -/
inductive SinkError where
  | full
  | flushRefused
  deriving DecidableEq, Repr, Inhabited

namespace SinkError

/-- What a user is told. -/
def message : SinkError → String
  | full => "sink full"
  | flushRefused => "flush refused"

end SinkError

/-- What was printed, and how much more may be. -/
structure Sink where
  /-- The texts that were printed, the latest first. -/
  printed : List (List Char)
  /-- The characters that still fit, if there is a bound. -/
  room : Option Nat
  /-- The flushes that are still allowed, if there is a bound. -/
  flushes : Option Nat
  deriving DecidableEq, Repr, Inhabited

namespace Sink

/-- An empty sink with the given bounds. -/
def limited (room flushes : Option Nat) : Sink := ⟨[], room, flushes⟩

/-- An empty sink without bounds. -/
def unlimited : Sink := limited none none

/-- The printed texts in order. -/
def texts (s : Sink) : List (List Char) := s.printed.reverse

/-- Everything that was printed. -/
def contents (s : Sink) : List Char := s.texts.flatten

/-- Everything that was printed after an earlier state of the sink. -/
def contentsSince (s earlier : Sink) : List Char :=
  (s.texts.drop earlier.printed.length).flatten

/-- Writes a text, or as much of it as fits. -/
def write (s : Sink) (text : List Char) : Option SinkError × Sink :=
  match s.room with
  | none => (none, { s with printed := text :: s.printed })
  | some n =>
    if text.length ≤ n then
      (none, { s with printed := text :: s.printed, room := some (n - text.length) })
    else
      (some .full, { s with printed := text.take n :: s.printed, room := some 0 })

/-- Flushes what was written. A refused flush takes nothing back. -/
def flush (s : Sink) : Option SinkError × Sink :=
  match s.flushes with
  | none => (none, s)
  | some 0 => (some .flushRefused, s)
  | some (n + 1) => (none, { s with flushes := some n })

/-- Writes a text and flushes it, unless writing failed. -/
def print (s : Sink) (text : List Char) : Option SinkError × Sink :=
  match s.write text with
  | (none, s) => s.flush
  | (some error, s) => (some error, s)

/-- A sink without bounds takes every text. -/
theorem print_of_unbounded {s : Sink} (hr : s.room = none) (hf : s.flushes = none)
    (text : List Char) : s.print text = (none, { s with printed := text :: s.printed }) := by
  simp [print, write, flush, hr, hf]

/-- A flush leaves what was printed alone. -/
theorem printed_flush (s : Sink) : s.flush.2.printed = s.printed := by
  unfold flush
  split <;> rfl

/-- A print adds one text, which is all of the given one or as much of it as fits. -/
theorem printed_print (s : Sink) (text : List Char) :
    (s.print text).2.printed = (s.room.elim text text.take) :: s.printed := by
  unfold print write
  cases hr : s.room with
  | none => simp [printed_flush]
  | some n =>
    by_cases h : text.length ≤ n
    · simp [h, printed_flush, List.take_of_length_le h]
    · simp [h]

end Sink

end Scriptlet
