import Scriptlet.Text.Blank

/-!
# Log filters

How much of the log is shown. Every line of the log has a level and a target, the part of the
program that it comes from. A filter is a list of directives between commas, such as
`info,toys::interpreter=trace`: a level for all targets, a target to show in full, or a target with
a level of its own. Of the directives for a target the one that names the most of it decides.

A level is written by its name or by a number from 0 to 5. Any other word, even a number, names a
target.
-/

namespace Scriptlet.CommandLine

open Scriptlet.Text

/-- How much is logged. Each level includes those before it. -/
inductive Level where
  | off
  | error
  | warn
  | info
  | debug
  | trace
  deriving DecidableEq, Repr, Inhabited

namespace Level

/-- The place of a level in their order. -/
def rank : Level → Nat
  | off => 0
  | error => 1
  | warn => 2
  | info => 3
  | debug => 4
  | trace => 5

/-- The level at a place in their order. -/
def ofRank? : Nat → Option Level
  | 0 => some off
  | 1 => some error
  | 2 => some warn
  | 3 => some info
  | 4 => some debug
  | 5 => some trace
  | _ => none

/-- Every level is at the place of its rank. -/
theorem ofRank?_rank (level : Level) : ofRank? level.rank = some level := by
  cases level <;> rfl

/-- Whether lines of a level are written when the log is at level `limit`. -/
def enabled (limit level : Level) : Bool :=
  level.rank ≤ limit.rank

/-- The level of a name in small letters. -/
def ofName? (name : String) : Option Level :=
  match name with
  | "off" => some off
  | "error" => some error
  | "warn" => some warn
  | "info" => some info
  | "debug" => some debug
  | "trace" => some trace
  | _ => none

/-- What follows a plus sign, if a text starts with one. -/
def dropPlus : List Char → List Char
  | '+' :: s => s
  | s => s

/-- The number that a text of decimal digits stands for, after a plus sign or without. Leading zeros
do not matter. -/
def number? (text : List Char) : Option Nat :=
  let digits := dropPlus text
  if !digits.isEmpty && digits.all Char.isDigit then some (Nat.ofDigitChars 10 digits 0) else none

/-- The level that a text asks for, by its rank or by its name in letters of any case. -/
def ofText? (text : List Char) : Option Level :=
  match number? text with
  | some n => ofRank? n
  | none => ofName? (String.ofList (text.map Char.toLower))

/-- The level after asking for more lines a number of times. -/
def ofVerbosity : Nat → Level
  | 0 => warn
  | 1 => info
  | 2 => debug
  | _ => trace

end Level

/-- One rule of a filter: lines of the targets that start with `target` are shown up to `level`. -/
structure Directive where
  target : List Char
  level : Level
  deriving DecidableEq, Repr, Inhabited

namespace Directive

/-- Whether a directive is about a target. -/
def covers (d : Directive) (target : List Char) : Bool :=
  d.target.isPrefixOf target

/-- The characters that a directive starts with. All characters beyond ASCII count as letters. -/
def isStart (c : Char) : Bool :=
  c.isAlphanum || c == '-' || c == ':' || c == '_' || 127 < c.toNat

/-- A directive without `=`: a level for all targets, or else a target to show in full. -/
def ofWord (word : List Char) : Directive :=
  match Level.ofText? word with
  | some level => ⟨[], level⟩
  | none => ⟨word, .trace⟩

/-- A directive with `=`: a target and the text of its level, which shows it in full if empty. -/
def ofPair? (target level : List Char) : Option Directive :=
  if level.isEmpty then some ⟨target, .trace⟩
  else (Level.ofText? level).map fun level => ⟨target, level⟩

/-- The directive that a text writes. Blank characters belong to the word or the level that they
stand at, and cannot come before a target with `=`. Brackets are not understood. -/
def ofText? (text : List Char) : Option Directive :=
  if !(trimStart text).head?.any isStart || text.contains '[' then none
  else match text.span fun c => c != '=' with
    | (word, []) => some (ofWord word)
    | (target, _ :: level) => if text.head?.any isBlank then none else ofPair? target level

/-- Of the directives for a target the one that names the most of it, and of equals the last. -/
def closest (target : List Char) : List Directive → Option Directive
  | [] => none
  | d :: ds =>
    match closest target ds with
    | none => if d.covers target then some d else none
    | some e => if d.covers target && e.target.length < d.target.length then some d else some e

/-- No directive is closest where none is for the target. -/
theorem closest_eq_none_iff {target : List Char} {ds : List Directive} :
    closest target ds = none ↔ ∀ d ∈ ds, d.covers target = false := by
  induction ds with
  | nil => simp [closest]
  | cons d ds ih => grind [closest]

/-- The closest directive is one of those for the target. -/
theorem closest_mem {target : List Char} {ds : List Directive} {d : Directive}
    (h : closest target ds = some d) : d ∈ ds ∧ d.covers target := by
  induction ds generalizing d with
  | nil => simp [closest] at h
  | cons e ds ih => grind [closest]

/-- No directive for the target names more of it than the closest one. -/
theorem length_le_closest {target : List Char} {ds : List Directive} {d e : Directive}
    (h : closest target ds = some d) (he : e ∈ ds) (hc : e.covers target) :
    e.target.length ≤ d.target.length := by
  induction ds generalizing d with
  | nil => simp at he
  | cons c ds ih =>
    cases hds : closest target ds with
    | none => grind [closest, closest_eq_none_iff]
    | some _ => grind [closest]

end Directive

/-- Which lines of the log are shown. Targets without a directive are not. -/
structure Filter where
  directives : List Directive
  deriving DecidableEq, Repr, Inhabited

namespace Filter

/-- The filter that shows all targets up to a level. -/
def upTo (level : Level) : Filter :=
  ⟨[⟨[], level⟩]⟩

/-- The level up to which a target is shown. -/
def levelOf (f : Filter) (target : String) : Level :=
  match Directive.closest target.toList f.directives with
  | some d => d.level
  | none => .off

/-- `upTo` treats all targets alike. -/
theorem levelOf_upTo (level : Level) (target : String) : (upTo level).levelOf target = level := by
  simp [upTo, levelOf, Directive.closest, Directive.covers]

/-- The filter that a text writes: directives between commas, with nothing between some of them. -/
def ofString? (text : String) : Option Filter :=
  (((text.toList.splitOn ',').filter fun piece => !piece.isEmpty).mapM Directive.ofText?).map
    Filter.mk

/-- The filter of a run: a text that writes one wins over the verbosity that was asked for. -/
def choose (text : Option String) (verbosity : Nat) : Filter :=
  (text.bind ofString?).getD (upTo (.ofVerbosity verbosity))

end Filter

end Scriptlet.CommandLine
