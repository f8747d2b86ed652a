import Scriptlet.Sink

/-!
# What a bounded sink takes

Texts are printed one after the other until a print fails (`printAll`). Of the texts that come to it,
a sink with bounds takes those before the first one with which they are more than it has room for, or
are more than it has flushes for (`CutAt`).

* `printAll_of_not_exceeds`: texts within the bounds are all taken.
* `printAll_of_cutAt`: otherwise it is the room that fails before the flush does, and what fits of the
  text at which it fails is kept.
-/

namespace Scriptlet

namespace Sink

/-- Prints texts one after the other, up to the first print that fails. -/
def printAll (s : Sink) : List (List Char) → Option SinkError × Sink
  | [] => (none, s)
  | text :: texts =>
    match s.print text with
    | (none, s) => s.printAll texts
    | (some error, s) => (some error, s)

/-- The sink after it has taken texts. -/
def after (s : Sink) (texts : List (List Char)) : Sink where
  printed := texts.reverse ++ s.printed
  room := s.room.map (· - texts.flatten.length)
  flushes := s.flushes.map (· - texts.length)

/-- The characters of the first `count` texts. -/
def sizeOf (texts : List (List Char)) (count : Nat) : Nat :=
  (texts.take count).flatten.length

/-- The first `count` texts have more characters than there is room for. -/
def Overfills (room : Option Nat) (texts : List (List Char)) (count : Nat) : Prop :=
  ∃ n ∈ room, n < sizeOf texts count

/-- Whether there is room can be decided. -/
instance (room : Option Nat) (texts : List (List Char)) (count : Nat) :
    Decidable (Overfills room texts count) :=
  inferInstanceAs (Decidable (∃ n ∈ room, n < sizeOf texts count))

/-- The first `count` texts are more than a sink takes, for want of room or of flushes. -/
def Exceeds (room flushes : Option Nat) (texts : List (List Char)) (count : Nat) : Prop :=
  Overfills room texts count ∨ ∃ m ∈ flushes, m < count

/-- Whether the sink takes them can be decided. -/
instance (room flushes : Option Nat) (texts : List (List Char)) (count : Nat) :
    Decidable (Exceeds room flushes texts count) :=
  inferInstanceAs (Decidable (_ ∨ _))

/-- Of some texts, the one at a place (counted from one) is the first that a sink does not take. -/
structure CutAt (room flushes : Option Nat) (texts : List (List Char)) (place : Nat) : Prop where
  le_length : place ≤ texts.length
  exceeds : Exceeds room flushes texts place
  least : ∀ count < place, ¬ Exceeds room flushes texts count

/-- Why the print at a place fails. -/
def cutError (room : Option Nat) (texts : List (List Char)) (place : Nat) : SinkError :=
  if Overfills room texts place then .full else .flushRefused

/-- How many of some characters there is room for. -/
def fitting (room : Option Nat) (size : Nat) : Nat :=
  room.elim size (min · size)

variable {s t : Sink} {room flushes : Option Nat} {text : List Char} {texts more : List (List Char)}
  {place : Nat}

/-! ### One print -/

/-- A text that fits and may be flushed is taken. -/
theorem print_of_fits (hroom : ∀ n ∈ s.room, text.length ≤ n) (hflushes : ∀ m ∈ s.flushes, 0 < m) :
    s.print text = (none, s.after [text]) := by
  obtain ⟨printed, room, flushes⟩ := s
  have hwrite : write ⟨printed, room, flushes⟩ text =
      (none, ⟨text :: printed, room.map (· - text.length), flushes⟩) := by
    cases room with
    | none => rfl
    | some n =>
      have hfits : text.length ≤ n := hroom n rfl
      simp [write, hfits]
  have hflush : ∀ room', flush ⟨text :: printed, room', flushes⟩ =
      (none, ⟨text :: printed, room', flushes.map (· - 1)⟩) := by
    intro room'
    cases flushes with
    | none => rfl
    | some m =>
      obtain ⟨k, rfl⟩ := Nat.exists_eq_add_one.mpr (hflushes m rfl)
      simp [flush]
  simp [print, hwrite, hflush, after]

/-- A text that does not fit is not flushed. What fits of it is kept. -/
theorem print_of_overflow {n : Nat} (hroom : s.room = some n) (h : n < text.length) :
    ∃ t, s.print text = (some .full, t) ∧ t.printed = text.take n :: s.printed := by
  simp [print, write, hroom, Nat.not_le_of_lt h]

/-- A text that fits is kept if it may not be flushed. -/
theorem print_of_refused (hroom : ∀ n ∈ s.room, text.length ≤ n) (hflushes : s.flushes = some 0) :
    ∃ t, s.print text = (some .flushRefused, t) ∧ t.printed = text :: s.printed := by
  cases hr : s.room with
  | none => simp [print, write, flush, hr, hflushes]
  | some n =>
    have hfits : text.length ≤ n := hroom n hr
    simp [print, write, flush, hr, hflushes, hfits]

/-! ### Several prints -/

/-- Without texts the sink stays. -/
@[simp] theorem printAll_nil (s : Sink) : s.printAll [] = (none, s) := rfl

/-- The later texts are printed if the first one was. -/
theorem printAll_cons (s : Sink) (text : List Char) (texts : List (List Char)) :
    s.printAll (text :: texts) =
      match s.print text with
      | (none, t) => t.printAll texts
      | (some error, t) => (some error, t) := rfl

/-- One text is printed like by itself. -/
@[simp] theorem printAll_singleton (s : Sink) (text : List Char) :
    s.printAll [text] = s.print text := by
  rw [printAll_cons]
  split <;> simp [*]

/-- Texts are printed after others if those are taken. -/
theorem printAll_append (s : Sink) (texts more : List (List Char)) :
    s.printAll (texts ++ more) =
      match s.printAll texts with
      | (none, t) => t.printAll more
      | (some error, t) => (some error, t) := by
  induction texts generalizing s with
  | nil => rfl
  | cons text texts ih =>
    simp only [List.cons_append, printAll_cons]
    split
    · exact ih _
    · rfl

/-! ### Texts within the bounds -/

/-- The first texts of a list with one more in front have the characters of this one as well. -/
theorem sizeOf_cons_succ (text : List Char) (texts : List (List Char)) (count : Nat) :
    sizeOf (text :: texts) (count + 1) = text.length + sizeOf texts count := by
  rw [sizeOf, List.take_succ_cons, List.flatten_cons, List.length_append]
  rfl

/-- One text more has its characters more. -/
theorem sizeOf_succ {i : Nat} (h : i < texts.length) :
    sizeOf texts (i + 1) = sizeOf texts i + texts[i].length := by
  rw [sizeOf, List.take_succ_eq_append_getElem h, List.flatten_append, List.length_append,
    List.flatten_singleton]
  rfl

/-- What a sink takes is within its room and its flushes. -/
theorem not_exceeds_iff : ¬ Exceeds room flushes texts place ↔
    (∀ n ∈ room, sizeOf texts place ≤ n) ∧ ∀ m ∈ flushes, place ≤ m := by
  unfold Exceeds Overfills
  simp only [not_or, not_exists, not_and, Nat.not_lt]

/-- Texts that together stay within the bounds are all taken. -/
theorem printAll_of_not_exceeds (h : ¬ Exceeds s.room s.flushes texts texts.length) :
    s.printAll texts = (none, s.after texts) := by
  induction texts generalizing s with
  | nil =>
    obtain ⟨printed, room, flushes⟩ := s
    cases room <;> cases flushes <;> rfl
  | cons text texts ih =>
    obtain ⟨hroom, hflushes⟩ := not_exceeds_iff.mp h
    simp only [List.length_cons, sizeOf_cons_succ] at hroom hflushes
    have hprint : s.print text = (none, s.after [text]) := by
      apply print_of_fits
      · intro n hn
        exact Nat.le_trans (Nat.le_add_right _ _) (hroom n hn)
      · intro m hm
        exact Nat.lt_of_lt_of_le (Nat.succ_pos _) (hflushes m hm)
    have hrest : ¬ Exceeds (s.after [text]).room (s.after [text]).flushes texts texts.length := by
      rw [not_exceeds_iff]
      constructor
      · intro left hleft
        obtain ⟨n, hn, rfl⟩ := Option.map_eq_some_iff.mp hleft
        have := hroom n hn
        rw [List.flatten_singleton]
        omega
      · intro left hleft
        obtain ⟨m, hm, rfl⟩ := Option.map_eq_some_iff.mp hleft
        have := hflushes m hm
        rw [List.length_singleton]
        omega
    rw [printAll, hprint]
    change (s.after [text]).printAll texts = _
    rw [ih hrest]
    simp [after, Function.comp_def, Nat.sub_sub, Nat.add_comm]

/-! ### The first text that is not taken -/

/-- Nothing is not too much. -/
theorem CutAt.exists_eq_succ (h : CutAt room flushes texts place) : ∃ i, place = i + 1 := by
  cases place with
  | succ i => exact ⟨i, rfl⟩
  | zero =>
    rcases h.exceeds with ⟨n, -, hn⟩ | ⟨m, -, hm⟩
    · simp [sizeOf] at hn
    · cases hm

/-- Some characters of the texts end within one of them. -/
theorem take_flatten {i k : Nat} (hi : i < texts.length) (hlow : sizeOf texts i ≤ k)
    (hhigh : k ≤ sizeOf texts (i + 1)) :
    texts.flatten.take k = (texts.take i).flatten ++ texts[i].take (k - sizeOf texts i) := by
  have hfits : k - (texts.take i).flatten.length ≤ texts[i].length := by
    rw [sizeOf_succ hi, sizeOf] at hhigh
    omega
  have hsplit : texts.flatten =
      (texts.take i).flatten ++ (texts[i] ++ (texts.drop (i + 1)).flatten) := by
    rw [← List.flatten_cons, List.getElem_cons_drop, ← List.flatten_append, List.take_append_drop]
  rw [hsplit, List.take_append, List.take_of_length_le hlow, List.take_append_of_le_length hfits]
  rfl

/-- A sink that has taken texts and kept a piece of one more. -/
theorem contents_of_piece {piece : List Char} (h : t.printed = piece :: (s.after texts).printed) :
    t.contents = s.contents ++ (texts.flatten ++ piece) := by
  simp [contents, Sink.texts, h, after]

/-- After the texts before the cut, the print of the next one fails, for want of room if there is one
and otherwise for want of a flush. What fits of it is kept. -/
theorem print_of_cutAt {i : Nat} (h : CutAt s.room s.flushes texts (i + 1)) (hi : i < texts.length) :
    ∃ t, (s.after (texts.take i)).print texts[i] = (some (cutError s.room texts (i + 1)), t) ∧
      t.printed = texts[i].take (fitting s.room (sizeOf texts (i + 1)) - sizeOf texts i) ::
        (s.after (texts.take i)).printed := by
  obtain ⟨hroom, hflushes⟩ := not_exceeds_iff.mp (h.least i (Nat.lt_succ_self i))
  have hsize := sizeOf_succ hi
  by_cases hfull : Overfills s.room texts (i + 1)
  · rw [cutError, if_pos hfull]
    obtain ⟨n, hn, hlt⟩ := hfull
    have hle : sizeOf texts i ≤ n := hroom n hn
    have hleft : (s.after (texts.take i)).room = some (n - sizeOf texts i) :=
      congrArg (Option.map _) hn
    have hfitting : fitting s.room (sizeOf texts (i + 1)) = n := by
      rw [hn]
      exact Nat.min_eq_left (Nat.le_of_lt hlt)
    rw [hfitting]
    exact print_of_overflow hleft (by omega)
  · rw [cutError, if_neg hfull]
    obtain ⟨m, hm, hlt⟩ := h.exceeds.resolve_left hfull
    have hle : ∀ n ∈ s.room, sizeOf texts (i + 1) ≤ n := by
      intro n hn
      exact Nat.le_of_not_lt fun hlt => hfull ⟨n, hn, hlt⟩
    have hfits : ∀ n ∈ (s.after (texts.take i)).room, texts[i].length ≤ n := by
      intro left hleft
      obtain ⟨n, hn, rfl⟩ := Option.map_eq_some_iff.mp hleft
      have := hle n hn
      change _ ≤ n - sizeOf texts i
      omega
    have hnone : (s.after (texts.take i)).flushes = some 0 := by
      have hcount : m = (texts.take i).length := by
        have := hflushes m hm
        rw [List.length_take_of_le (Nat.le_of_lt hi)]
        omega
      change s.flushes.map _ = _
      rw [hm, hcount, Option.map_some, Nat.sub_self]
    have hfitting : fitting s.room (sizeOf texts (i + 1)) = sizeOf texts (i + 1) := by
      cases hr : s.room with
      | none => rfl
      | some n => exact Nat.min_eq_right (hle n hr)
    rw [hfitting, hsize, Nat.add_sub_cancel_left, List.take_length]
    exact print_of_refused hfits hnone

/-- At the first text that a sink does not take, a print fails. What fits of the texts up to it is
kept. -/
theorem printAll_of_cutAt (h : CutAt s.room s.flushes texts place) :
    ∃ t, s.printAll texts = (some (cutError s.room texts place), t) ∧
      t.contents = s.contents ++ texts.flatten.take (fitting s.room (sizeOf texts place)) := by
  obtain ⟨i, rfl⟩ := h.exists_eq_succ
  have hi : i < texts.length := h.le_length
  have hwithin := h.least i (Nat.lt_succ_self i)
  -- the texts before the cut are taken
  have hbefore : s.printAll (texts.take i) = (none, s.after (texts.take i)) := by
    apply printAll_of_not_exceeds
    rw [not_exceeds_iff, sizeOf, List.take_length, List.length_take_of_le (Nat.le_of_lt hi)]
    exact not_exceeds_iff.mp hwithin
  obtain ⟨t, hprint, hprinted⟩ := print_of_cutAt h hi
  refine ⟨t, ?_, ?_⟩
  · have hsplit : texts = texts.take i ++ texts[i] :: texts.drop (i + 1) := by
      rw [List.getElem_cons_drop, List.take_append_drop]
    rw [hsplit, printAll_append, hbefore]
    simp only [printAll_cons, hprint, ← hsplit]
  · have hlow : sizeOf texts i ≤ fitting s.room (sizeOf texts (i + 1)) := by
      have hle : sizeOf texts i ≤ sizeOf texts (i + 1) := by
        rw [sizeOf_succ hi]
        exact Nat.le_add_right _ _
      cases hr : s.room with
      | none => exact hle
      | some n => exact Nat.le_min.mpr ⟨(not_exceeds_iff.mp hwithin).1 n hr, hle⟩
    have hhigh : fitting s.room (sizeOf texts (i + 1)) ≤ sizeOf texts (i + 1) := by
      cases s.room with
      | none => exact Nat.le_refl _
      | some n => exact Nat.min_le_right _ _
    rw [take_flatten hi hlow hhigh]
    exact contents_of_piece hprinted

end Sink

end Scriptlet
