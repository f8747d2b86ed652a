/-!
# Tables

A finite map from names, kept as a list of entries in the order in which the names first came in.

`get?_insert` is the law of the table: writing a name changes what that name gives and nothing else.
-/

namespace Scriptlet

/-- A finite map from names. -/
structure Table (α : Type) where
  entries : List (String × α)
  deriving DecidableEq, Repr, Inhabited

namespace Table

variable {α : Type}

/-- The table without entries. -/
def empty : Table α := ⟨[]⟩

/-- The entry of a name in a list. -/
def find? (name : String) : List (String × α) → Option α
  | [] => none
  | (key, value) :: rest => if key = name then some value else find? name rest

/-- Replaces the entry of a name in a list, or adds one at its end. -/
def write (name : String) (value : α) : List (String × α) → List (String × α)
  | [] => [(name, value)]
  | (key, old) :: rest =>
    if key = name then (name, value) :: rest else (key, old) :: write name value rest

/-- What a name gives. -/
def get? (t : Table α) (name : String) : Option α :=
  find? name t.entries

/-- Whether a name has an entry. -/
def contains (t : Table α) (name : String) : Bool :=
  (t.get? name).isSome

/-- The table in which a name gives a value. -/
def insert (t : Table α) (name : String) (value : α) : Table α :=
  ⟨write name value t.entries⟩

/-- The empty table gives nothing. -/
@[simp] theorem get?_empty (name : String) : (empty : Table α).get? name = none := rfl

/-- Writing a list changes what the written name gives and nothing else. -/
theorem find?_write (name other : String) (value : α) (entries : List (String × α)) :
    find? other (write name value entries) =
      if name = other then some value else find? other entries := by
  induction entries with
  | nil => simp [write, find?]
  | cons entry rest ih =>
    obtain ⟨key, old⟩ := entry
    unfold write
    split
    · next h => subst h; simp only [find?]; split <;> rfl
    · next h =>
      simp only [find?, ih]
      split
      · next hk => subst hk; rw [if_neg (Ne.symm h)]
      · rfl

/-- Writing a name changes what that name gives and nothing else. -/
theorem get?_insert (t : Table α) (name other : String) (value : α) :
    (t.insert name value).get? other = if name = other then some value else t.get? other :=
  find?_write name other value t.entries

/-- A written name gives what was written. -/
@[simp] theorem get?_insert_self (t : Table α) (name : String) (value : α) :
    (t.insert name value).get? name = some value := by
  rw [get?_insert, if_pos rfl]

/-- Writing a name leaves the others alone. -/
theorem get?_insert_of_ne (t : Table α) {name other : String} (h : name ≠ other) (value : α) :
    (t.insert name value).get? other = t.get? other := by
  rw [get?_insert, if_neg h]

end Table

end Scriptlet
