import Mathlib.Data.List.Nodup
import Scriptlet.Eval.Program

/-!
# The functions of a program

Definitions make functions known in their order, so that of several functions of one name the last one
is known afterwards (`get?_registerAll`). A program can be started exactly if its last function with
the name of the entry point takes no arguments (`Program.hasEntryPoint_iff`). A function is well formed
if it has a name and its parameters are distinct (`Function.malformation?_eq_none_iff`); if they are
not, what is wrong with it is its first parameter that is equal to an earlier one
(`firstRepeated_eq_some_iff`).
-/

namespace Scriptlet

/-- The functions that are known after a definition. -/
def Definition.register : Definition → Table Function → Table Function
  | .function f, known => known.insert f.name f
  | .global _ _, known => known

/-- The functions that are known after several definitions. -/
def registerAll (known : Table Function) (ds : List Definition) : Table Function :=
  ds.foldl (fun known d => d.register known) known

/-- The function of a name, if a definition defines it. -/
def Definition.functionNamed? (name : String) : Definition → Option Function
  | .function f => if f.name = name then some f else none
  | .global _ _ => none

/-- After a definition, its function is known under its name, and the others as before. -/
theorem Definition.get?_register (d : Definition) (known : Table Function) (name : String) :
    (d.register known).get? name = (d.functionNamed? name).or (known.get? name) := by
  cases d with
  | function f =>
    rw [register, functionNamed?, Table.get?_insert]
    split <;> rfl
  | global x e => rfl

/-- The last function of a name is known, or else the one that was known before. -/
theorem get?_registerAll (known : Table Function) (ds : List Definition) (name : String) :
    (registerAll known ds).get? name =
      (ds.reverse.findSome? (Definition.functionNamed? name)).or (known.get? name) := by
  induction ds generalizing known with
  | nil => rfl
  | cons d ds ih =>
    have htail : registerAll known (d :: ds) = registerAll (d.register known) ds := rfl
    rw [htail, ih, d.get?_register, List.reverse_cons, List.findSome?_append, List.findSome?_singleton,
      Option.or_assoc]

/-- A definition defines the function of a name if it is one of a function with that name. -/
theorem Definition.functionNamed?_eq_some_iff {d : Definition} {name : String} {f : Function} :
    d.functionNamed? name = some f ↔ d = .function f ∧ f.name = name := by
  cases d with
  | function g =>
    simp only [functionNamed?, Option.ite_none_right_eq_some, Option.some.injEq, function.injEq]
    constructor
    · rintro ⟨hname, rfl⟩
      exact ⟨rfl, hname⟩
    · rintro ⟨rfl, hname⟩
      exact ⟨hname, rfl⟩
  | global x e => simp [functionNamed?]

/-! ### Entry points -/

/-- A program starts at its last function with the name of the entry point, which is to take no
arguments. -/
structure Program.StartsAt (p : Program) (main : Function) : Prop where
  name : main.name = entryName
  parameters : main.parameters = []
  last : ∃ before after, p.definitions = before ++ .function main :: after ∧
    ∀ f, .function f ∈ after → f.name ≠ entryName

/-- The parameters that an entry point is recognised by are those of the function that is known. -/
theorem Program.lastParameters?_eq (p : Program) (name : String) :
    p.lastParameters? name =
      (p.definitions.reverse.findSome? (Definition.functionNamed? name)).map
        Function.parameters := by
  unfold lastParameters?
  rw [List.map_findSome?]
  congr
  funext d
  cases d with
  | function f =>
    change (if f.name = name then some f.parameters else none) =
      (if f.name = name then some f else none).map Function.parameters
    split <;> rfl
  | global x e => rfl

/-- The last function of a name has no other of that name behind it. -/
theorem lastNamed_eq_some_iff {ds : List Definition} {name : String} {f : Function} :
    ds.reverse.findSome? (Definition.functionNamed? name) = some f ↔
      f.name = name ∧ ∃ before after, ds = before ++ .function f :: after ∧
        ∀ g, .function g ∈ after → g.name ≠ name := by
  rw [List.findSome?_eq_some_iff]
  constructor
  · rintro ⟨behind, d, front, hsplit, hd, hbehind⟩
    obtain ⟨rfl, hname⟩ := Definition.functionNamed?_eq_some_iff.mp hd
    refine ⟨hname, front.reverse, behind.reverse, ?_, ?_⟩
    · have hreverse := congrArg List.reverse hsplit
      simpa using hreverse
    · intro g hg hgname
      have hnone := hbehind _ (List.mem_reverse.mp hg)
      rw [Definition.functionNamed?_eq_some_iff.mpr ⟨rfl, hgname⟩] at hnone
      cases hnone
  · rintro ⟨hname, before, after, rfl, hafter⟩
    refine ⟨after.reverse, .function f, before.reverse, by simp, ?_, ?_⟩
    · exact Definition.functionNamed?_eq_some_iff.mpr ⟨rfl, hname⟩
    · intro d hd
      rw [Option.eq_none_iff_forall_ne_some]
      intro g hg
      obtain ⟨rfl, hgname⟩ := Definition.functionNamed?_eq_some_iff.mp hg
      exact hafter g (List.mem_reverse.mp hd) hgname

/-- A function that is known after definitions is one of theirs, or was known before. -/
theorem mem_or_of_get?_registerAll {known : Table Function} {ds : List Definition} {name : String}
    {f : Function} (h : (registerAll known ds).get? name = some f) :
    .function f ∈ ds ∨ known.get? name = some f := by
  rw [get?_registerAll, Option.or_eq_some_iff] at h
  rcases h with hlast | ⟨-, hknown⟩
  · obtain ⟨-, before, after, rfl, -⟩ := lastNamed_eq_some_iff.mp hlast
    exact .inl (List.mem_append_right before List.mem_cons_self)
  · exact .inr hknown

/-- A program starts at the last function with the name of the entry point, if that takes no arguments. -/
theorem Program.startsAt_iff {p : Program} {main : Function} :
    p.StartsAt main ↔
      p.definitions.reverse.findSome? (Definition.functionNamed? entryName) = some main ∧
        main.parameters = [] := by
  rw [lastNamed_eq_some_iff]
  constructor
  · exact fun h => ⟨⟨h.name, h.last⟩, h.parameters⟩
  · rintro ⟨⟨hname, hlast⟩, hparameters⟩
    exact ⟨hname, hparameters, hlast⟩

/-- The program can be started exactly if there is a function at which it starts. -/
theorem Program.hasEntryPoint_iff {p : Program} : p.hasEntryPoint ↔ ∃ main, p.StartsAt main := by
  unfold hasEntryPoint
  rw [beq_iff_eq, p.lastParameters?_eq, Option.map_eq_some_iff]
  simp only [Program.startsAt_iff]

/-! ### Well-formed functions -/

/-- A name is the first in a list that is equal to an earlier one. -/
def IsFirstRepeated (x : String) (xs : List String) : Prop :=
  ∃ before after, xs = before ++ x :: after ∧ before.Nodup ∧ x ∈ before

/-- A name that is repeated makes a list repeat. -/
theorem IsFirstRepeated.not_nodup {x : String} {xs : List String} (h : IsFirstRepeated x xs) :
    ¬ xs.Nodup := by
  obtain ⟨before, after, rfl, -, hx⟩ := h
  intro hnodup
  exact (List.nodup_append.mp hnodup).2.2 x hx x List.mem_cons_self rfl

/-- No name is repeated exactly if the names are distinct. -/
theorem firstRepeated_eq_none_iff {seen xs : List String} :
    firstRepeated seen xs = none ↔ (∀ x ∈ xs, x ∉ seen) ∧ xs.Nodup := by
  induction xs generalizing seen with
  | nil => simp [firstRepeated]
  | cons x xs ih =>
    unfold firstRepeated
    by_cases hx : x ∈ seen
    · simp [hx]
    · rw [if_neg hx, ih]
      simp only [List.mem_cons, not_or, List.nodup_cons, forall_eq_or_imp]
      constructor
      · rintro ⟨hxs, hnodup⟩
        exact ⟨⟨hx, fun z hz => (hxs z hz).2⟩, fun h => (hxs x h).1 rfl, hnodup⟩
      · rintro ⟨⟨-, hxs⟩, hnot, hnodup⟩
        exact ⟨fun z hz => ⟨fun h => hnot (h ▸ hz), hxs z hz⟩, hnodup⟩

/-- The name that is found is the first one that was seen, or that is equal to an earlier one. -/
theorem firstRepeated_seen_eq_some_iff {seen xs : List String} {x : String} :
    firstRepeated seen xs = some x ↔
      ∃ before after, xs = before ++ x :: after ∧ before.Nodup ∧ (∀ y ∈ before, y ∉ seen) ∧
        (x ∈ seen ∨ x ∈ before) := by
  induction xs generalizing seen with
  | nil => simp [firstRepeated]
  | cons y ys ih =>
    unfold firstRepeated
    by_cases hy : y ∈ seen
    · rw [if_pos hy, Option.some_inj]
      constructor
      · rintro rfl
        exact ⟨[], ys, rfl, List.nodup_nil, fun _ h => absurd h List.not_mem_nil, .inl hy⟩
      · rintro ⟨before, after, hsplit, -, hbefore, -⟩
        cases before with
        | nil => exact (List.cons.inj hsplit).1
        | cons z zs =>
          obtain ⟨rfl, -⟩ := List.cons.inj hsplit
          exact absurd hy (hbefore y List.mem_cons_self)
    · rw [if_neg hy, ih]
      constructor
      · rintro ⟨before, after, rfl, hnodup, hbefore, hx⟩
        have hnot : y ∉ before := fun h => hbefore y h List.mem_cons_self
        refine ⟨y :: before, after, rfl, List.nodup_cons.mpr ⟨hnot, hnodup⟩, ?_, ?_⟩
        · exact List.forall_mem_cons.mpr
            ⟨hy, fun z hz hseen => hbefore z hz (List.mem_cons_of_mem _ hseen)⟩
        · simp only [List.mem_cons] at hx ⊢
          tauto
      · rintro ⟨before, after, hsplit, hnodup, hbefore, hx⟩
        cases before with
        | nil =>
          obtain ⟨rfl, -⟩ := List.cons.inj hsplit
          exact absurd hx (by simp [hy])
        | cons z zs =>
          obtain ⟨rfl, rfl⟩ := List.cons.inj hsplit
          obtain ⟨hnot, hnodup⟩ := List.nodup_cons.mp hnodup
          refine ⟨zs, after, rfl, hnodup, ?_, ?_⟩
          · intro w hw hseen
            rcases List.mem_cons.mp hseen with rfl | hseen
            · exact hnot hw
            · exact hbefore w (List.mem_cons_of_mem _ hw) hseen
          · simp only [List.mem_cons] at hx ⊢
            tauto

/-- The first repeated name is the one that a search through the list comes to. -/
theorem firstRepeated_eq_some_iff {xs : List String} {x : String} :
    firstRepeated [] xs = some x ↔ IsFirstRepeated x xs := by
  rw [firstRepeated_seen_eq_some_iff]
  simp [IsFirstRepeated]

/-- A function is well formed if it has a name and distinct parameters. -/
theorem Function.malformation?_eq_none_iff {f : Function} :
    f.malformation? = none ↔ f.name ≠ "" ∧ f.parameters.Nodup := by
  unfold malformation?
  by_cases hname : f.name = ""
  · simp [hname]
  · rw [if_neg hname, Option.map_eq_none_iff, firstRepeated_eq_none_iff]
    simp [hname]

/-- A parameter that is repeated is not looked for in a function without a name. -/
theorem Function.malformation?_eq_some_iff {f : Function} {reason : Malformation} :
    f.malformation? = some reason ↔
      f.name = "" ∧ reason = .unnamedFunction ∨
      f.name ≠ "" ∧ ∃ x, IsFirstRepeated x f.parameters ∧ reason = .repeatedParameter x f.name := by
  unfold malformation?
  by_cases hname : f.name = ""
  · simp [hname, eq_comm]
  · rw [if_neg hname, Option.map_eq_some_iff]
    simp only [firstRepeated_eq_some_iff]
    simp [hname, eq_comm]

end Scriptlet
