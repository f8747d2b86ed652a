import Mathlib.Data.List.Find
import Scriptlet.Proofs.Renaming.Rename
import Scriptlet.Proofs.Scopes.Reference

/-!
# Variables under new names

The variables of two calls are the same under a renaming (`LocalsRenamed`). Calls of a function and of
the renamed one start so (`LocalsRenamed.bindAll`), and they stay so when the same variable is written
on both sides (`LocalsRenamed.insert`). What has got a new name is a parameter and is therefore bound:
names that are looked for outside of the call are the same on both sides
(`LocalsRenamed.eq_of_unbound`).
-/

namespace Scriptlet

/-- The value of a name in the call that goes on, if one does. -/
def localOf? (locals : Option (Table Value)) (name : String) : Option Value :=
  locals.bind (·.get? name)

/-- The variables of two calls are the same, those of the second one under new names. Names that are
new belong to variables that are bound. -/
structure LocalsRenamed (N : String → Prop) (ρ : String → String)
    (before after : Option (Table Value)) : Prop where
  isSome : after.isSome = before.isSome
  value : ∀ {x : String}, N x → localOf? after (ρ x) = localOf? before x
  bound : ∀ {x : String}, N x → ρ x ≠ x → (localOf? before x).isSome

namespace LocalsRenamed

variable {N : String → Prop} {ρ : String → String} {l l' : Option (Table Value)}
  {t t' : Table Value} {x : String}

/-- Where nothing is renamed, the same variables are related. -/
theorem refl (N : String → Prop) (l : Option (Table Value)) : LocalsRenamed N id l l :=
  ⟨rfl, fun _ => rfl, fun _ h => absurd rfl h⟩

/-- A name that is not bound in the call has kept its name. -/
theorem eq_of_unbound (h : LocalsRenamed N ρ l l') (hx : N x) (hnone : localOf? l x = none) :
    ρ x = x := by
  by_contra hne
  have hbound := h.bound hx hne
  rw [hnone] at hbound
  cases hbound

/-- Tables that agree under new names do so after both are written. -/
theorem get?_insert (hρ : Faithful N ρ) (h : ∀ {y : String}, N y → t'.get? (ρ y) = t.get? y)
    (hx : N x) (v : Value) {y : String} (hy : N y) :
    (t'.insert (ρ x) v).get? (ρ y) = (t.insert x v).get? y := by
  rw [Table.get?_insert, Table.get?_insert, h hy]
  by_cases hxy : x = y
  · rw [if_pos hxy, if_pos (congrArg ρ hxy)]
  · rw [if_neg hxy, if_neg fun heq => hxy (hρ.injective hx hy heq)]

/-- A variable of the call is written on both sides. -/
theorem insert (hρ : Faithful N ρ) (h : LocalsRenamed N ρ (some t) (some t')) (hx : N x)
    (v : Value) : LocalsRenamed N ρ (some (t.insert x v)) (some (t'.insert (ρ x) v)) where
  isSome := rfl
  value := get?_insert hρ h.value hx v
  bound := by
    intro y hy hne
    have hbound : (t.get? y).isSome := h.bound hy hne
    change ((t.insert x v).get? y).isSome
    rw [Table.get?_insert]
    split
    · rfl
    · exact hbound

/-- What is bound under new names has the values of what is bound under the old ones. -/
theorem get?_bindAll_map (hρ : Faithful N ρ) {bindings : List (String × Value)}
    (hbindings : ∀ binding ∈ bindings, N binding.1) (hx : N x) :
    (Scoped.bindAll (bindings.map (Prod.map ρ id))).get? (ρ x) =
      (Scoped.bindAll bindings).get? x := by
  rw [Scoped.get?_bindAll, Scoped.get?_bindAll, ← List.map_reverse, List.find?_map, Option.map_map]
  have hfind : bindings.reverse.find? ((fun binding => decide (binding.1 = ρ x)) ∘ Prod.map ρ id) =
      bindings.reverse.find? fun binding => decide (binding.1 = x) := by
    refine List.find?_congr fun binding hbinding => ?_
    have hname := hbindings binding (List.mem_reverse.mp hbinding)
    exact decide_eq_decide.mpr ⟨hρ.injective hname hx, congrArg ρ⟩
  rw [hfind]
  rfl

/-- Calls of a function and of the renamed one start with their parameters. -/
theorem bindAll {f g : Function} (h : f.RenamedBy ρ g) {values : List Value}
    (hlength : f.parameters.length = values.length) :
    LocalsRenamed f.Mentions ρ (some (Scoped.bindAll (f.parameters.zip values)))
      (some (Scoped.bindAll (g.parameters.zip values))) where
  isSome := rfl
  value := by
    intro y hy
    have hzip : g.parameters.zip values = (f.parameters.zip values).map (Prod.map ρ id) := by
      rw [h.eq, Function.rename, List.zip_map_left]
    rw [hzip]
    exact get?_bindAll_map h.faithful (fun binding hbinding => .inl (List.of_mem_zip hbinding).1) hy
  bound := by
    intro y hy hne
    exact Scoped.isSome_get?_bindAll hlength (h.fixed hy hne)

end LocalsRenamed

end Scriptlet
