import Scriptlet.Proofs.Eval.Definitions
import Scriptlet.Proofs.Printer.Names

/-!
# Renaming the variables of a function

The variables of a function are renamed in its parameters and throughout its body, where they are read
and assigned; the names of the functions that it calls stay (`Function.rename`). A renaming of one
parameter (`Function.renameParameter`) to a name that the function does not mention is one that the
function's calls cannot tell apart (`Function.Alpha`): it keeps the names in the function apart and
changes names of parameters only.
-/

namespace Scriptlet

mutual

/-- An expression with its variables renamed. -/
def Expr.rename (ρ : String → String) : Expr → Expr
  | .int v => .int v
  | .var x => .var (ρ x)
  | .assign x e => .assign (ρ x) (e.rename ρ)
  | .binary op l r => .binary op (l.rename ρ) (r.rename ρ)
  | .block b => .block (Expr.renameAll ρ b)
  | .whileDo e b => .whileDo (e.rename ρ) (Expr.renameAll ρ b)
  | .ifThen e b => .ifThen (e.rename ρ) (Expr.renameAll ρ b)
  | .ifElse e b d => .ifElse (e.rename ρ) (Expr.renameAll ρ b) (Expr.renameAll ρ d)
  | .print e => .print (e.rename ρ)
  | .call f a => .call f (Expr.renameAll ρ a)

/-- Expressions with their variables renamed. -/
def Expr.renameAll (ρ : String → String) : List Expr → List Expr
  | [] => []
  | e :: es => e.rename ρ :: Expr.renameAll ρ es

end

/-- A function with its parameters renamed, and the variables of its body with them. -/
def Function.rename (ρ : String → String) (f : Function) : Function where
  name := f.name
  parameters := f.parameters.map ρ
  body := Expr.renameAll ρ f.body

/-- One name in place of another. -/
def replace (x y z : String) : String :=
  if z = x then y else z

/-- A function with one parameter renamed. -/
def Function.renameParameter (x y : String) (f : Function) : Function :=
  f.rename (replace x y)

/-- A name is one of a function's parameters or stands in its body. -/
def Function.Mentions (f : Function) (x : String) : Prop :=
  x ∈ f.parameters ∨ x ∈ Expr.namesOf f.body

/-! ### Expressions -/

/-- Several expressions are renamed one by one. -/
theorem Expr.renameAll_eq_map (ρ : String → String) (es : List Expr) :
    Expr.renameAll ρ es = es.map (Expr.rename ρ) := by
  induction es with
  | nil => rfl
  | cons e es ih => rw [Expr.renameAll, ih, List.map_cons]

/-- The names in several expressions are those in each of them. -/
theorem Expr.mem_namesOf {x : String} {es : List Expr} :
    x ∈ Expr.namesOf es ↔ ∃ e ∈ es, x ∈ e.names := by
  induction es with
  | nil => simp [Expr.namesOf]
  | cons e es ih => simp [Expr.namesOf, ih]

mutual

/-- A renaming that changes none of an expression's names does not change the expression. -/
theorem Expr.rename_eq_self {ρ : String → String} :
    (e : Expr) → (∀ x ∈ e.names, ρ x = x) → e.rename ρ = e
  | .int _, _ => rfl
  | .var x, h => congrArg Expr.var (h x (List.mem_singleton.mpr rfl))
  | .assign x e, h => by
    obtain ⟨hx, he⟩ := List.forall_mem_cons.mp h
    rw [Expr.rename, hx, Expr.rename_eq_self e he]
  | .binary op l r, h => by
    obtain ⟨hl, hr⟩ := List.forall_mem_append.mp h
    rw [Expr.rename, Expr.rename_eq_self l hl, Expr.rename_eq_self r hr]
  | .block b, h => by rw [Expr.rename, Expr.renameAll_eq_self b h]
  | .whileDo e b, h => by
    obtain ⟨he, hb⟩ := List.forall_mem_append.mp h
    rw [Expr.rename, Expr.rename_eq_self e he, Expr.renameAll_eq_self b hb]
  | .ifThen e b, h => by
    obtain ⟨he, hb⟩ := List.forall_mem_append.mp h
    rw [Expr.rename, Expr.rename_eq_self e he, Expr.renameAll_eq_self b hb]
  | .ifElse e b d, h => by
    obtain ⟨heb, hd⟩ := List.forall_mem_append.mp h
    obtain ⟨he, hb⟩ := List.forall_mem_append.mp heb
    rw [Expr.rename, Expr.rename_eq_self e he, Expr.renameAll_eq_self b hb,
      Expr.renameAll_eq_self d hd]
  | .print e, h => by rw [Expr.rename, Expr.rename_eq_self e h]
  | .call _ a, h => by
    rw [Expr.rename, Expr.renameAll_eq_self a (List.forall_mem_cons.mp h).2]

/-- Expressions whose names all stay are not changed. -/
theorem Expr.renameAll_eq_self {ρ : String → String} :
    (es : List Expr) → (∀ x ∈ Expr.namesOf es, ρ x = x) → Expr.renameAll ρ es = es
  | [], _ => rfl
  | e :: es, h => by
    obtain ⟨he, hes⟩ := List.forall_mem_append.mp h
    rw [Expr.renameAll, Expr.rename_eq_self e he, Expr.renameAll_eq_self es hes]

end

/-! ### Renamings that are not seen -/

/-- A renaming that keeps some names apart, and the empty name as well. -/
structure Faithful (N : String → Prop) (ρ : String → String) : Prop where
  injective : ∀ {x y : String}, N x → N y → ρ x = ρ y → x = y
  empty : ∀ {x : String}, N x → (ρ x = "" ↔ x = "")

/-- A function is another one under different names of its parameters. -/
structure Function.RenamedBy (ρ : String → String) (f g : Function) : Prop where
  eq : g = f.rename ρ
  faithful : Faithful f.Mentions ρ
  /-- Names that do not belong to the function stay. -/
  fixed : ∀ {x : String}, f.Mentions x → ρ x ≠ x → x ∈ f.parameters

/-- Two functions differ in the names of their parameters at most. -/
def Function.Alpha (f g : Function) : Prop :=
  ∃ ρ, f.RenamedBy ρ g

/-- It is faithful to rename nothing. -/
theorem faithful_id (N : String → Prop) : Faithful N id :=
  ⟨fun _ _ h => h, fun _ => Iff.rfl⟩

/-- A renaming that changes none of a function's names does not change the function. -/
theorem Function.rename_eq_self {ρ : String → String} {f : Function}
    (h : ∀ x, f.Mentions x → ρ x = x) : f.rename ρ = f := by
  have hparameters : f.parameters.map ρ = f.parameters :=
    (List.map_congr_left fun x hx => h x (.inl hx)).trans f.parameters.map_id
  rw [Function.rename, hparameters, Expr.renameAll_eq_self f.body fun x hx => h x (.inr hx)]

/-- A function is like itself. -/
theorem Function.Alpha.refl (f : Function) : f.Alpha f :=
  ⟨id, (Function.rename_eq_self fun _ _ => rfl).symm, faithful_id _, fun _ h => absurd rfl h⟩

/-- A parameter may get any name that the function does not mention. -/
theorem Function.renamedBy_renameParameter {f : Function} {x y : String} (hx : x ∈ f.parameters)
    (hxne : x ≠ "") (hyne : y ≠ "") (hfresh : ¬ f.Mentions y) :
    f.RenamedBy (replace x y) (f.renameParameter x y) := by
  have hne : ∀ {z : String}, f.Mentions z → z ≠ y := by
    rintro z hz rfl
    exact hfresh hz
  refine ⟨rfl, ⟨?_, ?_⟩, ?_⟩
  · intro z w hz hw h
    unfold replace at h
    split at h <;> split at h
    · next hzx hwx => rw [hzx, hwx]
    · exact absurd h.symm (hne hw)
    · exact absurd h (hne hz)
    · exact h
  · intro z hz
    unfold replace
    split
    · next hzx => simp [hzx, hxne, hyne]
    · rfl
  · intro z hz h
    unfold replace at h
    split at h
    · next hzx => rwa [hzx]
    · exact absurd rfl h

/-- Renamed parameters are as many. -/
theorem Function.Alpha.length_parameters {f g : Function} (h : f.Alpha g) :
    g.parameters.length = f.parameters.length := by
  obtain ⟨ρ, hρ⟩ := h
  rw [hρ.eq, Function.rename, List.length_map]

/-- The name of the function stays. -/
theorem Function.Alpha.name_eq {f g : Function} (h : f.Alpha g) : g.name = f.name := by
  obtain ⟨ρ, hρ⟩ := h
  rw [hρ.eq, Function.rename]

/-- Where there are no parameters, nothing is renamed. -/
theorem Function.Alpha.eq_of_no_parameters {f g : Function} (h : f.Alpha g)
    (hf : f.parameters = []) : g = f := by
  obtain ⟨ρ, hρ⟩ := h
  rw [hρ.eq]
  apply Function.rename_eq_self
  intro x hx
  by_contra hne
  have hparameter := hρ.fixed hx hne
  rw [hf] at hparameter
  exact List.not_mem_nil hparameter

/-! ### Well-formed functions -/

/-- Distinct parameters that are kept apart are as well formed as before. -/
theorem Function.malformation?_rename {f : Function} {ρ : String → String}
    (hf : Faithful f.Mentions ρ) (h : f.parameters.Nodup) :
    (f.rename ρ).malformation? = f.malformation? := by
  have hrenamed : (f.parameters.map ρ).Nodup := by
    refine h.map_on ?_
    intro x hx y hy
    exact hf.injective (.inl hx) (.inl hy)
  have hnone : ∀ {xs : List String}, xs.Nodup → firstRepeated [] xs = none := by
    intro xs hxs
    exact firstRepeated_eq_none_iff.mpr ⟨fun _ _ => List.not_mem_nil, hxs⟩
  simp [Function.malformation?, Function.rename, hnone h, hnone hrenamed]

end Scriptlet
