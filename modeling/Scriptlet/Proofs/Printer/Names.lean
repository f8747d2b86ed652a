import Scriptlet.Proofs.Grammar.Soundness

/-!
# The names in a tree

The trees of the language hold arbitrary texts as names. `Expr.names`, `Definition.names` and
`Program.names` list them all: variables, assigned variables, called functions, and the names and
parameters of definitions. A tree is `WellNamed` if each of them can be written in source text. The
trees that the grammar derives are, by induction on the derivation (`Expression.wellNamed`), and
hence those that the parser gives (`wellNamed_of_parse`).
-/

namespace Scriptlet

open Scriptlet.Text

mutual

/-- The names in an expression. -/
def Expr.names : Expr → List String
  | .int _ => []
  | .var x => [x]
  | .assign x e => x :: e.names
  | .binary _ l r => l.names ++ r.names
  | .block b => Expr.namesOf b
  | .whileDo e b => e.names ++ Expr.namesOf b
  | .ifThen e b => e.names ++ Expr.namesOf b
  | .ifElse e b d => e.names ++ Expr.namesOf b ++ Expr.namesOf d
  | .print e => e.names
  | .call f a => f :: Expr.namesOf a

/-- The names in several expressions. -/
def Expr.namesOf : List Expr → List String
  | [] => []
  | e :: es => e.names ++ Expr.namesOf es

end

/-- The names in a definition, with its own name and its parameters. -/
def Definition.names : Definition → List String
  | .function f => f.name :: f.parameters ++ Expr.namesOf f.body
  | .global x e => x :: e.names

/-- The names in a program. -/
def Program.names (p : Program) : List String :=
  p.definitions.flatMap Definition.names

/-- Every name of a list can be written in source text. -/
def WellNamed (names : List String) : Prop :=
  ∀ x ∈ names, isName x.toList

/-! ### Lists of names -/

/-- The empty list of names is well named. -/
@[simp] theorem wellNamed_nil : WellNamed [] :=
  fun _ h => absurd h List.not_mem_nil

/-- A list of names is well named if its first name and the others are. -/
@[simp] theorem wellNamed_cons {x : String} {xs : List String} :
    WellNamed (x :: xs) ↔ isName x.toList ∧ WellNamed xs :=
  List.forall_mem_cons

/-- Two lists of names are, one after the other, if both are. -/
@[simp] theorem wellNamed_append {xs ys : List String} :
    WellNamed (xs ++ ys) ↔ WellNamed xs ∧ WellNamed ys :=
  List.forall_mem_append

namespace Grammar

/-! ### Names in derived trees -/

mutual

/-- An expression that the grammar derives is well named. -/
theorem Expression.wellNamed {s r : List Char} {e : Expr} :
    Expression s r e → WellNamed e.names
  | .conditional h => h.wellNamed
  | .loop h => h.wellNamed
  | .block h => h.wellNamed
  | .assignment h => h.wellNamed
  | .comparison h => h.wellNamed

/-- A conditional that the grammar derives is well named, as its parts are. -/
theorem Conditional.wellNamed {s r : List Char} {e : Expr} :
    Conditional s r e → WellNamed e.names
  | .ifThen _ hc hb => wellNamed_append.mpr ⟨hc.wellNamed, hb.wellNamed⟩
  | .ifElse _ hc hb _ hd =>
    wellNamed_append.mpr ⟨wellNamed_append.mpr ⟨hc.wellNamed, hb.wellNamed⟩, hd.wellNamed⟩
  | .elseIf _ hc hb _ he =>
    wellNamed_append.mpr ⟨wellNamed_append.mpr ⟨hc.wellNamed, hb.wellNamed⟩,
      wellNamed_append.mpr ⟨he.wellNamed, wellNamed_nil⟩⟩

/-- A loop that the grammar derives is well named. -/
theorem Loop.wellNamed {s r : List Char} {e : Expr} : Loop s r e → WellNamed e.names
  | .whileDo _ hc hb => wellNamed_append.mpr ⟨hc.wellNamed, hb.wellNamed⟩

/-- A block that the grammar derives is well named. -/
theorem Braces.wellNamed {s r : List Char} {b : Block} :
    Braces s r b → WellNamed (Expr.namesOf b)
  | .braces _ hitems _ => hitems.wellNamed

/-- The expressions of a block are well named. -/
theorem Items.wellNamed {s r : List Char} {es : List Expr} :
    Items s r es → WellNamed (Expr.namesOf es)
  | .nil => wellNamed_nil
  | .cons he hes => wellNamed_append.mpr ⟨he.wellNamed, hes.wellNamed⟩
  | .consSemicolon he _ hes => wellNamed_append.mpr ⟨he.wellNamed, hes.wellNamed⟩

/-- An assignment that the grammar derives is well named, since its target is a name. -/
theorem Assignment.wellNamed {s r : List Char} {e : Expr} :
    Assignment s r e → WellNamed e.names
  | .assign hx _ he => wellNamed_cons.mpr ⟨hx.2.1, he.wellNamed⟩

/-- A chain that the grammar derives is well named, as its operands are. -/
theorem Chain.wellNamed {level : Nat} {s r : List Char} {e : Expr} :
    Chain level s r e → WellNamed e.names
  | .primary h => h.wellNamed
  | .chain _ h hlinks => hlinks.wellNamed h.wellNamed

/-- Links keep a chain well named. -/
theorem Links.wellNamed {level : Nat} {s r : List Char} {links : List (Operator × Expr)} :
    Links level s r links → ∀ {first : Expr}, WellNamed first.names →
      WellNamed (chained first links).names
  | .nil, _, h => h
  | .cons _ _ he hlinks, _, h => hlinks.wellNamed (wellNamed_append.mpr ⟨h, he.wellNamed⟩)

/-- A primary expression is well named: a variable is a name, and so is the function of a call. -/
theorem Primary.wellNamed {s r : List Char} {e : Expr} : Primary s r e → WellNamed e.names
  | .parenthesized _ he _ => he.wellNamed
  | .print _ _ he _ => he.wellNamed
  | .call hf hes _ => wellNamed_cons.mpr ⟨hf.2.1, hes.wellNamed⟩
  | .integer _ => wellNamed_nil
  | .var hx => wellNamed_cons.mpr ⟨hx.2.1, wellNamed_nil⟩

/-- The arguments of a call are well named. -/
theorem Arguments.wellNamed {s r : List Char} {es : List Expr} :
    Arguments s r es → WellNamed (Expr.namesOf es)
  | .none => wellNamed_nil
  | .some he hmore => wellNamed_append.mpr ⟨he.wellNamed, hmore.wellNamed⟩

/-- Arguments after the first one are well named. -/
theorem MoreArguments.wellNamed {s r : List Char} {es : List Expr} :
    MoreArguments s r es → WellNamed (Expr.namesOf es)
  | .nil => wellNamed_nil
  | .cons _ he hmore => wellNamed_append.mpr ⟨he.wellNamed, hmore.wellNamed⟩

end

/-- Parameters after the first one are well named. -/
theorem MoreNames.wellNamed {s r : List Char} {xs : List String} (h : MoreNames s r xs) :
    WellNamed xs := by
  induction h with
  | nil => exact wellNamed_nil
  | cons _ hx _ ih => exact wellNamed_cons.mpr ⟨hx.2.1, ih⟩

/-- Parameters are well named. -/
theorem Names.wellNamed {s r : List Char} {xs : List String} (h : Names s r xs) :
    WellNamed xs := by
  cases h with
  | none => exact wellNamed_nil
  | some hx hmore => exact wellNamed_cons.mpr ⟨hx.2.1, hmore.wellNamed⟩

/-- A definition that the grammar derives is well named. -/
theorem TopLevel.wellNamed {s r : List Char} {d : Definition} (h : TopLevel s r d) :
    WellNamed d.names := by
  cases h with
  | function _ hf _ hxs _ hb =>
    have hhead := wellNamed_cons.mpr ⟨hf.2.1, hxs.wellNamed⟩
    exact wellNamed_append.mpr ⟨hhead, hb.wellNamed⟩
  | global _ hx _ he => exact wellNamed_cons.mpr ⟨hx.2.1, he.wellNamed⟩

/-- The definitions of a text are well named. -/
theorem Definitions.wellNamed {s r : List Char} {ds : List Definition} (h : Definitions s r ds) :
    WellNamed (ds.flatMap Definition.names) := by
  induction h with
  | nil => exact wellNamed_nil
  | cons hd _ ih => exact wellNamed_append.mpr ⟨hd.wellNamed, ih⟩

end Grammar

/-- The program that a text holds is well named. -/
theorem Program.wellNamed_of_parse {source : List Char} {p : Program}
    (h : Program.parse source = .ok p) : WellNamed p.names := by
  obtain ⟨_, hds, -⟩ := Parser.program_sound h
  exact hds.wellNamed

/-- The expression that a text holds is well named. -/
theorem Expr.wellNamed_of_parse {source : List Char} {e : Expr}
    (h : Expr.parse source = .ok e) : WellNamed e.names := by
  obtain ⟨_, he, -⟩ := Parser.expr_sound h
  exact he.wellNamed

end Scriptlet
