import Mathlib.Data.List.TakeWhile
import Scriptlet.Proofs.Parser.Compositional

/-!
# Texts that are read alike

Two texts may differ in their layout and still be read alike: tokens see the characters that are no
layout one by one, and of layout only that it is there. A relation between texts is a `Lookalike` if
this holds of the texts that it relates, and again of those that are left after a character or after
layout. From two such texts every parser gives the same answer, and leaves such texts again
(`ReadsAlike`).

* `Lookalike.readsAlike_expression`, `Lookalike.readsAlike_program`: so do the parsers of expressions
  and programs.
-/

namespace Scriptlet

open Scriptlet.Text

namespace Parser

/-- What a token sees of two texts: nothing in both, layout in both, or the same character in both
that is no layout, after which the texts are related. -/
inductive Sees (T : List Char → List Char → Prop) : List Char → List Char → Prop where
  | nothing : Sees T [] []
  | space {c d : Char} {s t : List Char} : isSpace c → isSpace d → Sees T (c :: s) (d :: t)
  | letter {c : Char} {s t : List Char} : isSpace c = false → T s t → Sees T (c :: s) (c :: t)

/-- A relation between texts that look alike to tokens, before layout and after it. -/
structure Lookalike (T : List Char → List Char → Prop) : Prop where
  sees : ∀ {s t : List Char}, T s t → Sees T s t
  skip : ∀ {s t : List Char}, T s t → T (skip s) (skip t)

/-- The same answer at related texts, with related texts left. -/
inductive Reply.Alike {α : Type} (T : List Char → List Char → Prop) : Reply α → Reply α → Prop where
  | ok (a : α) {r r' : List Char} : T r r' → Alike T (.ok a r) (.ok a r')
  | miss {r r' : List Char} : T r r' → Alike T (.miss r) (.miss r')
  | fail (fault : Fault) {r r' : List Char} : T r r' → Alike T (.fail fault r) (.fail fault r')

/-- From related texts a parser gives the same answer. -/
def ReadsAlike {α : Type} (T : List Char → List Char → Prop) (p : Parser α) : Prop :=
  ∀ s t : List Char, T s t → (p s).Alike T (p t)

variable {α β : Type} {T : List Char → List Char → Prop}

/-! ### Combinators -/

namespace ReadsAlike

variable {p q : Parser α}

/-- What reads nothing leaves the related texts. -/
theorem pure (a : α) : ReadsAlike T (pure a) :=
  fun _ _ h => .ok a h

/-- A miss leaves the related texts. -/
theorem missing : ReadsAlike T (missing : Parser α) :=
  fun _ _ h => .miss h

/-- A failure leaves the related texts. -/
theorem failing (fault : Fault) : ReadsAlike T (failing fault : Parser α) :=
  fun _ _ h => .fail fault h

/-- A sequence reads alike if its parts do: the first one leaves related texts for the second one. -/
theorem bind {f : α → Parser β} (hp : ReadsAlike T p) (hf : ∀ a, ReadsAlike T (f a)) :
    ReadsAlike T (p >>= f) := by
  intro s t hst
  have h := hp s t hst
  generalize hs : p s = reply at h
  generalize ht : p t = reply' at h
  cases h with
  | ok a hr =>
    rw [bind_ok hs, bind_ok ht]
    exact hf a _ _ hr
  | miss hr =>
    rw [bind_miss hs, bind_miss ht]
    exact .miss hr
  | fail fault hr =>
    rw [bind_fail hs, bind_fail ht]
    exact .fail fault hr

/-- A choice reads alike if its alternatives do. -/
theorem orElse (hp : ReadsAlike T p) (hq : ReadsAlike T q) : ReadsAlike T (p <|> q) := by
  intro s t hst
  have h := hp s t hst
  generalize hs : p s = reply at h
  generalize ht : p t = reply' at h
  cases h with
  | ok a hr =>
    rw [orElse_ok hs, orElse_ok ht]
    exact .ok a hr
  | miss hr =>
    rw [orElse_miss hs, orElse_miss ht]
    exact hq s t hst
  | fail fault hr =>
    rw [orElse_fail hs, orElse_fail ht]
    exact .fail fault hr

/-- What is committed to turns a miss into a failure at both texts. -/
theorem committed (hp : ReadsAlike T p) : ReadsAlike T (committed p) := by
  intro s t hst
  have h := hp s t hst
  generalize hs : p s = reply at h
  generalize ht : p t = reply' at h
  cases h with
  | ok a hr =>
    rw [committed_ok hs, committed_ok ht]
    exact .ok a hr
  | miss hr =>
    rw [committed_miss hs, committed_miss ht]
    exact .fail .unexpected hr
  | fail fault hr =>
    rw [committed_fail hs, committed_fail ht]
    exact .fail fault hr

/-- A look ahead leaves the related texts themselves. -/
theorem ahead (hp : ReadsAlike T p) : ReadsAlike T (ahead p) := by
  intro s t hst
  have h := hp s t hst
  unfold Parser.ahead
  revert h
  generalize p s = reply
  generalize p t = reply'
  intro h
  cases h with
  | ok a hr => exact .ok () hst
  | miss hr => exact .miss hr
  | fail fault hr => exact .fail fault hr

/-- Repetitions with the same bound on their rounds read alike. -/
theorem manyWithin (hp : ReadsAlike T p) (rounds : Nat) : ReadsAlike T (manyWithin rounds p) := by
  induction rounds with
  | zero => exact .failing .stuck
  | succ rounds ih => exact (hp.bind fun a => ih.bind fun as => .pure _).orElse (.pure [])

/-- The two texts need not be equally long, but either repetition has rounds enough. -/
theorem many (ha : Advances p) (hp : ReadsAlike T p) : ReadsAlike T (many p) := by
  intro s t hst
  have hs : Parser.many p s = Parser.manyWithin (s.length + t.length + 1) p s :=
    manyWithin_eq ha (by omega) (by omega)
  have ht : Parser.many p t = Parser.manyWithin (s.length + t.length + 1) p t :=
    manyWithin_eq ha (by omega) (by omega)
  rw [hs, ht]
  exact hp.manyWithin _ s t hst

/-- The nesting of either text is followed deep enough. -/
theorem unbounded (h : ∀ depth, ReadsAlike T (expressionWithin depth)) :
    ReadsAlike T expression := by
  intro s t hst
  have deep : ∀ u : List Char, u.length ≤ s.length + t.length →
      expression u = expressionWithin (s.length + t.length + 1) u := fun u hu =>
    expressionWithin_agree (Nat.le_refl _) (by omega) u (Nat.lt_succ_self _)
  rw [deep s (by omega), deep t (by omega)]
  exact h _ s t hst

end ReadsAlike

/-! ### Parsers of characters -/

namespace Lookalike

variable (hT : Lookalike T)

include hT

/-- A text without layout stands at the start of both texts or of neither. -/
theorem isPrefixOf? {letters s t : List Char} (hletters : ∀ c ∈ letters, isSpace c = false)
    (h : T s t) : Option.Rel T (letters.isPrefixOf? s) (letters.isPrefixOf? t) := by
  induction letters generalizing s t with
  | nil => exact .some h
  | cons c letters ih =>
    obtain ⟨hc, hrest⟩ := List.forall_mem_cons.mp hletters
    cases hT.sees h with
    | nothing => exact .none
    | space hd hd' =>
      have hne : ∀ d, isSpace d → (c == d) = false := by
        rintro d hd
        apply beq_false_of_ne
        rintro rfl
        rw [hc] at hd
        cases hd
      simp only [List.isPrefixOf?, hne _ hd, hne _ hd']
      exact .none
    | @letter d s t _ hst =>
      simp only [List.isPrefixOf?]
      cases c == d with
      | true => exact ih hrest hst
      | false => exact .none

/-- Letters that are no layout are seen one by one. -/
theorem readsAlike_literal {letters : List Char} (hletters : ∀ c ∈ letters, isSpace c = false) :
    ReadsAlike T (literal letters) := by
  intro s t hst
  have h := hT.isPrefixOf? hletters hst
  unfold literal
  revert h
  generalize letters.isPrefixOf? s = found
  generalize letters.isPrefixOf? t = found'
  intro h
  cases h with
  | some hr => exact .ok () hr
  | none => exact .miss hst

/-- A look at the next character is the same at both texts, if layout does not stop it. -/
theorem readsAlike_unlessNext {stops : Char → Bool} (hstops : ∀ c, isSpace c → stops c = false) :
    ReadsAlike T (unlessNext stops) := by
  intro s t hst
  have hhead : s.head?.any stops = t.head?.any stops := by
    cases hT.sees hst with
    | nothing => rfl
    | space hc hd => exact (hstops _ hc).trans (hstops _ hd).symm
    | letter _ _ => rfl
  unfold unlessNext
  rw [hhead]
  split
  · exact .miss hst
  · exact .ok () hst

/-- Both texts start with the same run of characters of a class without layout. -/
theorem takeWhile {p : Char → Bool} (hp : ∀ c, isSpace c → p c = false) {s t : List Char}
    (h : T s t) : s.takeWhile p = t.takeWhile p ∧ T (s.dropWhile p) (t.dropWhile p) := by
  induction s generalizing t with
  | nil =>
    cases hT.sees h with
    | nothing => exact ⟨rfl, h⟩
  | cons c s ih =>
    cases hT.sees h with
    | @space _ d _ t hc hd =>
      have hs : ¬ p c := by simp [hp c hc]
      have ht : ¬ p d := by simp [hp d hd]
      rw [List.takeWhile_cons_of_neg hs, List.takeWhile_cons_of_neg ht,
        List.dropWhile_cons_of_neg hs, List.dropWhile_cons_of_neg ht]
      exact ⟨rfl, h⟩
    | @letter _ _ t _ hst =>
      by_cases hc : p c
      · obtain ⟨htake, hdrop⟩ := ih hst
        rw [List.takeWhile_cons_of_pos hc, List.takeWhile_cons_of_pos hc,
          List.dropWhile_cons_of_pos hc, List.dropWhile_cons_of_pos hc, htake]
        exact ⟨rfl, hdrop⟩
      · rw [List.takeWhile_cons_of_neg hc, List.takeWhile_cons_of_neg hc,
          List.dropWhile_cons_of_neg hc, List.dropWhile_cons_of_neg hc]
        exact ⟨rfl, h⟩

/-- Words are made of characters that are no layout, and layout ends them. -/
theorem readsAlike_word : ReadsAlike T word := by
  intro s t hst
  have hname : ∀ c, isSpace c → isNameChar c = false := fun _ =>
    eq_false_of_isSpace (p := isNameChar) (by decide)
  have hstart : ∀ c, isSpace c → isNameStart c = false := fun _ =>
    eq_false_of_isSpace (p := isNameStart) (by decide)
  cases hT.sees hst with
  | nothing => exact .miss hst
  | space hc hd =>
    simp only [word, hstart _ hc, hstart _ hd]
    exact .miss hst
  | @letter c s t _ h =>
    obtain ⟨htake, hdrop⟩ := hT.takeWhile hname h
    simp only [word, htake]
    split
    · split
      · exact .miss hst
      · exact .ok _ hdrop
    · exact .miss hst

/-- Numerals are read alike. -/
theorem readsAlike_numeral : ReadsAlike T numeral := by
  intro s t hst
  have hdigit : ∀ c, isSpace c → c.isDigit = false := fun _ =>
    eq_false_of_isSpace (p := Char.isDigit) (by decide)
  have hbody : T ((afterMinus? s).getD s) ((afterMinus? t).getD t) ∧
      (afterMinus? s).isSome = (afterMinus? t).isSome := by
    have hminus : ∀ c ∈ ['-'], isSpace c = false := forall_mem_of_all (by decide)
    have h := hT.isPrefixOf? hminus hst
    unfold afterMinus?
    revert h
    generalize ['-'].isPrefixOf? s = found
    generalize ['-'].isPrefixOf? t = found'
    intro h
    cases h with
    | some hr => exact ⟨hr, rfl⟩
    | none => exact ⟨hst, rfl⟩
  obtain ⟨hbody, hsign⟩ := hbody
  obtain ⟨htake, hdrop⟩ := hT.takeWhile hdigit hbody
  simp only [numeral, htake, hsign]
  split
  · exact .miss hbody
  · split
    · exact .ok _ hdrop
    · exact .fail .outOfRange hst

/-! ### Constructs -/

/-- Every parser of the language reads related texts alike. -/
theorem compositional : Compositional fun _ p => ReadsAlike T p where
  pure := .pure
  missing := ReadsAlike.missing
  bind := .bind
  orElse := .orElse
  committed := .committed
  ahead := .ahead
  many := .many
  layout := fun _ _ h => .ok () (hT.skip h)
  literal := fun _ => hT.readsAlike_literal
  unlessNext := fun _ => hT.readsAlike_unlessNext
  word := hT.readsAlike_word
  numeral := hT.readsAlike_numeral
  stuck := ReadsAlike.failing .stuck
  unbounded := .unbounded

/-- Expressions are read alike. -/
theorem readsAlike_expression : ReadsAlike T expression :=
  hT.compositional.expression

/-- Programs are read alike. -/
theorem readsAlike_program : ReadsAlike T program :=
  hT.compositional.program

/-- A whole text is read exactly if a related one is, and as the same. -/
theorem ok_nil_iff {p : Parser α} (hp : ReadsAlike T p) {s t : List Char} (h : T s t) (a : α) :
    p s = .ok a [] ↔ p t = .ok a [] := by
  have halike := hp s t h
  generalize p s = reply at halike
  generalize p t = reply' at halike
  cases halike with
  | ok b hr =>
    cases hT.sees hr with
    | nothing => exact Iff.rfl
    | space _ _ => simp
    | letter _ _ => simp
  | miss _ => simp
  | fail _ _ => simp

end Lookalike

end Parser

end Scriptlet
