import Scriptlet.Proofs.Parser.Fixpoint
import Scriptlet.Proofs.Parser.Token

/-!
# Reading up to a context

A parser that takes as much as it can need not stop where the grammar does. `Reaches p s K` says that
`p` reads from `s` up to some text of the context `K`, or finds an integer out of range. Each
combinator reaches a context if its parts do, and a repetition reaches one through an invariant of the
texts between its rounds (`Reaches.many`, `Reaches.separated`).
-/

namespace Scriptlet

open Scriptlet.Text

namespace Parser

open Scriptlet.Grammar

variable {α β : Type}

/-- A parser reads up to a text of the context, or fails on an integer that is out of range. -/
def Reaches (p : Parser α) (s : List Char) (K : List Char → Prop) : Prop :=
  (∃ a r, p s = .ok a r ∧ K r) ∨ ∃ r, p s = .fail .outOfRange r

namespace Reaches

variable {p q : Parser α} {s : List Char} {K L : List Char → Prop}

/-- A parser reaches what it leaves. -/
theorem of_ok {a : α} {r : List Char} (h : p s = .ok a r) (hr : K r) : Reaches p s K :=
  .inl ⟨a, r, h, hr⟩

/-- Two parsers with the same answer reach the same contexts. -/
theorem of_eq (h : p s = q s) (hq : Reaches q s K) : Reaches p s K := by
  unfold Reaches at *
  rwa [h]

/-- What reaches a context reaches a wider one. -/
theorem mono (h : Reaches p s K) (hKL : ∀ r, K r → L r) : Reaches p s L := by
  rcases h with ⟨a, r, hok, hr⟩ | hfail
  · exact of_ok hok (hKL r hr)
  · exact .inr hfail

/-- A sequence reaches what its second part reaches from where the first one arrived. -/
theorem bind {f : α → Parser β} (h : Reaches p s K)
    (hf : ∀ a r, p s = .ok a r → K r → Reaches (f a) r L) : Reaches (p >>= f) s L := by
  rcases h with ⟨a, r, hok, hr⟩ | ⟨r, hfail⟩
  · unfold Reaches
    rw [bind_ok hok]
    exact hf a r hok hr
  · exact .inr ⟨r, bind_fail hfail⟩

/-- After a success, what is left is to be read by the rest of the sequence. -/
theorem bind_of_ok {f : α → Parser β} {a : α} {r : List Char} (h : p s = .ok a r)
    (hf : Reaches (f a) r L) : Reaches (p >>= f) s L := by
  unfold Reaches
  rwa [bind_ok h]

/-- A change of the result leaves what is reached as it is. -/
theorem map (h : Reaches p s K) (f : α → β) : Reaches (f <$> p) s K :=
  h.bind fun _ _ _ hr => of_ok rfl hr

/-- A choice reaches what its first alternative does. -/
theorem orElse_left (h : Reaches p s K) : Reaches (p <|> q) s K := by
  rcases h with ⟨a, r, hok, hr⟩ | ⟨r, hfail⟩
  · exact of_ok (orElse_ok hok) hr
  · exact .inr ⟨r, orElse_fail hfail⟩

/-- Where the first alternative misses, it reaches what the second one does. -/
theorem orElse_right (hp : ∃ t, p s = .miss t) (h : Reaches q s K) : Reaches (p <|> q) s K := by
  obtain ⟨t, ht⟩ := hp
  exact h.of_eq (orElse_miss ht)

/-- What is committed to reaches the same. -/
theorem committed (h : Reaches p s K) : Reaches (committed p) s K := by
  rcases h with ⟨a, r, hok, hr⟩ | ⟨r, hfail⟩
  · exact of_ok (committed_ok hok) hr
  · exact .inr ⟨r, committed_fail hfail⟩

/-- What may be left out reaches the same, if it is there. -/
theorem optional (h : Reaches p s K) : Reaches (optional p) s K :=
  (h.map some).orElse_left

/-- A repetition reaches a context if from every text of an invariant a round either keeps the
invariant or misses, in a text of the context. -/
theorem many {I : List Char → Prop} {n : Nat} (hp : Advances p)
    (step : ∀ u, u.length ≤ n → I u → ((∃ t, p u = .miss t) ∧ K u) ∨ Reaches p u I)
    (hs : s.length ≤ n) (h : I s) : Reaches (many p) s K := by
  induction hlen : s.length using Nat.strong_induction_on generalizing s with
  | _ m ih =>
    rcases step s hs h with ⟨⟨t, hmiss⟩, hend⟩ | ⟨a, r, hok, hr⟩ | ⟨r, hfail⟩
    · exact of_ok (many_miss hmiss) hend
    · have hlt := hp.shorter hok
      rcases ih r.length (by omega) (by omega) hr rfl with ⟨as, u, hrest, hu⟩ | ⟨u, hrest⟩
      · exact of_ok (many_ok hp hok hrest) hu
      · exact .inr ⟨u, many_ok_fail hp hok hrest⟩
    · exact .inr ⟨r, many_fail hfail⟩

/-- Items with commas between them are read up to a closing parenthesis, if from every text of an
invariant this parenthesis comes next, or a comma and an item that leads back to the invariant. -/
theorem separated {I : List Char → Prop} {n : Nat} {r : List Char} (hp : Advances p)
    (hmiss : ∀ u, first u = some ')' → ∃ t, p u = .miss t)
    (step : ∀ u, u.length ≤ n → I u →
      Symbol ")" u r ∨ ∃ v, Symbol "," u v ∧ (v.length < n → Reaches p v I))
    (hs : s.length ≤ n) (h : Symbol ")" s r ∨ Reaches p s I) :
    Reaches (separated p (token ",")) s fun u => Symbol ")" u r := by
  rw [separated_comma]
  rcases h with hclose | hitem
  · obtain ⟨t, ht⟩ := hmiss s (hclose.first rfl)
    exact .orElse_right ⟨t, bind_miss ht⟩ (.of_ok rfl hclose)
  · refine .orElse_left (hitem.bind fun a v hok hv => ?_)
    have hlt := hp.shorter hok
    have more : Reaches (Parser.many (moreOf p)) v fun u => Symbol ")" u r := by
      refine .many (moreOf_advances hp.trims) (fun u hu hI => ?_) (by omega : v.length ≤ n) hv
      rcases step u hu hI with hclose | ⟨w, hcomma, hw⟩
      · obtain ⟨t, ht⟩ := token_miss "," rfl (by rw [hclose.first rfl]; decide)
        exact .inl ⟨⟨t, bind_miss ht⟩, hclose⟩
      · have hok := token_eq_ok_iff.mpr hcomma
        have hlt := (token_advances (by decide)).shorter hok
        exact .inr (.bind_of_ok hok (hw (by omega)))
    exact more.bind fun _ _ _ hu => .of_ok rfl hu

end Reaches

end Parser

end Scriptlet
