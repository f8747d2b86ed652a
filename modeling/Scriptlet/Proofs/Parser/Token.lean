import Mathlib.Data.List.TakeWhile
import Scriptlet.Proofs.Grammar.Rules
import Scriptlet.Proofs.Parser.Success

/-!
# Tokens are read as the grammar says

Each parser of a token succeeds exactly where the token of the grammar stands (`…_eq_ok_iff`), and
misses wherever the first character after layout, `first s`, rules the token out. Words are told
apart by the characters of a name that they are made of (`Word.takeWhile_eq`, `Name.takeWhile_eq`).
-/

namespace Scriptlet

open Scriptlet.Text

/-! ### Runs of characters -/

section runs

variable {α : Type} {p : α → Bool} {l r : List α}

/-- A run is taken up to the first element that is none of it. -/
theorem takeWhile_append_of_stop (hl : ∀ a ∈ l, p a) (hr : ∀ a ∈ r.head?, ¬ p a) :
    (l ++ r).takeWhile p = l := by
  rw [List.takeWhile_append_of_pos hl]
  cases r with
  | nil => simp
  | cons a r => simp [hr a rfl]

/-- What is dropped is the run, up to the first element that is none of it. -/
theorem dropWhile_append_of_stop (hl : ∀ a ∈ l, p a) (hr : ∀ a ∈ r.head?, ¬ p a) :
    (l ++ r).dropWhile p = r := by
  rw [List.dropWhile_append_of_pos hl]
  cases r with
  | nil => rfl
  | cons a r => simp [hr a rfl]

/-- What a run is followed by is none of it. -/
theorem not_of_mem_head?_dropWhile (l : List α) : ∀ a ∈ (l.dropWhile p).head?, ¬ p a := by
  intro a ha
  have hhead := List.head?_dropWhile_not p l
  rw [Option.mem_def.mp ha] at hhead
  exact ne_true_of_eq_false hhead

end runs

namespace Grammar

/-- The first character after layout. -/
def first (s : List Char) : Option Char :=
  (skip s).head?

/-- The first character after layout is the one that follows it. -/
theorem first_of_afterLayout {s : List Char} {c : Char} {t : List Char}
    (h : AfterLayout s (c :: t)) : first s = some c := by
  rw [first, afterLayout_iff.mp h]
  rfl

/-- There is one first character only. -/
theorem of_first {p : Char → Prop} {s : List Char} {c : Char} (hc : first s = some c)
    (h : ∃ d, first s = some d ∧ p d) : p c := by
  obtain ⟨d, hd, hp⟩ := h
  rwa [Option.some.inj (hc.symm.trans hd)]

/-- What follows layout does not depend on the layout before it. -/
theorem AfterLayout.unique {s t u : List Char} (ht : AfterLayout s t) (hu : AfterLayout s u) :
    t = u := by
  rw [← afterLayout_iff.mp ht, ← afterLayout_iff.mp hu]

/-- A symbol starts with its own first character. -/
theorem Symbol.first {text : String} {s r : List Char} (h : Symbol text s r) {c : Char}
    {cs : List Char} (ht : text.toList = c :: cs) : first s = some c := by
  unfold Symbol at h
  rw [ht] at h
  exact first_of_afterLayout h

/-- The sign of an assignment starts with an equals sign. -/
theorem Sign.first {s r : List Char} (h : Sign s r) : first s = some '=' :=
  first_of_afterLayout h.1

/-! ### Words -/

/-- Keywords are made of characters of names, starting with one that starts names. -/
theorem letters_eq_cons (k : Keyword) :
    ∃ c cs, k.letters = c :: cs ∧ isNameStart c ∧ ∀ d ∈ c :: cs, isNameChar d := by
  cases k
  · exact ⟨'d', "efine".toList, rfl, by decide, forall_mem_of_all (by decide)⟩
  · exact ⟨'g', "lobal".toList, rfl, by decide, forall_mem_of_all (by decide)⟩
  · exact ⟨'i', "f".toList, rfl, by decide, forall_mem_of_all (by decide)⟩
  · exact ⟨'e', "lse".toList, rfl, by decide, forall_mem_of_all (by decide)⟩
  · exact ⟨'w', "hile".toList, rfl, by decide, forall_mem_of_all (by decide)⟩
  · exact ⟨'p', "rintln".toList, rfl, by decide, forall_mem_of_all (by decide)⟩

/-- Different keywords have different letters. -/
theorem letters_injective {k k' : Keyword} (h : k.letters = k'.letters) : k = k' := by
  revert h
  cases k <;> cases k' <;> decide

/-- What a name is made of. -/
theorem isName_iff {l : List Char} :
    isName l ↔ ∃ c cs, l = c :: cs ∧ isNameStart c ∧ (∀ d ∈ cs, isNameChar d) ∧
      isKeyword l = false := by
  cases l with
  | nil => simp [isName]
  | cons c cs => simp [isName, and_assoc]

/-- Every character of a name can go on in one. -/
theorem isNameChar_of_mem_name {l : List Char} (h : isName l) : ∀ d ∈ l, isNameChar d := by
  obtain ⟨c, cs, rfl, hc, hcs, -⟩ := isName_iff.mp h
  intro d hd
  rcases List.mem_cons.mp hd with rfl | hd
  · exact isNameChar_of_isNameStart hc
  · exact hcs d hd

/-- A keyword takes up all characters of a name that stand there. -/
theorem Word.takeWhile_eq {k : Keyword} {s r : List Char} (h : Word k s r) :
    (skip s).takeWhile isNameChar = k.letters := by
  obtain ⟨c, cs, hk, -, hcs⟩ := letters_eq_cons k
  rw [afterLayout_iff.mp h.1]
  exact takeWhile_append_of_stop (hk ▸ hcs) h.2

/-- A name takes up all characters of a name that stand there. -/
theorem Name.takeWhile_eq {s r : List Char} {x : String} (h : Name s r x) :
    (skip s).takeWhile isNameChar = x.toList := by
  rw [afterLayout_iff.mp h.1]
  exact takeWhile_append_of_stop (isNameChar_of_mem_name h.2.1) h.2.2

/-- Two keywords do not stand in the same place. -/
theorem Word.keyword_eq {k k' : Keyword} {s r r' : List Char} (h : Word k s r)
    (h' : Word k' s r') : k = k' :=
  letters_injective (h.takeWhile_eq.symm.trans h'.takeWhile_eq)

/-- A keyword is no name. -/
theorem Word.not_name {k : Keyword} {s r r' : List Char} {x : String} (h : Word k s r) :
    ¬ Name s r' x := by
  intro hx
  have hletters : x.toList = k.letters := hx.takeWhile_eq.symm.trans h.takeWhile_eq
  obtain ⟨-, -, -, -, -, hk⟩ := isName_iff.mp hx.2.1
  rw [Bool.eq_false_iff, Ne, isKeyword_iff] at hk
  exact hk ⟨k, hletters.symm⟩

/-- Two names do not stand in the same place. -/
theorem Name.unique {s r r' : List Char} {x x' : String} (h : Name s r x) (h' : Name s r' x') :
    x = x' ∧ r = r' := by
  have hx : x = x' := String.toList_inj.mp (h.takeWhile_eq.symm.trans h'.takeWhile_eq)
  subst hx
  exact ⟨rfl, List.append_cancel_left (AfterLayout.unique h.1 h'.1)⟩

/-- A keyword starts with a character that starts names. -/
theorem Word.first {k : Keyword} {s r : List Char} (h : Word k s r) :
    ∃ c, first s = some c ∧ isNameStart c := by
  obtain ⟨c, cs, hk, hc, -⟩ := letters_eq_cons k
  refine ⟨c, first_of_afterLayout (t := cs ++ r) ?_, hc⟩
  have := h.1
  rwa [hk] at this

/-- A name starts with a character that starts names. -/
theorem Name.first {s r : List Char} {x : String} (h : Name s r x) :
    ∃ c, first s = some c ∧ isNameStart c := by
  obtain ⟨c, cs, hx, hc, -⟩ := isName_iff.mp h.2.1
  refine ⟨c, first_of_afterLayout (t := cs ++ r) ?_, hc⟩
  have := h.1
  rwa [hx] at this

/-- Where a word starts, no symbol stands. -/
theorem not_symbol_of_isNameStart {s : List Char} (text : String)
    (h : ∃ c, first s = some c ∧ isNameStart c) {c : Char} {cs : List Char} (ht : text.toList = c :: cs)
    (hc : isNameStart c = false) (t : List Char) : ¬ Symbol text s t := by
  intro hs
  obtain ⟨d, hd, hstart⟩ := h
  rw [hs.first ht] at hd
  cases hd
  rw [hc] at hstart
  cases hstart

/-! ### Numbers -/

/-- Names start with no digit. -/
theorem not_isDigit_of_isNameStart {c : Char} (h : isNameStart c) : ¬ c.isDigit := by
  intro hdigit
  obtain ⟨-, hnine⟩ := Char.isDigit_iff_toNat.mp hdigit
  rcases Bool.or_eq_true_iff.mp h with hletter | hunderscore
  · rcases Bool.or_eq_true_iff.mp (hletter : (c.isUpper || c.isLower) = true) with hupper | hlower
    · have hcode : 'A'.val ≤ c.val := (of_decide_eq_true hupper).1
      exact absurd ((UInt32.le_iff_toNat_le.mp hcode).trans hnine) (by decide)
    · have hcode : 'a'.val ≤ c.val := of_decide_eq_true (Bool.and_eq_true_iff.mp hlower).1
      exact absurd ((UInt32.le_iff_toNat_le.mp hcode).trans hnine) (by decide)
  · rw [beq_iff_eq.mp hunderscore] at hnine
    exact absurd hnine (by decide)

/-- Names start with neither a digit nor a minus sign, and numbers do. -/
theorem not_number_of_isNameStart {c : Char} (h : isNameStart c) : ¬ (c.isDigit ∨ c = '-') := by
  rintro (hdigit | rfl)
  · exact not_isDigit_of_isNameStart h hdigit
  · exact absurd h (by decide)

/-- Characters of a class without those that layout starts with start none. -/
theorem not_layout_of_class {p : Char → Bool} (hp : ∀ c ∈ [' ', '\t', '\r', '\n', '/'], ¬ p c)
    {c : Char} (h : p c) : isSpace c = false ∧ c ≠ '/' := by
  constructor
  · rw [Bool.eq_false_iff]
    intro hspace
    exact hp c (List.mem_append_left ['/'] (isSpace_iff.mp hspace)) h
  · rintro rfl
    exact hp '/' (by decide) h

/-- A character that starts names is no layout. -/
theorem not_layout_of_isNameStart {c : Char} (h : isNameStart c) : isSpace c = false ∧ c ≠ '/' :=
  not_layout_of_class (forall_mem_of_all (by decide)) h

/-- A digit is no layout. -/
theorem not_layout_of_isDigit {c : Char} (h : c.isDigit) : isSpace c = false ∧ c ≠ '/' :=
  not_layout_of_class (p := Char.isDigit) (forall_mem_of_all (by decide)) h

/-- A run of digits starts with a digit. -/
theorem Digits.cons {s r digits : List Char} (h : Digits s r digits) :
    ∃ d t, s = d :: t ∧ d.isDigit := by
  obtain ⟨rfl, hne, hd, -⟩ := h
  obtain ⟨d, t, rfl⟩ := List.exists_cons_of_ne_nil hne
  exact ⟨d, t ++ r, rfl, hd d List.mem_cons_self⟩

/-- An integer starts with a digit or a minus sign. -/
theorem Number.first {s r : List Char} {v : Value} (h : Number s r v) :
    ∃ c, first s = some c ∧ (c.isDigit ∨ c = '-') := by
  cases h with
  | plain ht hd _ =>
    obtain ⟨d, t, rfl, hdigit⟩ := hd.cons
    exact ⟨d, first_of_afterLayout ht, .inl hdigit⟩
  | negative ht _ _ => exact ⟨'-', first_of_afterLayout ht, .inr rfl⟩

end Grammar

namespace Parser

open Scriptlet.Grammar

/-! ### The parsers of tokens -/

/-- Given letters are read exactly where they stand. -/
theorem literal_eq_ok_iff {letters s r : List Char} :
    literal letters s = .ok () r ↔ s = letters ++ r := by
  unfold literal
  cases h : letters.isPrefixOf? s with
  | none =>
    simp only [reduceCtorEq, false_iff]
    rintro rfl
    have := List.isPrefixOf?_eq_some_iff_append_eq.mpr (rfl : letters ++ r = letters ++ r)
    rw [h] at this
    cases this
  | some t =>
    rw [← List.isPrefixOf?_eq_some_iff_append_eq.mp h]
    simp

/-- Nothing is read, unless the next character is one that stops. -/
theorem unlessNext_eq_ok_iff {stops : Char → Bool} {s r : List Char} :
    unlessNext stops s = .ok () r ↔ s = r ∧ ∀ c ∈ s.head?, ¬ stops c := by
  unfold unlessNext
  cases s with
  | nil => simp
  | cons c s => by_cases h : stops c <;> simp [h]

/-- A token is read exactly where its symbol stands. -/
theorem token_eq_ok_iff {text : String} {s r : List Char} :
    token text s = .ok () r ↔ Symbol text s r := by
  rw [Grammar.Symbol, afterLayout_iff, ← literal_eq_ok_iff]
  rfl

/-- A keyword is read exactly where its word stands. -/
theorem keyword_eq_ok_iff {k : Keyword} {s r : List Char} :
    keyword k s = .ok () r ↔ Word k s r := by
  rw [Word, afterLayout_iff]
  change (literal k.letters >>= fun _ => unlessNext isNameChar) (skip s) = .ok () r ↔ _
  rw [bind_eq_ok_iff]
  constructor
  · rintro ⟨a, t, ht, hu⟩
    obtain ⟨rfl, hend⟩ := unlessNext_eq_ok_iff.mp hu
    exact ⟨literal_eq_ok_iff.mp ht, hend⟩
  · rintro ⟨ht, hend⟩
    exact ⟨(), r, literal_eq_ok_iff.mpr ht, unlessNext_eq_ok_iff.mpr ⟨rfl, hend⟩⟩

/-- The sign of an assignment is read exactly where it stands. -/
theorem assignSign_eq_ok_iff {s r : List Char} :
    assignSign s = .ok () r ↔ Sign s r := by
  unfold assignSign Sign
  rw [bind_eq_ok_iff]
  constructor
  · rintro ⟨a, t, ht, hu⟩
    obtain ⟨rfl, hend⟩ := unlessNext_eq_ok_iff.mp hu
    refine ⟨token_eq_ok_iff.mp ht, fun hc => ?_⟩
    exact hend '=' hc (by decide)
  · rintro ⟨ht, hend⟩
    refine ⟨(), r, token_eq_ok_iff.mpr ht, unlessNext_eq_ok_iff.mpr ⟨rfl, fun c hc heq => ?_⟩⟩
    exact hend (beq_iff_eq.mp heq ▸ hc)

/-- A word that is no keyword is read as a name, up to its last character. -/
theorem word_eq_ok_iff {s r : List Char} {x : String} :
    word s = .ok x r ↔ s = x.toList ++ r ∧ isName x.toList ∧ EndsWord r := by
  constructor
  · intro h
    cases s with
    | nil => cases h
    | cons c s =>
      simp only [word] at h
      split at h
      · next hc =>
        split at h
        · cases h
        · next hk =>
          cases h
          rw [String.toList_ofList]
          refine ⟨by simp, isName_iff.mpr ⟨c, _, rfl, hc, ?_, by simpa using hk⟩,
            not_of_mem_head?_dropWhile s⟩
          intro d hd
          exact List.mem_takeWhile_imp hd
      · cases h
  · rintro ⟨rfl, hx, hr⟩
    obtain ⟨c, cs, hxs, hc, hcs, hk⟩ := isName_iff.mp hx
    have htake : (cs ++ r).takeWhile isNameChar = cs := takeWhile_append_of_stop hcs hr
    have hdrop : (cs ++ r).dropWhile isNameChar = r := dropWhile_append_of_stop hcs hr
    rw [hxs] at hk
    rw [hxs, List.cons_append]
    simp only [word, if_pos hc, htake, hdrop, hk, Bool.false_eq_true, if_false]
    rw [← hxs, String.ofList_toList]

/-- A name is read exactly where the grammar has one. -/
theorem identifier_eq_ok_iff {s r : List Char} {x : String} :
    identifier s = .ok x r ↔ Name s r x := by
  rw [Name, afterLayout_iff, ← word_eq_ok_iff]
  rfl

/-! ### Integers -/

/-- Digits are what a numeral takes, up to the last of them. -/
theorem digits_iff {s r digits : List Char} :
    Digits s r digits ↔
      digits = s.takeWhile Char.isDigit ∧ r = s.dropWhile Char.isDigit ∧ digits ≠ [] := by
  constructor
  · rintro ⟨rfl, hne, hd, hr⟩
    exact ⟨(takeWhile_append_of_stop hd hr).symm, (dropWhile_append_of_stop hd hr).symm, hne⟩
  · rintro ⟨rfl, rfl, hne⟩
    exact ⟨by simp, hne, fun d hd => List.mem_takeWhile_imp hd, not_of_mem_head?_dropWhile s⟩

/-- Where a digit stands, digits do. -/
theorem digits_of_head? {s : List Char} (h : ¬∀ c ∈ s.head?, ¬ c.isDigit) :
    Digits s (s.dropWhile Char.isDigit) (s.takeWhile Char.isDigit) := by
  refine digits_iff.mpr ⟨rfl, rfl, fun hempty => h ?_⟩
  have hstop := not_of_mem_head?_dropWhile (p := Char.isDigit) s
  rwa [← List.takeWhile_append_dropWhile (p := Char.isDigit) (l := s), hempty, List.nil_append]

/-- A minus sign in front of a text, or nothing. -/
def signed (negative : Bool) (s : List Char) : List Char :=
  if negative then '-' :: s else s

/-- Every text is one without a minus sign in front, or with one. -/
theorem exists_signed (s : List Char) :
    ∃ negative t, s = signed negative t ∧ (negative = false → t.head? ≠ some '-') := by
  cases s with
  | nil => exact ⟨false, [], rfl, fun _ => nofun⟩
  | cons c s =>
    by_cases hc : c = '-'
    · exact ⟨true, s, congrArg (· :: s) hc, nofun⟩
    · exact ⟨false, c :: s, rfl, fun _ heq => hc (Option.some.inj heq)⟩

/-- A numeral looks past the minus sign in front of it. -/
theorem afterMinus?_signed (negative : Bool) {s : List Char}
    (h : negative = false → s.head? ≠ some '-') :
    (afterMinus? (signed negative s)).getD (signed negative s) = s ∧
      (afterMinus? (signed negative s)).isSome = negative := by
  cases negative with
  | true => exact ⟨rfl, rfl⟩
  | false =>
    cases s with
    | nil => exact ⟨rfl, rfl⟩
    | cons c s =>
      have hc : ('-' == c) = false := beq_false_of_ne fun heq => h rfl (congrArg some heq.symm)
      simp [signed, afterMinus?, List.isPrefixOf?, hc]

/-- Digits with a minus sign before them or without are a literal, if their value is in range. -/
theorem numeral_signed {negative : Bool} {s r digits : List Char} (h : Digits s r digits) :
    numeral (signed negative s) =
      match Value.ofInt? (digitsValue negative digits) with
      | some v => .ok v r
      | none => .fail .outOfRange (signed negative s) := by
  have hhead : s.head? ≠ some '-' := by
    obtain ⟨d, t, rfl, hd⟩ := h.cons
    intro heq
    rw [Option.some.inj heq] at hd
    exact absurd hd (by decide)
  obtain ⟨hbody, hsign⟩ := afterMinus?_signed negative fun _ => hhead
  obtain ⟨hdigits, hr, hne⟩ := digits_iff.mp h
  simp only [numeral, hbody, hsign, ← hdigits, ← hr]
  exact if_neg (by simpa using hne)

/-- Without a digit there, no numeral is read. -/
theorem numeral_signed_miss {negative : Bool} {s : List Char}
    (hm : negative = false → s.head? ≠ some '-') (hd : ∀ c ∈ s.head?, ¬ c.isDigit) :
    numeral (signed negative s) = .miss s := by
  have hempty : s.takeWhile Char.isDigit = [] := by
    cases s with
    | nil => rfl
    | cons c s => simpa using hd c rfl
  obtain ⟨hbody, -⟩ := afterMinus?_signed negative hm
  simp [numeral, hbody, hempty]

/-- A literal of the grammar is digits with a minus sign before them or without. -/
theorem number_iff {s r : List Char} {v : Value} :
    Number s r v ↔ ∃ negative t digits, AfterLayout s (signed negative t) ∧ Digits t r digits ∧
      v.toInt = digitsValue negative digits := by
  constructor
  · intro h
    cases h with
    | plain ht hd hv => exact ⟨false, _, _, ht, hd, hv⟩
    | negative ht hd hv => exact ⟨true, _, _, ht, hd, hv⟩
  · rintro ⟨negative, t, digits, ht, hd, hv⟩
    cases negative with
    | true => exact .negative ht hd hv
    | false => exact .plain ht hd hv

/-- An integer literal is read exactly where the grammar has one. -/
theorem integer_eq_ok_iff {s r : List Char} {v : Value} :
    integer s = .ok v r ↔ Number s r v := by
  change numeral (skip s) = .ok v r ↔ Number s r v
  rw [number_iff]
  constructor
  · intro h
    obtain ⟨negative, t, ht, hm⟩ := exists_signed (skip s)
    rw [ht] at h
    by_cases hd : ∀ c ∈ t.head?, ¬ c.isDigit
    · rw [numeral_signed_miss hm hd] at h
      cases h
    · have hdigits := digits_of_head? hd
      rw [numeral_signed hdigits] at h
      split at h
      · next w hw =>
        cases h
        exact ⟨negative, t, _, afterLayout_iff.mpr ht, hdigits, Value.ofInt?_eq_some_iff.mp hw⟩
      · cases h
  · rintro ⟨negative, t, digits, ht, hd, hv⟩
    rw [afterLayout_iff.mp ht, numeral_signed hd, Value.ofInt?_eq_some_iff.mpr hv]

/-- Where a sign and digits stand, a literal is read or is out of range. -/
theorem integer_of_digits {negative : Bool} {s t r digits : List Char}
    (hs : AfterLayout s (signed negative t)) (hd : Digits t r digits) :
    (∃ v, integer s = .ok v r) ∨ integer s = .fail .outOfRange (skip s) := by
  change (∃ v, numeral (skip s) = .ok v r) ∨ numeral (skip s) = .fail .outOfRange (skip s)
  rw [afterLayout_iff.mp hs, numeral_signed hd]
  cases Value.ofInt? (digitsValue negative digits) with
  | some v => exact .inl ⟨v, rfl⟩
  | none => exact .inr rfl

/-! ### Operators -/

/-- A symbol with an operator among others is read as one of them. -/
theorem operatorAmong_eq_ok {ops : List Operator} {op : Operator} {s r : List Char}
    (h : operatorAmong ops s = .ok op r) : op ∈ ops ∧ Symbol op.symbol s r := by
  induction ops with
  | nil => cases h
  | cons other ops ih =>
    rcases orElse_eq_ok_iff.mp h with h | ⟨-, h⟩
    · obtain ⟨u, t, ht, hp⟩ := bind_eq_ok_iff.mp h
      obtain ⟨rfl, rfl⟩ := pure_eq_ok_iff.mp hp
      exact ⟨List.mem_cons_self, token_eq_ok_iff.mp ht⟩
    · exact (ih h).imp_left (List.mem_cons_of_mem other)

/-- An operator is read if its symbol stands there and that of none before it does. -/
theorem operatorAmong_append_of_symbol {before : List Operator} {op : Operator} {s r : List Char}
    (h : Symbol op.symbol s r) (hb : ∀ other ∈ before, ∀ t, ¬ Symbol other.symbol s t)
    (after : List Operator) : operatorAmong (before ++ op :: after) s = .ok op r := by
  induction before with
  | nil => exact orElse_ok (bind_ok (token_eq_ok_iff.mpr h))
  | cons other before ih =>
    obtain ⟨rest, hmiss⟩ := (token_neverFails other.symbol).exists_miss
      fun _ t hok => hb other List.mem_cons_self t (token_eq_ok_iff.mp hok)
    refine (orElse_miss (bind_miss hmiss)).trans (ih fun op' hop' => ?_)
    exact hb op' (List.mem_cons_of_mem other hop')

/-- The operators of a level, in the order in which they are looked for. -/
def operatorsAt : Nat → List Operator
  | 0 => [.lessOrEqual, .greaterOrEqual, .equal, .notEqual, .lessThan, .greaterThan]
  | 1 => [.add, .subtract]
  | _ => [.multiply, .divide]

/-- The operators of a level are of this level. -/
theorem level_of_mem_operatorsAt {level : Nat} (hl : level < 3) {op : Operator}
    (h : op ∈ operatorsAt level) : op.level = level := by
  have key : ∀ level < 3, ∀ op ∈ operatorsAt level, op.level = level := by decide
  exact key level hl op h

/-- An operator is recognised among those of its level, unless an equals sign makes it longer. -/
theorem operatorAmong_of_symbol {op : Operator} {s r : List Char} (h : Symbol op.symbol s r)
    (hr : r.head? ≠ some '=') : operatorAmong (operatorsAt op.level) s = .ok op r := by
  have hlonger : ∀ t, r ≠ '=' :: t := by
    rintro t rfl
    exact hr rfl
  have pick : ∀ before after : List Operator,
      (∀ other ∈ before, ∀ t, op.symbol.toList ++ r ≠ other.symbol.toList ++ t) →
        operatorAmong (before ++ op :: after) s = .ok op r := fun before after hb =>
    operatorAmong_append_of_symbol h
      (fun other ho t ht => hb other ho t (AfterLayout.unique h ht)) after
  cases op with
  | add => exact pick [] _ nofun
  | subtract => exact pick [.add] _ (by simp [Operator.symbol])
  | multiply => exact pick [] _ nofun
  | divide => exact pick [.multiply] _ (by simp [Operator.symbol])
  | lessOrEqual => exact pick [] _ nofun
  | greaterOrEqual => exact pick [.lessOrEqual] _ (by simp [Operator.symbol])
  | equal => exact pick [.lessOrEqual, .greaterOrEqual] _ (by simp [Operator.symbol])
  | notEqual => exact pick [.lessOrEqual, .greaterOrEqual, .equal] _ (by simp [Operator.symbol])
  | lessThan =>
    exact pick [.lessOrEqual, .greaterOrEqual, .equal, .notEqual] _
      (by simp [Operator.symbol, hlonger])
  | greaterThan =>
    exact pick [.lessOrEqual, .greaterOrEqual, .equal, .notEqual, .lessThan] _
      (by simp [Operator.symbol, hlonger])

/-! ### Misses -/

section misses

variable {s : List Char}

/-- A token misses where another character comes first. -/
theorem token_miss (text : String) {c : Char} {cs : List Char} (ht : text.toList = c :: cs)
    (h : first s ≠ some c) : ∃ rest, token text s = .miss rest :=
  (token_neverFails text).exists_miss fun _ _ hok => h ((token_eq_ok_iff.mp hok).first ht)

/-- A keyword misses where no character comes first that starts names. -/
theorem keyword_miss (k : Keyword) (h : ∀ c ∈ first s, ¬ isNameStart c) :
    ∃ rest, keyword k s = .miss rest := by
  refine (keyword_neverFails k).exists_miss fun _ _ hok => ?_
  obtain ⟨c, hc, hstart⟩ := (keyword_eq_ok_iff.mp hok).first
  exact h c hc hstart

/-- A name misses where no character comes first that starts names. -/
theorem identifier_miss (h : ∀ c ∈ first s, ¬ isNameStart c) :
    ∃ rest, identifier s = .miss rest := by
  refine identifier_neverFails.exists_miss fun _ _ hok => ?_
  obtain ⟨c, hc, hstart⟩ := (identifier_eq_ok_iff.mp hok).first
  exact h c hc hstart

/-- No name starts with a character that starts none. -/
theorem identifier_miss_of_first {c : Char} (h : first s = some c) (hc : isNameStart c = false) :
    ∃ rest, identifier s = .miss rest := by
  refine identifier_miss fun d hd => ?_
  rw [Option.some.inj (hd.symm.trans h), hc]
  exact Bool.false_ne_true

/-- An integer misses where neither a digit nor a minus sign comes first. -/
theorem integer_miss (h : ∀ c ∈ first s, ¬ c.isDigit ∧ c ≠ '-') :
    ∃ rest, integer s = .miss rest := by
  have hplain : skip s = signed false (skip s) := rfl
  refine ⟨skip s, ?_⟩
  change numeral (skip s) = .miss (skip s)
  rw [hplain]
  exact numeral_signed_miss (fun _ hm => (h '-' hm).2 rfl) fun c hc => (h c hc).1

/-- No operator is read where the symbol of none stands. -/
theorem operatorAmong_miss {ops : List Operator} (h : ∀ op ∈ ops, ∀ r, ¬ Symbol op.symbol s r) :
    ∃ rest, operatorAmong ops s = .miss rest := by
  refine (operatorAmong_neverFails ops).exists_miss fun op r hok => ?_
  obtain ⟨hop, hs⟩ := operatorAmong_eq_ok hok
  exact h op hop r hs

end misses

end Parser

end Scriptlet
