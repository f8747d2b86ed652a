import Mathlib.Logic.Function.Iterate
import Scriptlet.Proofs.Layout.Padding
import Scriptlet.Text.Blank

/-!
# Scanning a text for words

A scan goes through a text from the left and takes at each place the longest word, where a word begins
there, the whole comment, where one opens there, and one character elsewhere. It knows nothing of the
grammar. `Scanned s r` says that the scan of `s` comes to its end part `r`, and `SplitsWord s r` that
`r` begins inside a word that the scan takes.

* `not_splitsWord`: a place that the scan comes to is inside no word.
* `Clean s r`: on its way from `s` to `r` the scan meets no stray character, which is a blank one that
  is no layout, or a slash that opens no comment together with a slash after it. Layout is clean, and so
  are tokens. What is clean stays so before any text that comes later (`Clean.append`).
-/

namespace Scriptlet

open Scriptlet.Grammar

namespace Text

/-! ### The scan -/

/-- What follows the word or the comment at the start of a text, or its first character where neither
stands there. -/
def scan : List Char → List Char
  | [] => []
  | c :: s =>
    if isNameStart c then s.dropWhile isNameChar
    else if opensComment (c :: s) then s.dropWhile fun d => !(d == '\r' || d == '\n')
    else s

/-- The scan of a text comes to an end part of it. -/
def Scanned (s r : List Char) : Prop :=
  ∃ n, scan^[n] s = r

/-- An end part of a text begins inside a word: the scan takes a longest word, of which a start is
before the end part and the rest, which is not empty, in it. -/
def SplitsWord (s r : List Char) : Prop :=
  ∃ c a b t, Scanned s (c :: a ++ b ++ t) ∧ isNameStart c ∧ (∀ d ∈ a ++ b, isNameChar d) ∧ b ≠ [] ∧
    EndsWord t ∧ r = b ++ t

/-- A character from one to another is not below the first one's code, nor above the second one's. -/
theorem toNat_bounds {a c b : Char} (h : a.val ≤ c.val ∧ c.val ≤ b.val) :
    a.toNat ≤ c.toNat ∧ c.toNat ≤ b.toNat :=
  h.imp UInt32.le_iff_toNat_le.mp UInt32.le_iff_toNat_le.mp

/-- No blank character is part of a word. -/
theorem isBlank_of_isNameChar {c : Char} (h : isNameChar c) : isBlank c = false := by
  have hcode : 48 ≤ c.toNat ∧ c.toNat ≤ 122 := by
    have hclass : (((c.isUpper || c.isLower) || c.isDigit) || c == '_') = true := h
    simp only [Bool.or_eq_true, beq_iff_eq] at hclass
    rcases hclass with ((hupper | hlower) | hdigit) | rfl
    · have hletter : 'A'.val ≤ c.val ∧ c.val ≤ 'Z'.val := of_decide_eq_true hupper
      exact (toNat_bounds hletter).imp (Nat.le_trans (by decide)) (Nat.le_trans · (by decide))
    · have hletter : 'a'.val ≤ c.val ∧ c.val ≤ 'z'.val :=
        (Bool.and_eq_true_iff.mp hlower).imp of_decide_eq_true of_decide_eq_true
      exact (toNat_bounds hletter).imp (Nat.le_trans (by decide)) (Nat.le_trans · (by decide))
    · exact (Char.isDigit_iff_toNat.mp hdigit).imp_right (Nat.le_trans · (by decide))
    · decide
  simp [isBlank, blankRanges]
  omega

section scan

variable {c : Char} {cs s t u r : List Char}

/-- A word is taken up to its end. -/
theorem scan_word (hc : isNameStart c) (hcs : ∀ d ∈ cs, isNameChar d) (ht : EndsWord t) :
    scan (c :: (cs ++ t)) = t := by
  rw [scan, if_pos hc]
  exact dropWhile_append_of_stop hcs ht

/-- A comment is taken up to the end of its line. -/
theorem scan_comment {body : List Char} (hbody : ∀ d ∈ body, d ≠ '\r' ∧ d ≠ '\n') (ht : LineEnd t) :
    scan ('/' :: '/' :: (body ++ t)) = t := by
  have hopens : opensComment ('/' :: '/' :: (body ++ t)) := lineEnds_append hbody ht
  have hstop : ∀ d ∈ t.head?, ¬ (!(d == '\r' || d == '\n')) = true := by
    cases ht with
    | text => nofun
    | newline s => simp
    | crlf s => simp
  rw [scan, if_neg (by decide), if_pos hopens, List.dropWhile_cons_of_pos (by decide)]
  exact dropWhile_append_of_stop (fun d hd => by simpa using hbody d hd) hstop

/-- Any other character is taken by itself. -/
theorem scan_char (hc : isNameStart c = false) (ho : opensComment (c :: s) = false) :
    scan (c :: s) = s := by
  simp [scan, hc, ho]

/-- A scan takes at least one character, where there is one. -/
theorem scan_cons_suffix (c : Char) (s : List Char) : scan (c :: s) <:+ s := by
  rw [scan]
  split
  · exact List.dropWhile_suffix _
  · split
    · exact List.dropWhile_suffix _
    · exact List.suffix_refl s

/-- At the end of a text the scan stays there. -/
theorem scan_nil (n : Nat) : scan^[n] [] = [] :=
  Function.iterate_fixed rfl n

/-- A scan begins at the start of the text. -/
theorem Scanned.refl (s : List Char) : Scanned s s :=
  ⟨0, rfl⟩

/-- What is come to from the next place is come to from this one. -/
theorem Scanned.step (h : Scanned (scan s) r) : Scanned s r := by
  obtain ⟨n, rfl⟩ := h
  exact ⟨n + 1, rfl⟩

/-- What is come to from a place that is come to is come to. -/
theorem Scanned.trans (h : Scanned s t) (ht : Scanned t r) : Scanned s r := by
  obtain ⟨m, rfl⟩ := h
  obtain ⟨n, rfl⟩ := ht
  exact ⟨n + m, Function.iterate_add_apply scan n m s⟩

/-- A scan goes on, or has not begun. -/
theorem Scanned.cases (h : Scanned s r) : s = r ∨ Scanned (scan s) r := by
  obtain ⟨n, rfl⟩ := h
  cases n with
  | zero => exact .inl rfl
  | succ n => exact .inr ⟨n, rfl⟩

/-- A scan comes to end parts only. -/
theorem Scanned.suffix (h : Scanned s r) : r <:+ s := by
  obtain ⟨n, rfl⟩ := h
  induction n generalizing s with
  | zero => exact List.suffix_refl s
  | succ n ih =>
    cases s with
    | nil => exact ih.trans (List.suffix_refl [])
    | cons c s => exact ih.trans ((scan_cons_suffix c s).trans (List.suffix_cons c s))

/-- Of two places that the scan comes to, it comes to the one by the other. -/
theorem Scanned.total (ht : Scanned s t) (hu : Scanned s u) : Scanned t u ∨ Scanned u t := by
  obtain ⟨m, rfl⟩ := ht
  obtain ⟨n, rfl⟩ := hu
  rcases Nat.le_total m n with h | h
  · refine .inl ⟨n - m, ?_⟩
    rw [← Function.iterate_add_apply, Nat.sub_add_cancel h]
  · refine .inr ⟨m - n, ?_⟩
    rw [← Function.iterate_add_apply, Nat.sub_add_cancel h]

/-- A place that the scan comes to is inside no word. -/
theorem not_splitsWord (h : Scanned s r) : ¬ SplitsWord s r := by
  rintro ⟨c, a, b, t, hword, hc, hcs, hb, ht, rfl⟩
  have hpos : 0 < b.length := List.length_pos_iff.mpr hb
  rcases hword.total h with hfrom | hto
  · -- from the start of the word the scan goes to its end
    rw [List.cons_append, List.cons_append] at hfrom
    rcases hfrom.cases with heq | hafter
    · have := congrArg List.length heq
      simp at this
      omega
    · rw [scan_word hc hcs ht] at hafter
      have := hafter.suffix.length_le
      rw [List.length_append] at this
      omega
  · have := hto.suffix.length_le
    simp only [List.length_append, List.length_cons] at this
    omega

end scan

/-! ### Clean scans -/

/-- No stray character stands at the start of a text. -/
structure Firm (s : List Char) : Prop where
  blank : ∀ c ∈ s.head?, isBlank c → isSpace c
  slash : ∀ t, s = '/' :: '/' :: t → opensComment s

/-- A character that is not blank and no slash is not stray. -/
theorem firm_of_char {c : Char} (hblank : isBlank c = false) (hslash : c ≠ '/') (s : List Char) :
    Firm (c :: s) where
  blank d hd hb := by
    rw [← Option.some.inj hd, hblank] at hb
    cases hb
  slash _ ht := absurd (List.cons.inj ht).1 hslash

/-- The start of a comment is not stray. -/
theorem firm_of_opensComment {s : List Char} (h : opensComment ('/' :: s)) : Firm ('/' :: s) where
  blank d hd hb := by
    rw [← Option.some.inj hd] at hb
    exact absurd hb (by decide)
  slash _ _ := h

/-- A comment that ends before the end of a text ends with a newline, so that it is one before any other
text. -/
theorem opensComment_append {c : Char} {s : List Char} (h : opensComment (c :: s))
    (hne : scan (c :: s) ≠ []) (w : List Char) : opensComment (c :: (s ++ w)) := by
  cases s with
  | nil => cases h
  | cons d s =>
    obtain ⟨⟨rfl, rfl⟩, hline⟩ : (c = '/' ∧ d = '/') ∧ lineEnds s := by
      simpa [opensComment] using h
    have hmem : '\n' ∈ s := by
      obtain ⟨body, t, rfl, hbody, ht⟩ := exists_lineEnd hline
      rw [scan_comment hbody ht] at hne
      cases ht with
      | text => exact absurd rfl hne
      | newline s => simp
      | crlf s => simp
    have hwhole : lineEnds (s ++ w) := by rwa [lineEnds_append_of_mem hmem]
    exact hwhole

/-- What the scan takes from the start of a text that goes on, it takes before any other text. -/
theorem scan_append {c : Char} {s : List Char} (hfirm : Firm (c :: s)) (hne : scan (c :: s) ≠ [])
    (w : List Char) : scan (c :: (s ++ w)) = scan (c :: s) ++ w := by
  by_cases hc : isNameStart c
  · simp only [scan, hc, if_true] at hne ⊢
    rw [List.dropWhile_append, if_neg (by simpa using hne)]
  by_cases ho : opensComment (c :: s)
  · have hopens := opensComment_append ho hne w
    simp only [scan, hc, ho, hopens, if_true, Bool.false_eq_true, if_false] at hne ⊢
    rw [List.dropWhile_append, if_neg (by rwa [List.isEmpty_iff])]
  · rw [Bool.not_eq_true] at hc ho
    have hopens : opensComment (c :: (s ++ w)) = false := by
      rw [scan_char hc ho] at hne
      obtain ⟨d, s, rfl⟩ := List.exists_cons_of_ne_nil hne
      rw [Bool.eq_false_iff]
      intro h
      obtain ⟨⟨rfl, rfl⟩, -⟩ : (c = '/' ∧ d = '/') ∧ lineEnds (s ++ w) := by
        simpa [opensComment] using h
      rw [hfirm.slash s rfl] at ho
      cases ho
    rw [scan_char hc hopens, scan_char hc ho]

/-- A text that goes on starts with no stray character before any other text either. -/
theorem Firm.append {c : Char} {s : List Char} (h : Firm (c :: s)) (hne : scan (c :: s) ≠ [])
    (w : List Char) : Firm (c :: (s ++ w)) where
  blank := h.blank
  slash t ht := by
    cases s with
    | nil => exact absurd (List.suffix_nil.mp (scan_cons_suffix c [])) hne
    | cons d s =>
      obtain ⟨rfl, hs⟩ := List.cons.inj ht
      obtain ⟨rfl, -⟩ := List.cons.inj hs
      exact opensComment_append (h.slash s rfl) hne w

/-- The scan of a text comes to an end part of it, and meets no stray character on its way. -/
inductive Clean : List Char → List Char → Prop where
  | refl (s : List Char) : Clean s s
  | step {c : Char} {s r : List Char} : Firm (c :: s) → Clean (scan (c :: s)) r → Clean (c :: s) r

/-- Whether the scan takes a character by itself, whatever comes after it, and it is not blank. -/
def isPlain (c : Char) : Bool :=
  !isNameStart c && !isBlank c && c != '/'

/-- What it takes for a character to be plain. -/
theorem isPlain_iff {c : Char} :
    isPlain c ↔ isNameStart c = false ∧ isBlank c = false ∧ c ≠ '/' := by
  simp [isPlain, and_assoc]

namespace Clean

variable {c : Char} {s t r w : List Char}

/-- A clean scan may go on from where another one came to. -/
theorem trans (h : Clean s t) (ht : Clean t r) : Clean s r := by
  induction h with
  | refl s => exact ht
  | step hfirm _ ih => exact .step hfirm (ih ht)

/-- A clean scan is a scan. -/
theorem scanned (h : Clean s r) : Scanned s r := by
  induction h with
  | refl s => exact .refl s
  | step _ _ ih => exact ih.step

/-- A clean scan to the end of a text goes through all places that a clean scan comes to. -/
theorem to_end (h : Clean s r) (hend : Clean s []) : Clean r [] := by
  induction h with
  | refl s => exact hend
  | step _ _ ih =>
    cases hend with
    | step _ hrest => exact ih hrest

/-- In a text that is clean to its end, the scan meets no stray blank. -/
theorem isSpace_of_isBlank (hend : Clean s []) (h : Scanned s (c :: r)) (hc : isBlank c) :
    isSpace c := by
  obtain ⟨n, h⟩ := h
  induction n generalizing s with
  | zero =>
    obtain rfl : s = c :: r := h
    cases hend with
    | step hfirm _ => exact hfirm.blank c rfl hc
  | succ n ih =>
    cases hend with
    | refl =>
      have hnil : scan^[n + 1] [] = [] := scan_nil (n + 1)
      rw [h] at hnil
      cases hnil
    | step _ hrest => exact ih hrest h

/-- What comes to an end part by a clean scan does so before any other text. -/
theorem append (h : Clean s r) (hr : r ≠ []) (w : List Char) : Clean (s ++ w) (r ++ w) := by
  induction h with
  | refl s => exact .refl _
  | @step c s r hfirm hrest ih =>
    have hne : scan (c :: s) ≠ [] := fun hnil =>
      hr (List.suffix_nil.mp (hnil ▸ hrest.scanned.suffix))
    have hrest := ih hr
    rw [← scan_append hfirm hne w] at hrest
    exact .step (hfirm.append hne w) hrest

/-! ### What is clean -/

/-- Plain characters are taken one after the other. -/
theorem of_plain {l : List Char} (hl : ∀ c ∈ l, isPlain c) (s : List Char) : Clean (l ++ s) s := by
  induction l with
  | nil => exact .refl s
  | cons c l ih =>
    obtain ⟨hword, hblank, hslash⟩ := isPlain_iff.mp (hl c List.mem_cons_self)
    have hopens : opensComment (c :: (l ++ s)) = false := by
      cases l ++ s <;> simp [opensComment, hslash]
    have hrest := ih fun d hd => hl d (List.mem_cons_of_mem c hd)
    rw [← scan_char hword hopens] at hrest
    exact .step (firm_of_char hblank hslash _) hrest

/-- A word is clean. -/
theorem of_word {cs : List Char} (hc : isNameStart c) (hcs : ∀ d ∈ cs, isNameChar d)
    (ht : EndsWord t) : Clean (c :: (cs ++ t)) t := by
  have hblank := isBlank_of_isNameChar (isNameChar_of_isNameStart hc)
  refine .step (firm_of_char hblank (not_layout_of_isNameStart hc).2 _) ?_
  rw [scan_word hc hcs ht]
  exact .refl t

/-- Layout is clean: what is blank in it is a space, and its slashes open comments. -/
theorem of_layout (h : Layout s r) : Clean s r := by
  induction h with
  | none s => exact .refl s
  | @space c s r hc _ ih =>
    have key : ∀ c ∈ [' ', '\t', '\r', '\n'], isNameStart c = false ∧ c ≠ '/' ∧ isSpace c :=
      forall_mem_of_all (by decide)
    obtain ⟨hword, hslash, hspace⟩ := key c hc
    have hopens : opensComment (c :: s) = false := by
      cases s <;> simp [opensComment, hslash]
    refine .step ⟨?_, fun t ht => absurd (List.cons.inj ht).1 hslash⟩ ?_
    · intro d hd _
      rwa [← Option.some.inj hd]
    · rwa [scan_char hword hopens]
  | @comment body s r hbody hline _ ih =>
    have hopens : opensComment ('/' :: '/' :: (body ++ s)) := lineEnds_append hbody hline
    refine .step (firm_of_opensComment hopens) ?_
    rwa [scan_comment hbody hline]

/-- A slash that is not followed by another one. -/
theorem of_slash (hs : ∀ t, s ≠ '/' :: t) : Clean ('/' :: s) s := by
  have hopens : opensComment ('/' :: s) = false := by
    cases s with
    | nil => rfl
    | cons d s =>
      have hd : d ≠ '/' := fun heq => hs s (heq ▸ rfl)
      simp [opensComment, hd]
  refine .step ⟨?_, fun t ht => absurd (List.cons.inj ht).2 (hs t)⟩ ?_
  · intro d hd hb
    rw [← Option.some.inj hd] at hb
    exact absurd hb (by decide)
  · rw [scan_char (by decide) hopens]
    exact .refl s

/-- The layout at the start of a text is clean. -/
theorem of_skip (s : List Char) : Clean s (skip s) :=
  of_layout (layout_skip s)

/-! ### Tokens -/

/-- A symbol of plain characters is clean, with the layout before it. -/
theorem of_symbol {text : String} (htext : text.toList.all isPlain) (h : Symbol text s r) :
    Clean s r := by
  have hskip := of_skip s
  rw [afterLayout_iff.mp h] at hskip
  exact hskip.trans (of_plain (List.all_eq_true.mp htext) r)

/-- A keyword with the layout before it is clean. -/
theorem of_keyword {k : Keyword} (h : Word k s r) : Clean s r := by
  obtain ⟨c, cs, hk, hc, hcs⟩ := letters_eq_cons k
  have hskip := of_skip s
  rw [afterLayout_iff.mp h.1, hk] at hskip
  exact hskip.trans (of_word hc (fun d hd => hcs d (List.mem_cons_of_mem c hd)) h.2)

/-- A name with the layout before it is clean. -/
theorem of_name {x : String} (h : Name s r x) : Clean s r := by
  obtain ⟨c, cs, hx, hc, hcs, -⟩ := isName_iff.mp h.2.1
  have hskip := of_skip s
  rw [afterLayout_iff.mp h.1, hx] at hskip
  exact hskip.trans (of_word hc hcs h.2.2)

/-- Digits are plain, and so clean. -/
theorem of_digits {digits : List Char} (h : Digits s r digits) : Clean s r := by
  obtain ⟨rfl, -, hdigits, -⟩ := h
  refine of_plain (fun d hd => isPlain_iff.mpr ⟨?_, ?_, ?_⟩) r
  · rw [Bool.eq_false_iff]
    exact fun hstart => not_isDigit_of_isNameStart hstart (hdigits d hd)
  · refine isBlank_of_isNameChar ?_
    simp [isNameChar, Char.isAlphanum, hdigits d hd]
  · exact (not_layout_of_isDigit (hdigits d hd)).2

/-- An integer is clean, with its sign and the layout before it. -/
theorem of_number {v : Value} (h : Number s r v) : Clean s r := by
  have hskip := of_skip s
  cases h with
  | plain ht hdigits _ =>
    rw [afterLayout_iff.mp ht] at hskip
    exact hskip.trans (of_digits hdigits)
  | negative ht hdigits _ =>
    rw [afterLayout_iff.mp ht] at hskip
    have hminus : ∀ c ∈ ['-'], isPlain c := forall_mem_of_all (by decide)
    exact (hskip.trans (of_plain hminus _)).trans (of_digits hdigits)

end Clean

end Text

end Scriptlet
