import Scriptlet.Proofs.Parser.Compositional
import Scriptlet.Proofs.Parser.Token

/-!
# Repetition without a bound

A repetition that knows no bound on its rounds has to stop itself where a round reads nothing, or it
would never end. `guarded p` is that repetition: it ends because each round leaves a shorter text than
the one before, and a round that does not is an error. If the repeated parser advances, this error is
never met and the repetition is the bounded one (`guarded_eq_many`).

No other parser of the language reports that it is stuck, so that the error would not go unnoticed
(`NeverStuck`, `neverStuck_combining`). Layout, which is read by one recursion on the text, is such a
repetition of its own: of runs of spaces and of comments (`layout_eq_guarded`).
-/

namespace Scriptlet

open Scriptlet.Text
open Scriptlet.Grammar

namespace Parser

variable {α β : Type}

/-! ### Repetition with a guard -/

/-- Repeats a parser until it misses. It is an error if a round reads nothing. -/
def guarded (p : Parser α) (s : List Char) : Reply (List α) :=
  match p s with
  | .miss _ => .ok [] s
  | .fail fault rest => .fail fault rest
  | .ok a rest =>
    if rest.length < s.length then
      match guarded p rest with
      | .ok as last => .ok (a :: as) last
      | .miss last => .miss last
      | .fail fault last => .fail fault last
    else .fail .stuck rest
termination_by s.length

section guarded

variable {p q : Parser α} {s rest last : List Char} {a : α}

/-- A miss ends the repetition where the round began. -/
theorem guarded_miss (h : p s = .miss rest) : guarded p s = .ok [] s := by
  rw [guarded, h]

/-- A failure in a round is one of the repetition. -/
theorem guarded_fail {fault : Fault} (h : p s = .fail fault rest) :
    guarded p s = .fail fault rest := by
  rw [guarded, h]

/-- A round that reads something is followed by the rounds after it. -/
theorem guarded_ok (h : p s = .ok a rest) (hlt : rest.length < s.length) :
    guarded p s = (List.cons a <$> (guarded p : Parser (List α)) : Parser (List α)) rest := by
  rw [guarded, h]
  simp only [hlt, if_true, Functor.map]
  cases guarded p rest <;> rfl

/-- The repetition of a parser that advances never comes to its bound. -/
theorem guarded_eq_many (hp : Advances p) : guarded p = many p := by
  funext s
  induction hlen : s.length using Nat.strong_induction_on generalizing s with
  | _ n ih =>
    cases h : p s with
    | miss rest => rw [guarded_miss h, many_miss h]
    | fail fault rest => rw [guarded_fail h, many_fail h]
    | ok a rest =>
      have hlt := hp.shorter h
      have hrest := ih rest.length (by omega) rest rfl
      rw [guarded_ok h hlt]
      cases hs : many p rest with
      | ok as last => rw [many_ok hp h hs]; exact bind_ok (hrest.trans hs)
      | miss last => exact absurd hs (manyWithin_ne_miss _ p rest last)
      | fail fault last => rw [many_ok_fail hp h hs]; exact bind_fail (hrest.trans hs)

/-- Guarded repetitions agree on short texts if the repeated parsers do and one of them advances. -/
theorem AgreeBelow.guarded {n : Nat} (h : AgreeBelow n p q) (hp : Advances p) :
    AgreeBelow n (guarded p) (guarded q) := by
  intro s hs
  induction hlen : s.length using Nat.strong_induction_on generalizing s with
  | _ m ih =>
    have hq := h s hs
    cases hps : p s with
    | miss rest => rw [guarded_miss hps, guarded_miss (hq ▸ hps)]
    | fail fault rest => rw [guarded_fail hps, guarded_fail (hq ▸ hps)]
    | ok a rest =>
      have hlt := hp.shorter hps
      have hrest := ih rest.length (by omega) rest (by omega) rfl
      rw [guarded_ok hps hlt, guarded_ok (hq ▸ hps) hlt]
      simp only [Functor.map, hrest]

end guarded

/-! ### Parsers that are never stuck -/

/-- A parser that never reports a repetition without an end. -/
def NeverStuck (p : Parser α) : Prop :=
  ∀ s rest, p s ≠ .fail .stuck rest

namespace NeverStuck

variable {p q : Parser α}

/-- What never fails is never stuck. -/
theorem of_neverFails (hp : NeverFails p) : NeverStuck p :=
  fun s => hp s .stuck

/-- A sequence is never stuck if its parts never are. -/
theorem bind {f : α → Parser β} (hp : NeverStuck p) (hf : ∀ a, NeverStuck (f a)) :
    NeverStuck (p >>= f) := by
  intro s rest h
  rcases bind_eq_fail_iff.mp h with h | ⟨a, t, -, h⟩
  · exact hp s rest h
  · exact hf a t rest h

/-- A choice is never stuck if its alternatives never are. -/
theorem orElse (hp : NeverStuck p) (hq : NeverStuck q) : NeverStuck (p <|> q) := by
  intro s rest h
  rcases orElse_eq_fail_iff.mp h with h | ⟨-, h⟩
  · exact hp s rest h
  · exact hq s rest h

/-- What is committed to fails because of a miss at most. -/
theorem committed (hp : NeverStuck p) : NeverStuck (committed p) := by
  intro s rest h
  rcases committed_eq_fail_iff.mp h with h | ⟨hfault, -⟩
  · exact hp s rest h
  · cases hfault

/-- A look ahead is stuck where the parser is. -/
theorem ahead (hp : NeverStuck p) : NeverStuck (ahead p) :=
  fun s rest h => hp s rest (ahead_eq_fail_iff.mp h)

/-- A repetition is never stuck if its rounds read something. -/
theorem many (ha : Advances p) (hp : NeverStuck p) : NeverStuck (many p) := by
  intro s rest h
  induction hlen : s.length using Nat.strong_induction_on generalizing s with
  | _ n ih =>
    cases hs : p s with
    | miss t =>
      rw [many_miss hs] at h
      cases h
    | fail fault t =>
      rw [many_fail hs] at h
      cases h
      exact hp s rest hs
    | ok a t =>
      have hlt := ha.shorter hs
      cases ht : Parser.many p t with
      | ok as last =>
        rw [many_ok ha hs ht] at h
        cases h
      | miss last => exact manyWithin_ne_miss _ p t last ht
      | fail fault last =>
        rw [many_ok_fail ha hs ht] at h
        cases h
        exact ih t.length (by omega) t ht rfl

/-- A numeral fails for the value of its digits only. -/
theorem numeral : NeverStuck numeral := by
  intro s rest h
  simp only [Parser.numeral] at h
  split at h
  · cases h
  · split at h <;> cases h

end NeverStuck

/-- No parser of the language is stuck if the expressions in it are not. -/
theorem neverStuck_combining : Combining fun _ p => NeverStuck p where
  pure a := .of_neverFails (.pure a)
  missing := .of_neverFails .missing
  bind := .bind
  orElse := .orElse
  committed := .committed
  ahead := .ahead
  many := .many
  layout := .of_neverFails layout_neverFails
  literal letters _ := .of_neverFails (literal_neverFails letters)
  unlessNext stops _ := .of_neverFails (unlessNext_neverFails stops)
  word := .of_neverFails word_neverFails
  numeral := .numeral

/-! ### Layout -/

/-- Reads a run of spaces. -/
def spaces : Parser Unit := fun s =>
  if s.head?.any isSpace then .ok () (s.dropWhile isSpace) else .miss s

/-- Reads up to the end of the line, unless a carriage return without a newline comes first. -/
def restOfLine : Parser Unit := fun s =>
  if lineEnds s then .ok () (s.dropWhile fun c => !(c == '\r' || c == '\n')) else .miss s

/-- Reads a comment. -/
def comment : Parser Unit := do
  literal ['/', '/']
  restOfLine

/-- Reads a run of spaces or a comment. -/
def layoutPiece : Parser Unit :=
  spaces <|> comment

/-- The spaces at the start of a text are layout. -/
theorem layout_dropWhile (s : List Char) : Layout s (s.dropWhile isSpace) := by
  induction s with
  | nil => exact .none []
  | cons c s ih =>
    rw [List.dropWhile_cons]
    split
    · next hc => exact .space (isSpace_iff.mp hc) ih
    · exact .none _

/-- A comment is read up to the end of its line. -/
theorem restOfLine_lineEnd {body t : List Char} (hbody : ∀ c ∈ body, c ≠ '\r' ∧ c ≠ '\n')
    (ht : LineEnd t) : restOfLine (body ++ t) = .ok () t := by
  have hline : lineEnds (body ++ t) := lineEnds_append hbody ht
  have hstop : ∀ c ∈ t.head?, ¬ (!(c == '\r' || c == '\n')) = true := by
    cases ht with
    | text => nofun
    | newline s => simp
    | crlf s => simp
  rw [restOfLine, if_pos hline, dropWhile_append_of_stop (fun c hc => by simpa using hbody c hc) hstop]

/-- A piece of layout is a part of the longest layout. -/
theorem layout_of_layoutPiece {s t : List Char} (h : layoutPiece s = .ok () t) : Layout s t := by
  rcases orElse_eq_ok_iff.mp h with h | ⟨-, h⟩
  · unfold spaces at h
    split at h
    · cases h
      exact layout_dropWhile s
    · cases h
  · obtain ⟨_, u, hslashes, hrest⟩ := bind_eq_ok_iff.mp h
    obtain rfl := literal_eq_ok_iff.mp hslashes
    by_cases hline : lineEnds u
    · obtain ⟨body, v, rfl, hbody, hv⟩ := exists_lineEnd hline
      obtain rfl : v = t := (Reply.ok.inj ((restOfLine_lineEnd hbody hv).symm.trans hrest)).2
      have hcomment : Layout ('/' :: '/' :: (body ++ v)) v := .comment hbody hv (.none v)
      exact hcomment
    · rw [restOfLine, if_neg hline] at hrest
      cases hrest

/-- Where no piece of layout is read, none stands. -/
theorem skip_of_layoutPiece_miss {s t : List Char} (h : layoutPiece s = .miss t) : skip s = s := by
  cases s with
  | nil => rfl
  | cons c s =>
    have hspace : isSpace c = false := by
      by_contra hc
      have hok : spaces (c :: s) = .ok () _ := if_pos (by simpa using hc)
      cases (orElse_ok hok).symm.trans h
    refine skip_cons_of_not hspace ?_
    by_contra hopen
    cases s with
    | nil => exact hopen rfl
    | cons d s =>
      obtain ⟨rfl, rfl, hline⟩ : c = '/' ∧ d = '/' ∧ lineEnds s := by
        simpa [opensComment, and_assoc] using hopen
      have hmiss : spaces ('/' :: '/' :: s) = .miss ('/' :: '/' :: s) := rfl
      have hslashes : literal ['/', '/'] ('/' :: '/' :: s) = .ok () s := literal_eq_ok_iff.mpr rfl
      have hrest : restOfLine s = .ok () _ := if_pos hline
      cases ((orElse_miss hmiss).trans ((bind_ok hslashes).trans hrest)).symm.trans h

/-- A run of spaces has at least one. -/
theorem spaces_advances : Advances spaces := by
  constructor
  · intro s
    unfold spaces
    split
    · exact List.dropWhile_suffix _
    · exact List.suffix_refl s
  · intro s rest a h
    unfold spaces at h
    split at h
    · next hhead =>
      cases h
      cases s with
      | nil => cases hhead
      | cons c s =>
        rw [List.dropWhile_cons_of_pos (by simpa using hhead)]
        exact Nat.lt_succ_of_le (List.dropWhile_suffix _).length_le
    · cases h

/-- The rest of a line is taken from the start of a text. -/
theorem restOfLine_trims : Trims restOfLine := by
  intro s
  unfold restOfLine
  split
  · exact List.dropWhile_suffix _
  · exact List.suffix_refl s

/-- A piece of layout is at least one character long. -/
theorem layoutPiece_advances : Advances layoutPiece :=
  spaces_advances.orElse <| (literal_advances (by decide)).bind fun _ => restOfLine_trims

/-- A piece of layout misses at most. -/
theorem layoutPiece_neverFails : NeverFails layoutPiece := by
  have hspaces : NeverFails spaces := by
    intro s fault rest
    unfold spaces
    split <;> nofun
  have hrest : NeverFails restOfLine := by
    intro s fault rest
    unfold restOfLine
    split <;> nofun
  exact hspaces.orElse ((literal_neverFails _).bind fun _ => hrest)

/-- Layout is a repetition of its pieces. -/
theorem layout_eq_guarded : layout = ((fun _ => ()) <$> guarded layoutPiece : Parser Unit) := by
  funext s
  rw [guarded_eq_many layoutPiece_advances]
  suffices key : ∃ pieces, many layoutPiece s = .ok pieces (skip s) by
    obtain ⟨pieces, h⟩ := key
    have hmap : ((fun _ => ()) <$> many layoutPiece : Parser Unit) s = .ok () (skip s) :=
      map_eq_ok_iff.mpr ⟨pieces, h, rfl⟩
    exact hmap.symm
  induction hlen : s.length using Nat.strong_induction_on generalizing s with
  | _ n ih =>
    cases h : layoutPiece s with
    | miss t => exact ⟨[], by rw [many_miss h, skip_of_layoutPiece_miss h]⟩
    | fail fault t => exact absurd h (layoutPiece_neverFails s fault t)
    | ok a t =>
      have hlt := layoutPiece_advances.shorter h
      obtain ⟨pieces, ht⟩ := ih t.length (by omega) t rfl
      rw [skip_eq_of_layout (layout_of_layoutPiece h)]
      exact ⟨a :: pieces, many_ok layoutPiece_advances h ht⟩

end Parser

end Scriptlet
