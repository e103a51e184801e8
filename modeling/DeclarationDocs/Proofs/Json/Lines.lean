import DeclarationDocs.Json.Relaxed
import DeclarationDocs.Proofs.Path.Segments
import Mathlib.Data.List.Forall2

namespace DeclarationDocs.Json

/-!
# The lines of a relaxed text

Making a text strict takes characters out of it, but no line break, and puts none in.  So the
lines of the strict text are those of the written one, each with some of its characters gone.

* `lines` — the lines of a text;
* `Thins t s` — `t` is `s` without some of its characters, none of which is a line break;
* `Thins.count_eq`, `Thins.forall₂_lines` — then both have as many line breaks, and each of
  `lines t` is a `List.Sublist` of the same one of `lines s`;
* `thins_stripFrom`, `thins_dropCommasFrom` — `Thins (stripFrom r s) s` and
  `Thins (dropCommasFrom b s) s`, from every place of a text on.
-/

open Relaxed (Region stripFrom stripComments dropCommasFrom dropTrailingCommas strict)

/-- The lines of a text, without the line breaks between them. -/
def lines (s : List Char) : List (List Char) := Text.splitAt '\n' s

/-- A line break ends a line that is empty so far. -/
@[simp] theorem lines_break (s : List Char) : lines ('\n' :: s) = [] :: lines s := rfl

/-- Any other character belongs to the first line. -/
theorem lines_cons {c : Char} (hc : c ≠ '\n') (s : List Char) :
    lines (c :: s) = (lines s).modifyHead (c :: ·) := by
  unfold lines
  rw [Text.splitAt_eq_splitOn, Text.splitAt_eq_splitOn, List.splitOn_cons_eq_if_modifyHead, if_neg]
  simpa using hc

/-- Every text has a line. -/
theorem lines_ne_nil (s : List Char) : lines s ≠ [] := Text.splitAt_ne_nil '\n' s

/-! ### Taking characters out of lines -/

/-- A text `t` is a text `s` without some of its characters, none of which is a line break. -/
inductive Thins : List Char → List Char → Prop
  | nil : Thins [] []
  | keep (c : Char) {t s : List Char} (h : Thins t s) : Thins (c :: t) (c :: s)
  | drop {c : Char} {t s : List Char} (hc : c ≠ '\n') (h : Thins t s) : Thins t (c :: s)

variable {s t u : List Char}

/-- A text that thins out one that thins out `s` thins out `s`. -/
theorem Thins.trans (htu : Thins t u) (hus : Thins u s) : Thins t s := by
  induction hus generalizing t with
  | nil => exact htu
  | keep c _ ih =>
    cases htu with
    | keep _ h => exact .keep c (ih h)
    | drop hc h => exact .drop hc (ih h)
  | drop hc _ ih => exact .drop hc (ih htu)

/-- There are as many line breaks as before. -/
theorem Thins.count_eq (h : Thins t s) : t.count '\n' = s.count '\n' := by
  induction h with
  | nil => rfl
  | keep c _ ih => rw [List.count_cons, List.count_cons, ih]
  | drop hc _ ih => rw [ih, List.count_cons_of_ne hc]

/-- **Line by line.**  Every line is made of characters of the same line, in their order. -/
theorem Thins.forall₂_lines (h : Thins t s) : List.Forall₂ List.Sublist (lines t) (lines s) := by
  induction h with
  | nil => exact .cons (.refl []) .nil
  | @keep c t s _ ih =>
    -- a line break starts a line in both texts; anything else stays on the line it is on
    by_cases hc : c = '\n'
    · subst hc
      exact .cons (.refl []) ih
    · rw [lines_cons hc, lines_cons hc]
      generalize lines t = ts, lines s = ss at ih
      cases ih with
      | nil => exact .nil
      | cons hl hls => exact .cons (hl.cons_cons c) hls
  | @drop c t s hc _ ih =>
    rw [lines_cons hc]
    generalize lines t = ts, lines s = ss at ih
    cases ih with
    | nil => exact .nil
    | cons hl hls => exact .cons (hl.cons c) hls

/-! ### The two passes -/

/-- **Comments.**  Wherever a text is entered, all that goes is no line break. -/
theorem thins_stripFrom (region : Region) (s : List Char) : Thins (stripFrom region s) s := by
  fun_induction stripFrom region s with
  | case1 => exact .nil
  | case2 r ih => exact .keep _ ih
  | case3 r ih => exact .drop (by decide) (.drop (by decide) ih)
  | case4 r ih => exact .drop (by decide) (.drop (by decide) ih)
  | case5 c r _ _ _ ih => exact .keep _ ih
  | case6 c r ih => exact .keep _ (.keep _ ih)
  | case7 r ih => exact .keep _ ih
  | case8 c r _ _ ih => exact .keep _ ih
  | case9 r ih => exact .keep _ ih
  | case10 c r hc ih => exact .drop hc ih
  | case11 r ih => exact .drop (by decide) (.drop (by decide) ih)
  | case12 r ih => exact .keep _ ih
  | case13 c r _ hc ih => exact .drop hc ih

/-- **Commas.**  Only commas go. -/
theorem thins_dropCommasFrom (inString : Bool) (s : List Char) :
    Thins (dropCommasFrom inString s) s := by
  fun_induction dropCommasFrom inString s with
  | case1 => exact .nil
  | case2 c r ih => exact .keep _ (.keep _ ih)
  | case3 r ih => exact .keep _ ih
  | case4 c r _ _ ih => exact .keep _ ih
  | case5 r ih => exact .keep _ ih
  | case6 r _ ih => exact .drop (by decide) ih
  | case7 r _ ih => exact .keep _ ih
  | case8 c r _ _ ih => exact .keep _ ih

/-- Line by line, `stripComments s` is what is left of `s`. -/
theorem thins_stripComments (s : List Char) : Thins (stripComments s) s := thins_stripFrom .code s

/-- Line by line, `dropTrailingCommas s` is what is left of `s`. -/
theorem thins_dropTrailingCommas (s : List Char) : Thins (dropTrailingCommas s) s :=
  thins_dropCommasFrom false s

/-- So is `strict s`, which is one behind the other. -/
theorem thins_strict (s : List Char) : Thins (strict s) s :=
  (thins_dropTrailingCommas _).trans (thins_stripComments s)

end DeclarationDocs.Json
