import DeclarationDocs.Proofs.Json.Forgiving

namespace DeclarationDocs.Json

open Relaxed (stripComments dropCommasFrom dropTrailingCommas)

/-!
# Comments that are gone stay gone

When characters are taken out of a text, others come together that stood apart before, and they
might open a comment or a literal.  They never do: what stands behind a slash that is kept stays
behind it, or is white space or a bracket.

* `commentless_cons_iff`, `commentless_quote_iff` — texts without comments, character by character;
* `head_flatMap`, `commentless_flatMap` — a text whose comments are written as blanks, or not at
  all;
* `Commentless.drop` — a text without comments that loses commas;
* `comments_settled` — `stripComments (stripComments s) = stripComments s`, and the same when commas
  have gone in between.
-/

variable {c : Char} {s r : List Char} {write : Piece → List Char}

/-! ### Texts without comments, character by character -/

theorem Commentless.nil : Commentless [] := by
  simp [Commentless, pieces]

/-- A text whose first piece is a comment is not free of them. -/
theorem not_commentless {t : List Char} {ps : List Piece} (h : pieces s = .comment t :: ps) :
    ¬ Commentless s := by
  rw [Commentless, h, List.forall_mem_cons]
  exact fun hs => nomatch hs.1

/-- The characters of a literal open no comment. -/
theorem commentless_quote_iff : Commentless ('"' :: r) ↔ Commentless (literal r).2 := by
  rw [Commentless, pieces_quote, List.forall_mem_cons]
  exact and_iff_right rfl

/-- A character that opens neither a literal nor a comment makes no difference. -/
theorem commentless_cons_iff (hq : c ≠ '"') (hc : Inert c r) :
    Commentless (c :: r) ↔ Commentless r := by
  rw [Commentless, pieces_of_char hq hc, List.forall_mem_cons]
  exact and_iff_right rfl

/-- Blanks in front bring no comment. -/
theorem commentless_append_blank {f : List Char} (hf : Blank f) (h : Commentless r) :
    Commentless (f ++ r) := by
  induction f with
  | nil => exact h
  | cons c f ih =>
    obtain ⟨hc, hf⟩ := List.forall_mem_cons.mp hf
    have hq : c ≠ '"' := ne_of_isBlank hc (by decide)
    have hslash : c ≠ '/' := ne_of_isBlank hc (by decide)
    exact (commentless_cons_iff hq (inert_of_ne hslash _)).mpr (ih hf)

/-! ### Writing something else for comments -/

/-- A text that is written anew piece by piece begins as before, unless it began with a comment. -/
theorem head_flatMap (hother : ∀ p, p.isComment = false → write p = p.text) (s : List Char) :
    (∃ t ps, pieces s = .comment t :: ps ∧ s.head? = some '/') ∨
      ((pieces s).flatMap write).head? = s.head? := by
  fun_cases pieces s with
  | case1 => exact .inr rfl
  | case2 r =>
    rw [List.flatMap_cons, hother _ rfl]
    exact .inr rfl
  | case3 r => exact .inl ⟨_, _, rfl, rfl⟩
  | case4 r => exact .inl ⟨_, _, rfl, rfl⟩
  | case5 x r hq hline hblock =>
    rw [List.flatMap_cons, hother _ rfl]
    exact .inr rfl

/-- **Where comments are written as blanks, there are none.**  By induction on the pieces. -/
theorem commentless_flatMap (hcomment : ∀ t, Blank (write (.comment t)))
    (hother : ∀ p, p.isComment = false → write p = p.text) (s : List Char) :
    Commentless ((pieces s).flatMap write) := by
  fun_induction pieces s with
  | case1 => exact .nil
  | case2 r ih =>
    have hopen : (literal r).2 = [] → (pieces (literal r).2).flatMap write = [] := by
      intro hr
      rw [hr]
      simp [pieces]
    rw [List.flatMap_cons, hother _ rfl]
    show Commentless ('"' :: ((literal r).1 ++ _))
    rwa [commentless_quote_iff, literal_first_append hopen]
  | case3 r ih => exact commentless_append_blank (hcomment _) ih
  | case4 r ih => exact commentless_append_blank (hcomment _) ih
  | case5 c r hq hline hblock ih =>
    rw [List.flatMap_cons, hother _ rfl]
    have hinert : Inert c r := inert_iff.mpr ⟨hline, hblock⟩
    refine (commentless_cons_iff hq fun hc => ?_).mpr ih
    rcases head_flatMap hother r with ⟨t, ps, -, hr⟩ | hr
    · -- a comment behind the slash would begin with a slash, and make it open one itself
      exact absurd rfl (hinert hc '/' hr).1
    · intro x hx
      exact hinert hc x (hr ▸ hx)

/-- Without its comments, a text has none. -/
theorem commentless_strip (s : List Char) : Commentless (stripComments s) := by
  rw [stripComments_eq]
  exact commentless_flatMap blank_lineBreaks (fun p hp => Piece.kept_eq hp) s

/-! ### Dropping commas -/

/-- **Where there are no comments, there are none without the commas.**  By induction on the
    pieces. -/
theorem Commentless.drop (h : Commentless s) : Commentless (dropCommasFrom false s) := by
  fun_induction pieces s with
  | case1 => exact h
  | case2 r ih =>
    rw [dropCommasFrom_quote, commentless_quote_iff, literal_drop]
    exact ih (commentless_quote_iff.mp h)
  | case3 r ih => exact absurd h (not_commentless (by rw [pieces]))
  | case4 r ih => exact absurd h (not_commentless (by rw [pieces]))
  | case5 c r hq hline hblock ih =>
    have hinert : Inert c r := inert_iff.mpr ⟨hline, hblock⟩
    have hr := ih ((commentless_cons_iff hq hinert).mp h)
    by_cases hcomma : c = ','
    · subst hcomma
      rw [dropCommasFrom_comma]
      split
      · exact hr
      · exact (commentless_cons_iff hq (inert_of_ne (by decide) _)).mpr hr
    · rw [dropCommasFrom_of_char hq hcomma]
      refine (commentless_cons_iff hq fun hc x hx => ?_).mpr hr
      -- where a comma goes behind the slash, white space or a bracket comes next
      rcases head_drop hx with hx | hx | hx
      · exact hinert hc x hx
      · exact ⟨ne_of_isWhiteSpace hx (by decide), ne_of_isWhiteSpace hx (by decide)⟩
      · rcases closes_singleton_iff.mp hx with rfl | rfl <;> decide

/-- **Comments that are gone stay gone.**  `stripComments s` is `Commentless`, also when trailing
    commas have gone after the comments, so that `stripComments` does nothing to it again. -/
theorem comments_settled (s : List Char) :
    Commentless (stripComments s) ∧ Commentless (dropTrailingCommas (stripComments s)) ∧
      stripComments (stripComments s) = stripComments s ∧
      stripComments (dropTrailingCommas (stripComments s)) =
        dropTrailingCommas (stripComments s) := by
  have hstrip : Commentless (stripComments s) := commentless_strip s
  have hdrop : Commentless (dropTrailingCommas (stripComments s)) := hstrip.drop
  exact ⟨hstrip, hdrop, hstrip.strip, hdrop.strip⟩

end DeclarationDocs.Json
