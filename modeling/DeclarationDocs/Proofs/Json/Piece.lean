import DeclarationDocs.Proofs.Json.Decorating

namespace DeclarationDocs.Json

open Relaxed (stripFrom stripComments)

/-!
# The pieces of a relaxed text

Which characters of a text belong to literals and which to comments is settled from its start on,
whether the text is correct or not.  This file cuts a text into its pieces, so that making a text
strict can be compared with what is said of its comments.

* `Piece`, `pieces` — the literals and comments of a text, and all other characters one by one;
* `flatMap_text_pieces` — the pieces are the whole text;
* `stripComments_eq` — a text without its comments has all other pieces, and the line breaks;
* `Commentless` — a text that has no comments.
-/

/-- A piece of a relaxed text. -/
inductive Piece where
  /-- A character outside literals and comments. -/
  | code (c : Char)
  /-- A literal, up to and with its closing quote, or to the end of the text. -/
  | literal (t : List Char)
  /-- A comment: up to the line break, which is no part of it, or up to and with its closing mark,
      or to the end of the text. -/
  | comment (t : List Char)
deriving DecidableEq, Repr

/-- A piece as it is written. -/
def Piece.text : Piece → List Char
  | code c => [c]
  | literal t => t
  | comment t => t

/-- The line breaks of a text. -/
def lineBreaks (t : List Char) : List Char := t.filter (· == '\n')

/-- What is left of a piece when comments are taken out. -/
def Piece.kept : Piece → List Char
  | comment t => lineBreaks t
  | p => p.text

/-- Cut a text behind the star and slash that close the block comment it stands in. -/
def blockComment : List Char → List Char × List Char
  | [] => ([], [])
  | '*' :: '/' :: r => (['*', '/'], r)
  | c :: r => (c :: (blockComment r).1, (blockComment r).2)

/-- Whether a line goes on. -/
def inLine (c : Char) : Bool := c != '\n'

/-- The character opens no comment with what stands behind it. -/
def Inert (c : Char) (r : List Char) : Prop := c = '/' → ∀ x ∈ r.head?, x ≠ '/' ∧ x ≠ '*'

variable {s r : List Char} {c : Char}

/-- Line breaks are blank. -/
theorem blank_lineBreaks (t : List Char) : Blank (lineBreaks t) := by
  intro c hc
  obtain rfl : c = '\n' := by simpa using (List.mem_filter.mp hc).2
  decide

/-- A block comment and what follows it are the text. -/
theorem blockComment_append (s : List Char) : (blockComment s).1 ++ (blockComment s).2 = s := by
  fun_induction blockComment s with simp_all

/-- Behind a literal no more is left than there was. -/
theorem length_literal_le (s : List Char) : (literal s).2.length ≤ s.length := by
  conv_rhs => rw [← literal_append s, List.length_append]
  omega

/-- Behind a block comment no more is left than there was. -/
theorem length_blockComment_le (s : List Char) : (blockComment s).2.length ≤ s.length := by
  conv_rhs => rw [← blockComment_append s, List.length_append]
  omega

/-- The pieces of a text. -/
def pieces : List Char → List Piece
  | [] => []
  | '"' :: r => .literal ('"' :: (literal r).1) :: pieces (literal r).2
  | '/' :: '/' :: r => .comment ('/' :: '/' :: r.takeWhile inLine) :: pieces (r.dropWhile inLine)
  | '/' :: '*' :: r => .comment ('/' :: '*' :: (blockComment r).1) :: pieces (blockComment r).2
  | c :: r => .code c :: pieces r
termination_by s => s.length
decreasing_by
  · have := length_literal_le r
    simp only [List.length_cons]
    omega
  · have := (List.dropWhile_suffix inLine (l := r)).length_le
    simp only [List.length_cons]
    omega
  · have := length_blockComment_le r
    simp only [List.length_cons]
    omega
  · simp

/-- A quote begins a literal. -/
theorem pieces_quote (r : List Char) :
    pieces ('"' :: r) = .literal ('"' :: (literal r).1) :: pieces (literal r).2 := by
  rw [pieces]

/-- Only a slash may open a comment. -/
theorem inert_of_ne (hc : c ≠ '/') (r : List Char) : Inert c r := fun h => absurd h hc

/-- A slash opens a comment with a slash or star behind it. -/
theorem inert_iff : Inert c r ↔
    (∀ u, c = '/' → r = '/' :: u → False) ∧ ∀ u, c = '/' → r = '*' :: u → False := by
  constructor
  · intro h
    constructor
    · rintro u hc rfl
      exact (h hc '/' rfl).1 rfl
    · rintro u hc rfl
      exact (h hc '*' rfl).2 rfl
  · rintro ⟨hline, hblock⟩ hc x hx
    obtain ⟨u, rfl⟩ := List.head?_eq_some_iff.mp hx
    constructor
    · rintro rfl
      exact hline u hc rfl
    · rintro rfl
      exact hblock u hc rfl

/-- A character outside literals that opens no comment is a piece of its own. -/
theorem pieces_of_char (hq : c ≠ '"') (hc : Inert c r) :
    pieces (c :: r) = .code c :: pieces r := by
  obtain ⟨hline, hblock⟩ := inert_iff.mp hc
  rw [pieces]
  · exact hq
  · exact hline
  · exact hblock

/-- **The pieces are the whole text.** -/
theorem flatMap_text_pieces (s : List Char) : (pieces s).flatMap Piece.text = s := by
  fun_induction pieces s with
  | case1 => rfl
  | case2 r ih => rw [List.flatMap_cons, ih]; simp [Piece.text, literal_append]
  | case3 r ih => rw [List.flatMap_cons, ih]; simp [Piece.text]
  | case4 r ih => rw [List.flatMap_cons, ih]; simp [Piece.text, blockComment_append]
  | case5 c r _ _ _ ih => rw [List.flatMap_cons, ih]; rfl

/-! ### Taking comments out, piece by piece -/

/-- A line comment goes up to its line break. -/
theorem stripFrom_line (s : List Char) :
    stripFrom .lineComment s = stripFrom .code (s.dropWhile inLine) := by
  have hline : '\n' ∉ s.takeWhile inLine := fun h => absurd (List.mem_takeWhile_imp h) (by decide)
  have hsplit : s.takeWhile inLine ++ s.dropWhile inLine = s := List.takeWhile_append_dropWhile
  rw [← hsplit, stripFrom_lineComment hline, hsplit]
  cases hrest : s.dropWhile inLine with
  | nil => rfl
  | cons c r =>
    have hstop := List.head?_dropWhile_not inLine s
    obtain rfl : c = '\n' := by simpa [hrest, inLine] using hstop
    rfl

/-- Of a block comment the line breaks are left. -/
theorem stripFrom_block (s : List Char) : stripFrom .blockComment s =
    lineBreaks (blockComment s).1 ++ stripFrom .code (blockComment s).2 := by
  fun_induction blockComment s with
  | case1 => rfl
  | case2 r => rfl
  | case3 c r hclose ih =>
    by_cases hn : c = '\n'
    · subst hn
      show '\n' :: stripFrom .blockComment r = '\n' :: (lineBreaks (blockComment r).1 ++ _)
      rw [ih]
    · have hbreak : lineBreaks (c :: (blockComment r).1) = lineBreaks (blockComment r).1 :=
        List.filter_cons_of_neg (by simpa using hn)
      rw [hbreak, ← ih, stripFrom]
      · exact fun r' hc hr => hclose r' hc hr
      · exact hn

/-- **Taking comments out** leaves all other pieces as they are. -/
theorem stripComments_eq (s : List Char) : stripComments s = (pieces s).flatMap Piece.kept := by
  unfold stripComments
  fun_induction pieces s with
  | case1 => rfl
  | case2 r ih =>
    show '"' :: stripFrom .string r = _
    rw [stripFrom_string, ih]
    rfl
  | case3 r ih =>
    show stripFrom .lineComment r = _
    -- a comment up to the end of the line ends before the line break, which is kept as code
    have hnone : lineBreaks (r.takeWhile inLine) = [] := by
      refine List.filter_eq_nil_iff.mpr fun c hc => ?_
      simpa [inLine] using List.mem_takeWhile_imp hc
    rw [stripFrom_line, ih, List.flatMap_cons]
    show _ = lineBreaks (r.takeWhile inLine) ++ _
    rw [hnone, List.nil_append]
  | case4 r ih =>
    show stripFrom .blockComment r = _
    rw [stripFrom_block, ih]
    rfl
  | case5 c r hq hline hblock ih =>
    rw [stripFrom, ih]
    · rfl
    · exact hq
    · exact fun r' hc hr => hline r' hc hr
    · exact fun r' hc hr => hblock r' hc hr

/-! ### Texts without comments -/

/-- Whether a piece is a comment. -/
def Piece.isComment : Piece → Bool
  | comment _ => true
  | _ => false

/-- Of a piece that is no comment all is kept. -/
theorem Piece.kept_eq {p : Piece} (h : p.isComment = false) : p.kept = p.text := by
  cases p with
  | comment t => cases h
  | _ => rfl

/-- A text that has no comments. -/
def Commentless (s : List Char) : Prop := ∀ p ∈ pieces s, p.isComment = false

instance (s : List Char) : Decidable (Commentless s) :=
  inferInstanceAs (Decidable (∀ p ∈ pieces s, p.isComment = false))

/-- A text without comments is left as it is. -/
theorem Commentless.strip (h : Commentless s) : stripComments s = s := by
  conv_rhs => rw [← flatMap_text_pieces s]
  rw [stripComments_eq]
  exact List.flatMap_congr fun p hp => Piece.kept_eq (h p hp)

end DeclarationDocs.Json
