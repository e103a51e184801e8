import DeclarationDocs.Proofs.Json.Piece

namespace DeclarationDocs.Json

open Relaxed (stripComments)

/-!
# Pieces that are read as they are written

A text can be put together from any pieces, but where two of them meet, their characters may be
read as a comment or a literal that neither of them is.  This file says, without reading a text, of
which lists of pieces it is the pieces that are read again.

* `Unclosed b` — the rest of a literal that goes on to the end of the text;
* `Verbatim ps` — every piece is complete, the last one possibly left open, and no two of them are
  read otherwise;
* `verbatim_iff` — such a list is what its own text is cut into, and every text is cut into one;
* `strip_verbatim` — `stripComments (ps.flatMap Piece.text) = ps.flatMap Piece.kept` for such a
  list.
-/

/-- The rest of a literal behind its opening quote, if the text ends before the literal does.  A
    backslash at the end escapes nothing. -/
inductive Unclosed : List Char → Prop
  | nil : Unclosed []
  | backslash : Unclosed ['\\']
  | escape (c : Char) {b : List Char} (h : Unclosed b) : Unclosed ('\\' :: c :: b)
  | char {c : Char} {b : List Char} (hq : c ≠ '"') (hs : c ≠ '\\') (h : Unclosed b) :
      Unclosed (c :: b)

/-- The pieces are read as they are written: a slash is not followed by what would make it open a
    comment, a line comment is followed by a line break or the end, and only the last piece may be a
    literal or a block comment that is not closed. -/
inductive Verbatim : List Piece → Prop
  | nil : Verbatim []
  | code {c : Char} {ps : List Piece} (hq : c ≠ '"')
      (hc : Inert c (ps.flatMap Piece.text)) (h : Verbatim ps) : Verbatim (.code c :: ps)
  | literal {b : List Char} {ps : List Piece} (hb : Body b) (h : Verbatim ps) :
      Verbatim (.literal ('"' :: b) :: ps)
  | line {b : List Char} {ps : List Piece} (hb : '\n' ∉ b)
      (hend : ∀ x ∈ (ps.flatMap Piece.text).head?, x = '\n') (h : Verbatim ps) :
      Verbatim (.comment ('/' :: '/' :: b) :: ps)
  | block {b : List Char} {ps : List Piece} (hb : ¬ ['*', '/'] <:+: b) (h : Verbatim ps) :
      Verbatim (.comment ('/' :: '*' :: (b ++ ['*', '/'])) :: ps)
  | openLiteral {b : List Char} (hb : Unclosed b) : Verbatim [.literal ('"' :: b)]
  | openBlock {b : List Char} (hb : ¬ ['*', '/'] <:+: b) :
      Verbatim [.comment ('/' :: '*' :: b)]

variable {s b : List Char} {ps : List Piece}

/-! ### Where literals end -/

theorem literal_of_unclosed (h : Unclosed b) : literal b = (b, []) := by
  induction h with
  | nil => rfl
  | backslash => rfl
  | escape c _ ih => rw [literal, ih]
  | @char c b hq hs _ ih =>
    rw [literal, ih]
    · exact hq
    · exact fun _ _ hc _ => hs hc

/-- A literal is closed, or goes on to the end of the text. -/
theorem body_or_unclosed (s : List Char) :
    Body (literal s).1 ∨ Unclosed (literal s).1 ∧ (literal s).2 = [] := by
  fun_induction literal s with
  | case1 => exact .inr ⟨.nil, rfl⟩
  | case2 r => exact .inl .quote
  | case3 c r ih => exact ih.imp (.escape c) fun h => ⟨.escape c h.1, h.2⟩
  | case4 c r hq hs ih =>
    by_cases hc : c = '\\'
    · -- a backslash that escapes nothing is the last character
      subst hc
      obtain rfl : r = [] := by
        cases r with
        | nil => rfl
        | cons x r => exact absurd rfl (hs x r rfl)
      exact .inr ⟨.backslash, rfl⟩
    · exact ih.imp (.char hq hc) fun h => ⟨.char hq hc h.1, h.2⟩

/-! ### Where comments end -/

/-- A line comment ends in front of the first line break. -/
theorem cut_line (hb : '\n' ∉ b) (hs : ∀ x ∈ s.head?, x = '\n') :
    (b ++ s).takeWhile inLine = b ∧ (b ++ s).dropWhile inLine = s := by
  have hline : ∀ c ∈ b, inLine c = true := by
    intro c hc
    simpa [inLine] using ne_of_mem_of_not_mem hc hb
  rw [List.takeWhile_append_of_pos hline, List.dropWhile_append_of_pos hline]
  cases s with
  | nil => simp
  | cons x s =>
    obtain rfl : x = '\n' := hs x rfl
    simp [inLine]

/-- A block comment does not end before its closing mark, even if its text ends with a star. -/
theorem blockComment_closed (hb : ¬ ['*', '/'] <:+: b) (r : List Char) :
    blockComment (b ++ '*' :: '/' :: r) = (b ++ ['*', '/'], r) := by
  induction b with
  | nil => rfl
  | cons c b ih =>
    have ih := ih fun h => hb (h.trans (List.suffix_cons c b).isInfix)
    rw [List.cons_append, blockComment, ih]
    · rfl
    · rintro u rfl hu
      cases b with
      | nil => simp at hu
      | cons d b =>
        obtain ⟨rfl, -⟩ : d = '/' ∧ _ := by simpa using hu
        exact hb ⟨[], b, rfl⟩

theorem blockComment_open (hb : ¬ ['*', '/'] <:+: b) : blockComment b = (b, []) := by
  induction b with
  | nil => rfl
  | cons c b ih =>
    have ih := ih fun h => hb (h.trans (List.suffix_cons c b).isInfix)
    rw [blockComment, ih]
    rintro u rfl rfl
    exact hb ⟨[], u, rfl⟩

/-- A block comment is closed, or goes on to the end of the text. -/
theorem closed_or_open (s : List Char) :
    (∃ b, (blockComment s).1 = b ++ ['*', '/'] ∧ ¬ ['*', '/'] <:+: b) ∨
      ¬ ['*', '/'] <:+: (blockComment s).1 ∧ (blockComment s).2 = [] := by
  fun_induction blockComment s with
  | case1 => exact .inr ⟨by simp, rfl⟩
  | case2 r => exact .inl ⟨[], rfl, by simp⟩
  | case3 c r hclose ih =>
    -- a mark that begins with this character would close the comment here
    have hnot : ∀ {t}, t <+: r → ¬ ['*', '/'] <:+: t → ¬ ['*', '/'] <:+: c :: t := by
      rintro t ⟨u, rfl⟩ ht hinfix
      rcases List.infix_cons_iff.mp hinfix with ⟨v, hv⟩ | hinfix
      · obtain ⟨rfl, rfl⟩ : '*' = c ∧ '/' :: v = t := by simpa using hv
        exact hclose _ rfl rfl
      · exact ht hinfix
    have hprefix : (blockComment r).1 <+: r := ⟨_, blockComment_append r⟩
    rcases ih with ⟨b, hr, hb⟩ | ⟨hr, hrest⟩
    · have hb' : b <+: r := (List.prefix_append b _).trans (hr ▸ hprefix)
      exact .inl ⟨c :: b, by rw [hr]; rfl, hnot hb' hb⟩
    · exact .inr ⟨hnot hprefix hr, hrest⟩

/-! ### Reading pieces again -/

/-- **What is read as written is read again.** -/
theorem Verbatim.pieces_eq (h : Verbatim ps) : pieces (ps.flatMap Piece.text) = ps := by
  induction h with
  | nil => simp [pieces]
  | @code c ps hq hc _ ih =>
    show pieces (c :: ps.flatMap Piece.text) = _
    rw [pieces_of_char hq hc, ih]
  | @literal b ps hb _ ih =>
    show pieces ('"' :: (b ++ ps.flatMap Piece.text)) = _
    rw [pieces_quote, literal_of_body hb, ih]
  | @line b ps hb hend _ ih =>
    show pieces ('/' :: '/' :: (b ++ ps.flatMap Piece.text)) = _
    obtain ⟨htake, hdrop⟩ := cut_line hb hend
    rw [pieces, htake, hdrop, ih]
  | @block b ps hb _ ih =>
    have hassoc : (Piece.comment ('/' :: '*' :: (b ++ ['*', '/'])) :: ps).flatMap Piece.text =
        '/' :: '*' :: (b ++ '*' :: '/' :: ps.flatMap Piece.text) := by
      simp [Piece.text]
    rw [hassoc, pieces, blockComment_closed hb, ih]
  | @openLiteral b hb =>
    show pieces ('"' :: (b ++ [])) = _
    rw [List.append_nil, pieces_quote, literal_of_unclosed hb]
    simp [pieces]
  | @openBlock b hb =>
    show pieces ('/' :: '*' :: (b ++ [])) = _
    rw [List.append_nil, pieces, blockComment_open hb]
    simp [pieces]

/-- The pieces of a text are read as they are written. -/
theorem verbatim_pieces (s : List Char) : Verbatim (pieces s) := by
  fun_induction pieces s with
  | case1 => exact .nil
  | case2 r ih =>
    rcases body_or_unclosed r with hb | ⟨hb, hr⟩
    · exact .literal hb ih
    · rw [hr]
      simpa [pieces] using Verbatim.openLiteral hb
  | case3 r ih =>
    have hline : '\n' ∉ r.takeWhile inLine := fun h => absurd (List.mem_takeWhile_imp h) (by decide)
    refine .line hline (fun x hx => ?_) ih
    -- what stands behind the comment is a line break, for it was read as far as it goes
    rw [flatMap_text_pieces] at hx
    have hstop := List.head?_dropWhile_not inLine r
    rw [Option.mem_def.mp hx] at hstop
    simpa [inLine] using hstop
  | case4 r ih =>
    rcases closed_or_open r with ⟨b, hr, hb⟩ | ⟨hb, hr⟩
    · rw [hr]
      exact .block hb ih
    · rw [hr]
      simpa [pieces] using Verbatim.openBlock hb
  | case5 c r hq hline hblock ih =>
    refine .code hq ?_ ih
    rw [flatMap_text_pieces]
    exact inert_iff.mpr ⟨hline, hblock⟩

/-- **Read as written.**  Such lists are just those that their own text is cut into. -/
theorem verbatim_iff : Verbatim ps ↔ pieces (ps.flatMap Piece.text) = ps :=
  ⟨Verbatim.pieces_eq, fun h => h ▸ verbatim_pieces _⟩

/-! ### Taking comments out -/

/-- A line comment holds no line break. -/
theorem Verbatim.notMem_line (h : Verbatim ps) (hmem : .comment ('/' :: '/' :: b) ∈ ps) :
    '\n' ∉ b := by
  induction h with
  | line hb _ _ ih =>
    rcases List.mem_cons.mp hmem with heq | hmem
    · obtain rfl : b = _ := by simpa using heq
      exact hb
    · exact ih hmem
  | nil => simp at hmem
  | code _ _ _ ih => exact ih (by simpa using hmem)
  | literal _ _ ih => exact ih (by simpa using hmem)
  | block _ _ ih => exact ih (by simpa using hmem)
  | openLiteral _ => simp at hmem
  | openBlock _ => simp at hmem

/-- **Taking comments out of what is read as written.**  If pieces `ps` are read as they are
    written (`Verbatim ps`), `stripComments` leaves what is `Piece.kept` of each: literals and
    other characters as they are, of a block comment its line breaks, and of a line comment
    nothing. -/
theorem strip_verbatim (h : Verbatim ps) :
    stripComments (ps.flatMap Piece.text) = ps.flatMap Piece.kept ∧
      ∀ b, .comment ('/' :: '/' :: b) ∈ ps → Piece.kept (.comment ('/' :: '/' :: b)) = [] := by
  constructor
  · rw [stripComments_eq, h.pieces_eq]
  · intro b hmem
    refine List.filter_eq_nil_iff.mpr fun c hc => ?_
    have hbreak : '\n' ∉ '/' :: '/' :: b := by simpa using h.notMem_line hmem
    simpa using ne_of_mem_of_not_mem hc hbreak

/-- A slash in front of a literal that looks like a comment, comments of both kinds that look like
    literals and like each other, and a literal that the end of the text leaves open. -/
def verbatimSample : List Piece :=
  [.code '/', .literal "\"\\\"//\"".toList, .comment "//\"/*".toList, .code '\n',
    .comment "/*/\n\"**/".toList, .code ',', .literal "\"*/\\".toList]

theorem verbatim_sample : Verbatim verbatimSample := verbatim_iff.mpr (by decide +kernel)

/-- That list is read as written, and of its comments two line breaks are left. -/
theorem strip_verbatim_sample :
    Verbatim verbatimSample ∧
      verbatimSample.flatMap Piece.text = "/\"\\\"//\"//\"/*\n/*/\n\"**/,\"*/\\".toList ∧
      stripComments (verbatimSample.flatMap Piece.text) = "/\"\\\"//\"\n\n,\"*/\\".toList :=
  ⟨verbatim_sample, by decide, (strip_verbatim verbatim_sample).1.trans (by decide)⟩

end DeclarationDocs.Json
