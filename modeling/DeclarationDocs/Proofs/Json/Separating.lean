import DeclarationDocs.Proofs.Json.Clearing

namespace DeclarationDocs.Json

open Relaxed (stripFrom stripComments)

/-!
# What comments separate

Elsewhere a comment separates what stands on its two sides, as white space does.  Here nothing is
put in its place but its line breaks, so a word may run on over a comment.  This file compares a
text with the one that has white space for its comments.

* `separated s` — the text with white space in place of its comments;
* `Glues` — a word runs on over a comment;
* `strip_separated` — the text with white space has no comments;
* `compared` — where no word runs on, both texts have the same lexemes, and where one does, two
  words meet;
* `parse_separated_iff` — `separated s` is read as `s` is, if `¬ Glues (pieces s)`, and else not at
  all.
-/

/-- A piece with white space for comments. -/
def Piece.spaced : Piece → List Char
  | comment t => ' ' :: lineBreaks t
  | p => p.text

/-- The text with a blank and the line breaks in place of each comment. -/
def separated (s : List Char) : List Char := (pieces s).flatMap Piece.spaced

/-- Somewhere a word runs on over a comment when comments are taken out. -/
def Glues (ps : List Piece) : Prop :=
  ∃ c t rs, .code c :: .comment t :: rs <:+ ps ∧ isWordChar c = true ∧
    ¬ Boundary ((.comment t :: rs).flatMap Piece.kept)

/-- Two lexemes that are not both words. -/
def Unmet (a b : List Char) : Prop := ¬ (IsWord a ∧ IsWord b)

variable {c : Char} {s r t l : List Char} {ls ms : List (List Char)} {p : Piece}
  {ps : List Piece} {v : Json}

/-! ### The text with white space -/

theorem separated_nil : separated [] = [] := by
  simp [separated, pieces]

/-- What is put in the place of a comment is blank. -/
theorem blank_spaced (t : List Char) : Blank (Piece.spaced (.comment t)) :=
  List.forall_mem_cons.mpr ⟨by decide, blank_lineBreaks t⟩

theorem Piece.spaced_eq (h : p.isComment = false) : p.spaced = p.text := by
  cases p with
  | comment t => cases h
  | _ => rfl

/-- If no comment comes first, both texts begin as the text does. -/
theorem comment_or_head? (s : List Char) : (∃ t ps, pieces s = .comment t :: ps) ∨
    ((separated s).head? = s.head? ∧ (stripComments s).head? = s.head?) := by
  rw [stripComments_eq, separated]
  rcases head_flatMap (fun p hp => Piece.spaced_eq hp) s with ⟨t, ps, h, -⟩ | hspaced
  · exact .inl ⟨t, ps, h⟩
  rcases head_flatMap (fun p hp => Piece.kept_eq hp) s with ⟨t, ps, h, -⟩ | hkept
  · exact .inl ⟨t, ps, h⟩
  · exact .inr ⟨hspaced, hkept⟩

/-- A literal is one lexeme in front of every text that it does not run into. -/
theorem lexemes_literal (h : (literal r).2 = [] → s = []) :
    lexemes ('"' :: (literal r).1 ++ s) = ('"' :: (literal r).1) :: lexemes s := by
  rw [List.cons_append, lexemes_cons_quote, literal_first_append h]

/-- There are no comments left to take out. -/
theorem strip_separated (s : List Char) : stripComments (separated s) = separated s := by
  have hcommentless : Commentless (separated s) :=
    commentless_flatMap blank_spaced (fun p hp => Piece.spaced_eq hp) s
  exact hcommentless.strip

/-- Both texts piece by piece. -/
theorem texts_of_pieces (h : pieces s = p :: pieces r) :
    separated s = p.spaced ++ separated r ∧ stripComments s = p.kept ++ stripComments r := by
  rw [stripComments_eq, stripComments_eq, separated, h]
  exact ⟨rfl, rfl⟩

/-! ### Words that run on -/

theorem boundary_congr (h : s.head? = r.head?) : Boundary s ↔ Boundary r := by
  cases s with
  | nil =>
    obtain rfl : r = [] := by simpa using h.symm
    rfl
  | cons x s =>
    obtain ⟨u, rfl⟩ := List.head?_eq_some_iff.mp h.symm
    rfl

/-- White space ends a word where the text without comments does, and where a comment begins. -/
theorem boundary_separated_iff (s : List Char) : Boundary (separated s) ↔
    Boundary (stripComments s) ∨ ∃ t ps, pieces s = .comment t :: ps := by
  have hcomment : (∃ t ps, pieces s = .comment t :: ps) → Boundary (separated s) := by
    rintro ⟨t, ps, hps⟩
    rw [separated, hps]
    show isWordChar ' ' = false
    decide
  rcases comment_or_head? s with h | ⟨hspaced, hkept⟩
  · exact ⟨fun _ => .inr h, fun _ => hcomment h⟩
  · rw [boundary_congr (hspaced.trans hkept.symm)]
    refine ⟨.inl, Or.rec id fun h => ?_⟩
    rw [← boundary_congr (hspaced.trans hkept.symm)]
    exact hcomment h

/-- A word runs on at the first piece or further on. -/
theorem glues_cons_iff : Glues (p :: ps) ↔ (∃ c t rs, p = .code c ∧ ps = .comment t :: rs ∧
    isWordChar c = true ∧ ¬ Boundary (ps.flatMap Piece.kept)) ∨ Glues ps := by
  constructor
  · rintro ⟨c, t, rs, hsuffix, hc, hrs⟩
    rcases List.suffix_cons_iff.mp hsuffix with heq | hsuffix
    · obtain ⟨rfl, rfl⟩ : .code c = p ∧ .comment t :: rs = ps := by simpa using heq
      exact .inl ⟨c, t, rs, rfl, rfl, hc, hrs⟩
    · exact .inr ⟨c, t, rs, hsuffix, hc, hrs⟩
  · rintro (⟨c, t, rs, rfl, rfl, hc, hrs⟩ | ⟨c, t, rs, hsuffix, hc, hrs⟩)
    · exact ⟨c, t, rs, List.suffix_rfl, hc, hrs⟩
    · exact ⟨c, t, rs, hsuffix.trans (List.suffix_cons _ _), hc, hrs⟩

/-- Behind a character of a word, the word runs on if only white space would end it. -/
theorem glues_code_iff (hc : isWordChar c = true) : Glues (.code c :: pieces r) ↔
    (Boundary (separated r) ∧ ¬ Boundary (stripComments r)) ∨ Glues (pieces r) := by
  rw [glues_cons_iff, boundary_separated_iff, stripComments_eq]
  constructor
  · rintro (⟨_, t, rs, -, hrs, -, hb⟩ | h)
    · exact .inl ⟨.inr ⟨t, rs, hrs⟩, hb⟩
    · exact .inr h
  · rintro (⟨hb | ⟨t, rs, hrs⟩, hb'⟩ | h)
    · exact absurd hb hb'
    · exact .inl ⟨c, t, rs, rfl, hrs, hc, hb'⟩
    · exact .inr h

/-- A character in front of a word becomes a part of it. -/
theorem exists_lexemes_cons (hc : isWordChar c = true) (hr : ¬ Boundary r) :
    ∃ l ls, lexemes r = l :: ls ∧ lexemes (c :: r) = (c :: l) :: ls := by
  cases r with
  | nil => exact absurd trivial hr
  | cons x u =>
    have hx : isWordChar x = true := by simpa [Boundary] using hr
    obtain ⟨w, t, hsplit, hne, hall, ht, -⟩ := exists_word hx u
    have hlong : Token (c :: w) := .word (List.cons_ne_nil c w) (List.forall_mem_cons.mpr ⟨hc, hall⟩)
    refine ⟨w, lexemes t, ?_, ?_⟩
    · rw [hsplit, lexemes_append (.word hne hall) fun _ => ht]
    · rw [hsplit, ← List.cons_append, lexemes_append hlong fun _ => ht]

/-- A character in front of anything else is a word of its own. -/
theorem lexemes_cons_of_boundary (hc : isWordChar c = true) (hr : Boundary r) :
    lexemes (c :: r) = [c] :: lexemes r := by
  have hword : Token [c] := .word (List.cons_ne_nil c []) (List.forall_mem_singleton.mpr hc)
  exact lexemes_append hword fun _ => hr

/-! ### The lexemes of both texts -/

/-- White space for comments changes the lexemes only where a word would run on, and two words meet
    then. -/
structure Compared (s : List Char) : Prop where
  same : ¬ Glues (pieces s) → lexemes (separated s) = lexemes (stripComments s)
  meets : Glues (pieces s) → ¬ (lexemes (separated s)).IsChain Unmet

/-- A piece with which no word can run on. -/
theorem Compared.cons (h : Compared r) (pre : List (List Char)) (hpieces : pieces s = p :: pieces r)
    (hp : ∀ c, p = .code c → isWordChar c = false)
    (hspaced : lexemes (p.spaced ++ separated r) = pre ++ lexemes (separated r))
    (hkept : lexemes (p.kept ++ stripComments r) = pre ++ lexemes (stripComments r)) :
    Compared s := by
  obtain ⟨hs, hk⟩ := texts_of_pieces hpieces
  have hglues : Glues (pieces s) ↔ Glues (pieces r) := by
    rw [hpieces, glues_cons_iff]
    refine ⟨Or.rec ?_ id, .inr⟩
    rintro ⟨c, _, _, rfl, -, hc, -⟩
    rw [hp c rfl] at hc
    cases hc
  constructor
  · rw [hs, hk, hglues, hspaced, hkept]
    intro hnot
    rw [h.same hnot]
  · rw [hs, hglues, hspaced]
    exact fun hyes hchain => h.meets hyes hchain.right_of_append

/-- A character of a word. -/
theorem Compared.word (h : Compared r) (hpieces : pieces (c :: r) = .code c :: pieces r)
    (hc : isWordChar c = true) : Compared (c :: r) := by
  obtain ⟨hs, hk⟩ : separated (c :: r) = c :: separated r ∧
    stripComments (c :: r) = c :: stripComments r := texts_of_pieces hpieces
  have hglues := glues_code_iff (r := r) hc
  rw [← hpieces] at hglues
  by_cases hspaced : Boundary (separated r)
  · have hlexemes := lexemes_cons_of_boundary hc hspaced
    constructor
    · intro hnot
      rw [hglues, not_or, not_and, not_not] at hnot
      rw [hs, hk, hlexemes, h.same hnot.2, lexemes_cons_of_boundary hc (hnot.1 hspaced)]
    · intro hyes hchain
      rw [hs, hlexemes, List.isChain_cons] at hchain
      have hnot : ¬ Glues (pieces r) := fun hyes => h.meets hyes hchain.2
      obtain ⟨-, hkept⟩ : _ ∧ ¬ Boundary (stripComments r) := (hglues.mp hyes).resolve_right hnot
      -- the word that would run on is the next lexeme
      refine hkept (boundary_of_lexemes fun l hl hword => hchain.1 l ?_ ⟨⟨c, rfl, hc⟩, hword⟩)
      rwa [h.same hnot]
  · have hkept : ¬ Boundary (stripComments r) := fun hkept =>
      hspaced ((boundary_separated_iff r).mpr (.inl hkept))
    obtain ⟨l, ls, hl, hlexemes⟩ := exists_lexemes_cons hc hspaced
    constructor
    · intro hnot
      obtain ⟨m, ms, hm, hlexemes'⟩ := exists_lexemes_cons hc hkept
      have hsame := h.same fun hyes => hnot (hglues.mpr (.inr hyes))
      rw [hl, hm] at hsame
      obtain ⟨rfl, rfl⟩ : l = m ∧ ls = ms := by simpa using hsame
      rw [hs, hk, hlexemes, hlexemes']
    · intro hyes hchain
      have hyes : Glues (pieces r) := (hglues.mp hyes).resolve_left fun hhere => hspaced hhere.1
      rw [hs, hlexemes, List.isChain_cons] at hchain
      apply h.meets hyes
      rw [hl, List.isChain_cons]
      refine ⟨fun m hm hwords => hchain.1 m hm ⟨⟨c, rfl, hc⟩, hwords.2⟩, hchain.2⟩

/-- A comment: blank in both texts. -/
theorem Compared.comment (h : Compared r) (hpieces : pieces s = .comment t :: pieces r) :
    Compared s := by
  refine h.cons [] hpieces (fun c hc => by cases hc) ?_ ?_
  · exact lexemes_append_blank (blank_spaced t) _
  · exact lexemes_append_blank (blank_lineBreaks t) _

/-- **Where no word runs on, both texts have the same lexemes; where one does, two words meet.**  By
    induction on the pieces. -/
theorem compared (s : List Char) : Compared s := by
  fun_induction pieces s with
  | case1 =>
    have hpieces : pieces [] = [] := by simp [pieces]
    constructor
    · intro _
      rw [separated_nil]
      rfl
    · rw [hpieces]
      rintro ⟨c, t, rs, hsuffix, -, -⟩
      exact absurd (List.suffix_nil.mp hsuffix) (List.cons_ne_nil _ _)
  | case2 r ih =>
    -- a literal that is never closed takes all the rest, so nothing stands behind it in either text
    have hspaced : (literal r).2 = [] → separated (literal r).2 = [] := by
      intro hr
      rw [hr, separated_nil]
    have hkept : (literal r).2 = [] → stripComments (literal r).2 = [] := by
      intro hr
      rw [hr]
      rfl
    exact ih.cons [_] (pieces_quote r) (fun c hc => by cases hc) (lexemes_literal hspaced)
      (lexemes_literal hkept)
  | case3 r ih =>
    refine ih.comment (t := '/' :: '/' :: r.takeWhile inLine) ?_
    rw [pieces]
  | case4 r ih =>
    refine ih.comment (t := '/' :: '*' :: (blockComment r).1) ?_
    rw [pieces]
  | case5 c r hq hline hblock ih =>
    have hpieces : pieces (c :: r) = .code c :: pieces r :=
      pieces_of_char hq (inert_iff.mpr ⟨hline, hblock⟩)
    -- only words can run into each other; blanks and marks are lexemes of their own, or none
    by_cases hc : isWordChar c = true
    · exact ih.word hpieces hc
    have hc : isWordChar c = false := by simpa using hc
    have hcode : ∀ d, Piece.code c = .code d → isWordChar d = false := by
      rintro d ⟨⟩
      exact hc
    by_cases hb : isBlank c = true
    · have hone : Blank [c] := List.forall_mem_singleton.mpr hb
      exact ih.cons [] hpieces hcode (lexemes_append_blank hone _)
        (lexemes_append_blank hone _)
    · have hb : isBlank c = false := by simpa using hb
      exact ih.cons [[c]] hpieces hcode (lexemes_cons_single hb hq hc _)
        (lexemes_cons_single hb hq hc _)

/-! ### What is read of both texts -/

/-- A lexeme in front that gets in nobody's way. -/
theorem Forgives.isChain_cons (h : Forgives ls ms) (hchain : (l :: ls).IsChain Apart)
    (hms : ms.IsChain Unmet) : (l :: ms).IsChain Unmet := by
  have hnext := h.apart_head? (List.isChain_cons.mp hchain).1
  exact List.isChain_cons.mpr ⟨fun m hm => (hnext m hm).1, hms⟩

/-- Commas that are forgiven do not bring words together. -/
theorem Forgives.isChain (h : Forgives ls ms) (hchain : ls.IsChain Apart) : ms.IsChain Unmet := by
  induction h with
  | nil => exact .nil
  | keep h ih => exact h.isChain_cons hchain (ih hchain.tail)
  | comma hm h ih =>
    have hcomma : ¬ IsWord [','] := not_isWord_mark (by decide)
    exact List.isChain_cons_cons.mpr
      ⟨fun h => hcomma h.1, h.isChain_cons hchain (ih hchain.tail)⟩

/-- **A comment separates what stands on its two sides, unless a word runs on over it**
    (`Glues (pieces s)`): then `s` may have a value, but `separated s`, which has white space for
    the comments, has none. -/
theorem parse_separated_iff (s : List Char) (v : Json) :
    Relaxed.parse (separated s) = .ok v ↔ Relaxed.parse s = .ok v ∧ ¬ Glues (pieces s) := by
  have hspaced : Relaxed.parse (separated s) = .ok v ↔
      ∃ t, parse t = .ok v ∧ Forgives (lexemes t) (lexemes (separated s)) := by
    rw [Relaxed.parse, Relaxed.strict, strip_separated, parse_drop_iff]
  have hkept : Relaxed.parse s = .ok v ↔
      ∃ t, parse t = .ok v ∧ Forgives (lexemes t) (lexemes (stripComments s)) := by
    rw [Relaxed.parse, Relaxed.strict, parse_drop_iff]
  rw [hspaced, hkept]
  constructor
  · rintro ⟨t, ht, hforgives⟩
    have hchain := hforgives.isChain (parse_eq_ok_iff.mp ht).isChain
    have hnot : ¬ Glues (pieces s) := fun hyes => (compared s).meets hyes hchain
    rw [(compared s).same hnot] at hforgives
    exact ⟨⟨t, ht, hforgives⟩, hnot⟩
  · rintro ⟨⟨t, ht, hforgives⟩, hnot⟩
    rw [← (compared s).same hnot] at hforgives
    exact ⟨t, ht, hforgives⟩

/-- **A word may run on over a comment**: two numbers are read as one. -/
theorem parse_glued :
    Relaxed.parse "1/**/2".toList = .ok (.number (.int 12)) ∧
      separated "1/**/2".toList = "1 2".toList ∧
      ∀ v, Relaxed.parse (separated "1/**/2".toList) ≠ .ok v := by
  have hseparated : separated "1/**/2".toList = "1 2".toList := by decide +kernel
  refine ⟨rfl, hseparated, fun v h => ?_⟩
  rw [hseparated] at h
  cases h

end DeclarationDocs.Json
