import DeclarationDocs.Proofs.Json.Piece

namespace DeclarationDocs.Json

open Relaxed (stripFrom stripComments closesNext dropCommasFrom dropTrailingCommas)

/-!
# What is forgiven

Dropping commas looks no further than the next character that is no white space.  Compared by their
lexemes, the texts that become correct by it are those that are correct but for commas in front of
closing brackets, one for each bracket at most.  Most of these commas stand behind a last element;
but one that stands alone between two brackets goes as well.

* `Spaced.strip_eq`, `Spaced.drop_eq` — in a correct text there is nothing to take out;
* `forgiven`, `parse_drop_iff` — the texts that become correct;
* `LoneComma`, `loosens_iff` — which of these commas stand behind last elements;
* `parse_commentless` — if `Commentless s`, then `Relaxed.parse s` is `parse t` for a `t` with
  `Forgives (lexemes t) (lexemes s)`.
-/

variable {c m : Char} {s r t f l : List Char} {ls ms : List (List Char)} {v : Json}

/-! ### Correct texts -/

/-- There are no comments between the lexemes. -/
theorem Spaced.strip_eq (h : Spaced Blank Blank ls s) (hls : ∀ l ∈ ls, Token l) :
    stripFrom .code s = s := by
  induction h with
  | done hf => exact hf.strip_eq
  | lexeme hf _ ih =>
    obtain ⟨hl, hls⟩ := List.forall_mem_cons.mp hls
    rw [stripFrom_blank hf, hl.strip, ih hls]

/-- There are no commas to drop. -/
theorem Spaced.drop_eq (h : Spaced Blank Blank ls s) (hls : ∀ l ∈ ls, Token l)
    (hchain : ls.IsChain Apart) : dropCommasFrom false s = s := by
  induction h with
  | done hf => exact hf.drop_eq
  | lexeme hf h ih =>
    obtain ⟨hl, htokens⟩ := List.forall_mem_cons.mp hls
    obtain ⟨hnext, hapart⟩ := List.isChain_cons.mp hchain
    rw [dropCommasFrom_blank hf, h.drop_kept htokens hl hnext, ih htokens hapart]

/-- **A correct text is strict already**: if `parse s = .ok v`, both `stripComments` and
    `dropTrailingCommas` leave `s` as it is. -/
theorem strict_of_parse (h : parse s = .ok v) :
    stripComments s = s ∧ dropTrailingCommas s = s ∧ Relaxed.parse s = parse s := by
  have hspells := parse_eq_ok_iff.mp h
  have hspaced : Spaced Blank Blank (lexemes s) s := spaced_lexemes (fun _ h => h) (fun _ h => h) s
  have hstrip : stripComments s = s := hspaced.strip_eq hspells.token
  have hdrop : dropTrailingCommas s = s := hspaced.drop_eq hspells.token hspells.isChain
  refine ⟨hstrip, hdrop, ?_⟩
  rw [Relaxed.parse, Relaxed.strict, hstrip, hdrop]

/-- A text with a literal that could be taken for comments and trailing commas. -/
def quotedSample : List Char := "[\"\\\",]//\", 1]".toList

/-- The text is left alone by both passes, and read with the same value. -/
theorem strict_of_parse_quoted :
    parse quotedSample = .ok (.array [.string "\",]//", .number (.int 1)]) ∧
      stripComments quotedSample = quotedSample ∧ dropTrailingCommas quotedSample = quotedSample ∧
      Relaxed.parse quotedSample = parse quotedSample := by
  have hparse : parse quotedSample = .ok (.array [.string "\",]//", .number (.int 1)]) := rfl
  exact ⟨hparse, strict_of_parse hparse⟩

/-! ### Texts that become correct -/

/-- Where a bracket closes next, there is only white space in front of it. -/
theorem exists_of_closesNext (h : closesNext s = true) :
    ∃ f m r, s = f ++ m :: r ∧ (∀ c ∈ f, Text.isWhiteSpace c = true) ∧ Closes [m] := by
  have hsplit : s.takeWhile Text.isWhiteSpace ++ s.dropWhile Text.isWhiteSpace = s :=
    List.takeWhile_append_dropWhile
  have hspace : ∀ c ∈ s.takeWhile Text.isWhiteSpace, Text.isWhiteSpace c = true :=
    fun c hc => List.mem_takeWhile_imp hc
  unfold closesNext at h
  split at h
  · rename_i r hr
    exact ⟨_, ']', r, by rw [← hr, hsplit], hspace, .inl rfl⟩
  · rename_i r hr
    exact ⟨_, '\x7d', r, by rw [← hr, hsplit], hspace, .inr rfl⟩
  · cases h

/-- Of the marks only the closing brackets close. -/
theorem closes_singleton_iff : Closes [m] ↔ m = ']' ∨ m = '\x7d' := by
  simp [Closes]

/-- A closing bracket is no blank, and stands neither in a literal nor in a word. -/
theorem lexemes_cons_closing (hm : Closes [m]) (r : List Char) :
    lexemes (m :: r) = [m] :: lexemes r := by
  have hmark : m ∈ marks := by
    rcases closes_singleton_iff.mp hm with rfl | rfl <;> decide
  obtain ⟨hspace, hq, -, hw⟩ := kind_of_mem_marks hmark
  exact lexemes_cons_single (not_isBlank_of_not_isWhiteSpace hspace) hq hw r

/-- White space and a closing bracket behind it are left as they are. -/
theorem dropCommasFrom_closing (hf : ∀ c ∈ f, Text.isWhiteSpace c = true) (hm : Closes [m])
    (r : List Char) : dropCommasFrom false (f ++ m :: r) = f ++ m :: dropCommasFrom false r := by
  have hspace : dropCommasFrom false (f ++ m :: r) = f ++ dropCommasFrom false (m :: r) := by
    refine append_of_copies (fun c hc r => ?_) _
    have hq : c ≠ '"' := ne_of_isWhiteSpace (hf c hc) (by decide)
    have hcomma : c ≠ ',' := ne_of_isWhiteSpace (hf c hc) (by decide)
    exact dropCommasFrom_of_char hq hcomma r
  rw [hspace]
  congr 1
  rcases closes_singleton_iff.mp hm with rfl | rfl <;> rfl

/-- White space in a text of tokens is blank. -/
theorem blank_of_token (hf : ∀ c ∈ f, Text.isWhiteSpace c = true)
    (h : ∀ l ∈ lexemes (f ++ s), Token l) : Blank f := by
  induction f with
  | nil => exact List.forall_mem_nil _
  | cons c f ih =>
    obtain ⟨hc, hf⟩ := List.forall_mem_cons.mp hf
    have hblank : isBlank c = true := by
      by_contra hb
      have hb : isBlank c = false := by simpa using hb
      have hq : c ≠ '"' := ne_of_isWhiteSpace hc (by decide)
      have hw : isWordChar c = false := not_isWordChar_of_isWhiteSpace hc
      -- the character would be a lexeme of its own, and it is no mark
      rw [List.cons_append, lexemes_cons_single hb hq hw] at h
      cases h [c] List.mem_cons_self with
      | mark hmark =>
        rw [(kind_of_mem_marks hmark).1] at hc
        cases hc
      | word _ hword =>
        rw [hword c (by simp)] at hw
        cases hw
      | literal _ => exact hq rfl
    have hone : Blank [c] := List.forall_mem_singleton.mpr hblank
    refine List.forall_mem_cons.mpr ⟨hblank, ih hf ?_⟩
    rwa [← lexemes_append_blank hone]

/-- Without its commas a text begins as it does, or with what stood behind a comma that went. -/
theorem head_drop (h : c ∈ (dropCommasFrom false s).head?) :
    s.head? = some c ∨ Text.isWhiteSpace c = true ∨ Closes [c] := by
  cases s with
  | nil => cases h
  | cons x r =>
    by_cases hq : x = '"'
    · subst hq
      exact .inl h
    by_cases hcomma : x = ','
    · subst hcomma
      rw [dropCommasFrom_comma] at h
      split at h
      · rename_i hgo
        obtain ⟨f, m, t, rfl, hf, hm⟩ := exists_of_closesNext hgo
        rw [dropCommasFrom_closing hf hm] at h
        cases f with
        | nil =>
          obtain rfl : m = c := by simpa using h
          exact .inr (.inr hm)
        | cons y f =>
          obtain rfl : y = c := by simpa using h
          exact .inr (.inl (hf y List.mem_cons_self))
      · exact .inl h
    · rw [dropCommasFrom_of_char hq hcomma] at h
      exact .inl h

/-- What does not go on with a word does not do so without its commas. -/
theorem Boundary.drop (h : Boundary s) : Boundary (dropCommasFrom false s) := by
  cases hd : dropCommasFrom false s with
  | nil => trivial
  | cons c r =>
    show isWordChar c = false
    rcases head_drop (s := s) (c := c) (by rw [hd]; rfl) with hs | hc | hc
    · obtain ⟨u, rfl⟩ := List.head?_eq_some_iff.mp hs
      exact h
    · exact not_isWordChar_of_isWhiteSpace hc
    · rcases closes_singleton_iff.mp hc with rfl | rfl <;> rfl

/-- A literal is kept whole when commas are dropped. -/
theorem dropCommasFrom_quote (r : List Char) : dropCommasFrom false ('"' :: r) =
    '"' :: ((literal r).1 ++ dropCommasFrom false (literal r).2) := by
  rw [← dropCommasFrom_string]
  rfl

/-- A literal does not run on into the text behind it when that loses commas. -/
theorem literal_drop (r : List Char) :
    literal ((literal r).1 ++ dropCommasFrom false (literal r).2) =
      ((literal r).1, dropCommasFrom false (literal r).2) :=
  literal_first_append fun hr => by rw [hr]; rfl

/-- If tokens are left of a text, the commas that went stood in front of closing brackets. -/
def Forgiven (s : List Char) : Prop :=
  (∀ l ∈ lexemes (dropCommasFrom false s), Token l) →
    Forgives (lexemes (dropCommasFrom false s)) (lexemes s)

theorem Forgiven.nil : Forgiven [] := by
  intro _
  have hnone : lexemes [] = [] := lexemes_eq_nil_iff.mpr rfl
  show Forgives (lexemes []) (lexemes [])
  rw [hnone]
  exact .nil

/-- A blank in front changes nothing about which commas are forgiven. -/
theorem Forgiven.blank (ih : Forgiven r) (hb : isBlank c = true) : Forgiven (c :: r) := by
  intro h
  have hone : Blank [c] := List.forall_mem_singleton.mpr hb
  have hcopy : dropCommasFrom false (c :: r) = c :: dropCommasFrom false r :=
    dropCommasFrom_blank hone r
  have hskip : ∀ t, lexemes (c :: t) = lexemes t := lexemes_append_blank hone
  rw [hcopy, hskip] at h ⊢
  rw [hskip]
  exact ih h

/-- A character that is a lexeme of its own and stays, as a comma may do. -/
theorem Forgiven.single (ih : Forgiven r) (hb : isBlank c = false) (hq : c ≠ '"')
    (hw : isWordChar c = false)
    (hcopy : dropCommasFrom false (c :: r) = c :: dropCommasFrom false r) : Forgiven (c :: r) := by
  intro h
  rw [hcopy, lexemes_cons_single hb hq hw] at h ⊢
  rw [lexemes_cons_single hb hq hw]
  exact .keep (ih (List.forall_mem_cons.mp h).2)

/-- A literal, closed or not. -/
theorem Forgiven.literal (ih : Forgiven (literal r).2) : Forgiven ('"' :: r) := by
  intro h
  rw [dropCommasFrom_quote, lexemes_cons_quote, literal_drop] at h ⊢
  rw [lexemes_cons_quote]
  exact .keep (ih (List.forall_mem_cons.mp h).2)

/-- A word is kept to its end, and still ends there. -/
theorem Forgiven.word (ih : Forgiven r) {w : List Char} (hne : w ≠ [])
    (hall : ∀ x ∈ w, isWordChar x = true) (hr : Boundary r) : Forgiven (w ++ r) := by
  intro h
  have hword : Token w := .word hne hall
  have hcomma : w ≠ [','] := by
    rintro rfl
    exact absurd (hall ',' List.mem_cons_self) (by decide)
  rw [hword.drop hcomma, lexemes_append hword fun _ => hr.drop] at h ⊢
  rw [lexemes_append hword fun _ => hr]
  exact .keep (ih (List.forall_mem_cons.mp h).2)

/-- A comma that goes, with the white space behind it and the closing bracket. -/
theorem Forgiven.comma (ih : Forgiven r) (hgo : closesNext (f ++ m :: r) = true)
    (hf : ∀ c ∈ f, Text.isWhiteSpace c = true) (hm : Closes [m]) :
    Forgiven (',' :: (f ++ m :: r)) := by
  intro h
  rw [dropCommasFrom_comma, if_pos hgo, dropCommasFrom_closing hf hm] at h ⊢
  have hblank : Blank f := blank_of_token hf h
  have hmark : lexemes (',' :: (f ++ m :: r)) = [','] :: lexemes (f ++ m :: r) :=
    lexemes_cons_single (by decide) (by decide) (by decide) _
  rw [lexemes_append_blank hblank, lexemes_cons_closing hm] at h ⊢
  rw [hmark, lexemes_append_blank hblank, lexemes_cons_closing hm]
  exact .comma hm (ih (List.forall_mem_cons.mp h).2)

/-- **If tokens are left, the commas that went stood in front of closing brackets.**  By recursion
    on the text, lexeme by lexeme. -/
theorem forgiven (s : List Char) : Forgiven s := by
  match s with
  | [] => exact .nil
  | c :: r =>
    by_cases hq : c = '"'
    · subst hq
      have hle : (literal r).2.length ≤ r.length := length_literal_le r
      exact (forgiven (literal r).2).literal
    by_cases hcomma : c = ','
    · subst hcomma
      by_cases hgo : closesNext r = true
      · obtain ⟨f, m, t, hr, hf, hm⟩ := exists_of_closesNext hgo
        have hlt : t.length < r.length := by
          simp only [hr, List.length_append, List.length_cons]
          omega
        rw [hr] at hgo ⊢
        exact (forgiven t).comma hgo hf hm
      · have hcopy : dropCommasFrom false (',' :: r) = ',' :: dropCommasFrom false r := by
          rw [dropCommasFrom_comma, if_neg hgo]
        exact (forgiven r).single (by decide) hq (by decide) hcopy
    by_cases hb : isBlank c = true
    · exact (forgiven r).blank hb
    by_cases hw : isWordChar c = true
    · obtain ⟨w, u, hsplit, hne, hall, hu, hle⟩ := exists_word hw r
      rw [hsplit]
      exact (forgiven u).word hne hall hu
    · have hcopy : dropCommasFrom false (c :: r) = c :: dropCommasFrom false r :=
        dropCommasFrom_of_char hq hcomma r
      exact (forgiven r).single (by simpa using hb) hq (by simpa using hw) hcopy
termination_by s.length
decreasing_by
  all_goals
    simp only [List.length_cons]
    omega

/-- **The texts that become correct** are the correct ones and those with commas in front of some of
    their closing brackets. -/
theorem parse_drop_iff : parse (dropTrailingCommas s) = .ok v ↔
    ∃ t, parse t = .ok v ∧ Forgives (lexemes t) (lexemes s) := by
  constructor
  · intro h
    exact ⟨dropTrailingCommas s, h, forgiven s (parse_eq_ok_iff.mp h).token⟩
  · rintro ⟨t, ht, hforgives⟩
    have hspells := parse_eq_ok_iff.mp ht
    have hspaced : Spaced Blank Blank (lexemes s) s :=
      spaced_lexemes (fun _ h => h) (fun _ h => h) s
    have hdrop : Spaced Blank Blank (lexemes t) (dropTrailingCommas s) :=
      hforgives.drop hspells.token hspells.isChain hspaced
    have hlexemes : lexemes (dropTrailingCommas s) = lexemes t :=
      hdrop.lexemes_eq hspells.token hspells.isChain
    rw [parse_congr hlexemes, ht]

/-! ### Commas that stand behind no element -/

/-- Whether a comma stands alone between two brackets. -/
def LoneComma (ls : List (List Char)) : Prop :=
  ∃ l m, Opens l ∧ Closes m ∧ [l, [','], m] <:+: ls

/-- The comma stands behind the first lexeme or further on. -/
theorem loneComma_cons_iff : LoneComma (l :: ls) ↔
    (Opens l ∧ ∃ m, Closes m ∧ [[','], m] <+: ls) ∨ LoneComma ls := by
  simp only [LoneComma, List.infix_cons_iff, List.cons_prefix_cons]
  constructor
  · rintro ⟨l', m, hl, hm, ⟨rfl, h⟩ | h⟩
    · exact .inl ⟨hl, m, hm, h⟩
    · exact .inr ⟨l', m, hl, hm, h⟩
  · rintro (⟨hl, m, hm, h⟩ | ⟨l', m, hl, hm, h⟩)
    · exact ⟨l, m, hl, hm, .inl ⟨rfl, h⟩⟩
    · exact ⟨l', m, hl, hm, .inr h⟩

/-- Behind a lexeme that is no comma, the commas stand behind elements if none stands alone. -/
theorem Forgives.loosens (h : Forgives ls ms) (l : List Char) (hlone : ¬ LoneComma (l :: ms)) :
    Loosens (l :: ls) (l :: ms) := by
  induction h generalizing l with
  | nil => exact .keep .nil
  | @keep l' _ _ _ ih =>
    exact .keep (ih l' fun h => hlone (loneComma_cons_iff.mpr (.inr h)))
  | @comma m ls ms hm _ ih =>
    have hl : ¬ Opens l := fun hl =>
      hlone (loneComma_cons_iff.mpr (.inl ⟨hl, m, hm, ms, rfl⟩))
    refine .comma hl hm (ih m fun h => hlone ?_)
    exact loneComma_cons_iff.mpr (.inr (loneComma_cons_iff.mpr (.inr h)))

/-- A comma that was put behind a last element does not stand alone. -/
theorem Loosens.not_loneComma (h : Loosens ls ms) (hchain : ls.IsChain Apart) :
    ¬ LoneComma ms := by
  induction h with
  | nil => simp [LoneComma]
  | @keep l ls ms h ih =>
    rw [loneComma_cons_iff]
    rintro (⟨-, m, hm, r, rfl⟩ | hlone)
    · -- the comma would stand in front of a bracket before as well
      cases h with
      | @keep _ rs _ h =>
        have hhead : rs.head? = some m := by
          rw [← h.head?]
          rfl
        obtain ⟨qs, rfl⟩ := List.head?_eq_some_iff.mp hhead
        exact (List.isChain_cons_cons.mp hchain.tail).1.2 ⟨rfl, hm⟩
      | comma _ hcloses _ => exact (List.isChain_cons_cons.mp hchain.tail).1.2 ⟨rfl, hcloses⟩
    · exact ih hchain.tail hlone
  | @comma l m ls ms hl hm h ih =>
    rw [loneComma_cons_iff, loneComma_cons_iff]
    rintro (⟨hopen, -⟩ | ⟨hopen, -⟩ | hlone)
    · exact hl hopen
    · simp [Opens] at hopen
    · exact ih hchain.tail hlone

/-- **Of the commas that are forgiven, those stand behind a last element that do not stand
    alone.** -/
theorem loosens_iff (h : parse t = .ok v) :
    Loosens (lexemes t) ms ↔ Forgives (lexemes t) ms ∧ ¬ LoneComma ms := by
  have hspells := parse_eq_ok_iff.mp h
  constructor
  · exact fun hloose => ⟨hloose.forgives, hloose.not_loneComma hspells.isChain⟩
  · rintro ⟨hforgives, hlone⟩
    obtain ⟨l, ls, x, hls, hx, hne⟩ := hspells.exists_head
    rw [hls] at hforgives ⊢
    cases hforgives with
    | keep hforgives => exact hforgives.loosens l hlone
    | comma hcloses _ => exact absurd hcloses (not_closes_of_head hx hne)

/-- **What is read of a text without comments** (`Commentless s`): the value of a text `t` that
    `parse` accepts, with a comma in front of some closing brackets (`Forgives`).  These commas
    stand behind last elements (`Loosens`) just if none of them stands alone
    (`¬ LoneComma (lexemes s)`). -/
theorem parse_commentless (hs : Commentless s) (v : Json) :
    (Relaxed.parse s = .ok v ↔
      ∃ t, parse t = .ok v ∧ Forgives (lexemes t) (lexemes s)) ∧
    ((∃ t, parse t = .ok v ∧ Loosens (lexemes t) (lexemes s)) ↔
      Relaxed.parse s = .ok v ∧ ¬ LoneComma (lexemes s)) := by
  have hread : Relaxed.parse s = .ok v ↔
      ∃ t, parse t = .ok v ∧ Forgives (lexemes t) (lexemes s) := by
    rw [Relaxed.parse, Relaxed.strict, hs.strip, parse_drop_iff]
  refine ⟨hread, ?_⟩
  rw [hread]
  constructor
  · rintro ⟨t, ht, hloose⟩
    obtain ⟨hforgives, hlone⟩ := (loosens_iff ht).mp hloose
    exact ⟨⟨t, ht, hforgives⟩, hlone⟩
  · rintro ⟨⟨t, ht, hforgives⟩, hlone⟩
    exact ⟨t, ht, (loosens_iff ht).mpr ⟨hforgives, hlone⟩⟩

/-- A text with a comma behind a last element, and one that stands alone. -/
def lenientSample : List Char := "[[1,],[,]]".toList

/-- The text is read as a strict one with two commas less. -/
theorem parse_commentless_lenient :
    Commentless lenientSample ∧
      Relaxed.parse lenientSample = .ok (.array [.array [.number (.int 1)], .array []]) ∧
      ∃ t, parse t = .ok (.array [.array [.number (.int 1)], .array []]) ∧
        Forgives (lexemes t) (lexemes lenientSample) := by
  have hs : Commentless lenientSample := by decide +kernel
  have hread : Relaxed.parse lenientSample =
      .ok (.array [.array [.number (.int 1)], .array []]) := rfl
  exact ⟨hs, hread, (parse_commentless hs _).1.mp hread⟩

/-- **A comma that stands alone is read**, though it stands behind no element. -/
theorem parse_loneComma :
    Commentless "[,]".toList ∧ Relaxed.parse "[,]".toList = .ok (.array []) ∧
      ¬ ∃ t v, parse t = .ok v ∧ Loosens (lexemes t) (lexemes "[,]".toList) := by
  refine ⟨by decide +kernel, rfl, ?_⟩
  have hlexemes : lexemes "[,]".toList = [['['], [','], [']']] := by decide +kernel
  rintro ⟨t, v, ht, hloose⟩
  apply ((loosens_iff ht).mp hloose).2
  rw [hlexemes]
  exact ⟨['['], [']'], .inl rfl, .inl rfl, List.infix_rfl⟩

end DeclarationDocs.Json
