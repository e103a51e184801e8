import DeclarationDocs.Glob

namespace DeclarationDocs.Glob

/-!
# What the patterns of names match

The matcher tries a `*` from short to long and gives up early where the text has run out.  Inside
one name, which holds no slash, that is no loss: it accepts what the pattern describes.

* `Fits ts s` — the description: one character for every token, any characters for a `*`;
* `accepts_iff_fits` — the matcher decides it for names;
* `fits_of_literal?` — a pattern without wildcards fits its own text alone.
-/

variable {ts : List Token} {s : List Char}

/-- The names that a pattern without `**` describes. -/
inductive Fits : List Token → List Char → Prop
  | nil : Fits [] []
  | one {t : Token} {ts : List Token} {c : Char} {s : List Char} (hc : t.fits c = true)
      (h : Fits ts s) : Fits (t :: ts) (c :: s)
  | sequence {ts : List Token} {s : List Char} (taken : List Char) (hslash : '/' ∉ taken)
      (h : Fits ts s) : Fits (.sequence :: ts) (taken ++ s)

/-! ### One token -/

/-- A character fits itself alone. -/
@[simp] theorem Token.fits_char {a c : Char} : (Token.char a).fits c = true ↔ c = a := by
  show (c == a) = true ↔ c = a
  exact beq_iff_eq

/-- A set fits the characters in it, but no slash. -/
@[simp] theorem Token.fits_within {set : List Item} {c : Char} :
    (Token.within set).fits c = true ↔ c ≠ '/' ∧ set.any (Item.holds c) = true := by
  show (c != '/' && set.any (Item.holds c)) = true ↔ _
  rw [Bool.and_eq_true, bne_iff_ne]

/-- An empty pattern fits the empty name alone. -/
theorem fits_nil_iff : Fits [] s ↔ s = [] := by
  constructor
  · intro h
    cases h
    rfl
  · rintro rfl
    exact .nil

/-- A `*` fits any part of a name, so the pattern goes on at any later place. -/
theorem fits_sequence_iff (hs : '/' ∉ s) :
    Fits (.sequence :: ts) s ↔ ∃ rest, rest <:+ s ∧ Fits ts rest := by
  constructor
  · intro h
    cases h with
    | one hc => exact absurd hc Bool.false_ne_true
    | sequence taken _ h => exact ⟨_, List.suffix_append _ _, h⟩
  · rintro ⟨rest, ⟨taken, rfl⟩, h⟩
    exact .sequence taken (fun hmem => hs (List.mem_append_left _ hmem)) h

/-- A token for one character fits that one, and the pattern goes on behind it. -/
theorem fits_cons_iff {t : Token} (ht : t ≠ .sequence) :
    Fits (t :: ts) s ↔ ∃ c r, s = c :: r ∧ t.fits c = true ∧ Fits ts r := by
  constructor
  · intro h
    cases h with
    | one hc h => exact ⟨_, _, rfl, hc, h⟩
    | sequence => exact absurd rfl ht
  · rintro ⟨c, r, rfl, hc, h⟩
    exact .one hc h

/-! ### Deciding -/

/-- What the outcome of a match says: `yes` that the text fits, `ranOut` that neither the text
    nor what is left of it later on does. -/
structure Decides (ts : List Token) (outcome : Outcome) (s : List Char) : Prop where
  yes : outcome = .yes ↔ Fits ts s
  ranOut : outcome = .ranOut → ∀ rest, rest <:+ s → ¬ Fits ts rest

namespace Decides

variable {outcome : Outcome} {c : Char} {t : Token}

/-- The outcome `.no` means that the pattern does not fit. -/
theorem not_fits_of_no (h : Decides ts .no s) : ¬ Fits ts s := fun hfits =>
  absurd (h.yes.mpr hfits) (by simp)

/-- A `*` may take nothing, so what is decided without it is decided with it. -/
theorem sequence (h : Decides ts outcome s) (hs : '/' ∉ s) (hno : outcome ≠ .no) :
    Decides (.sequence :: ts) outcome s := by
  have hnone : outcome = .ranOut → ∀ rest, rest <:+ s → ¬ Fits (.sequence :: ts) rest := by
    intro hran rest hrest hfits
    have hrest' : '/' ∉ rest := fun hmem => hs (hrest.mem hmem)
    obtain ⟨left, hleft, hfits⟩ := (fits_sequence_iff hrest').mp hfits
    exact h.ranOut hran left (hleft.trans hrest) hfits
  refine ⟨⟨fun hyes => ?_, fun hfits => ?_⟩, hnone⟩
  · exact (fits_sequence_iff hs).mpr ⟨s, List.suffix_refl s, h.yes.mp hyes⟩
  · cases outcome with
    | yes => rfl
    | no => exact absurd rfl hno
    | ranOut => exact absurd hfits (hnone rfl s (List.suffix_refl s))

/-- A `*` that has to take a character is decided by what is left. -/
theorem sequence_cons (h : Decides (.sequence :: ts) outcome s) (hs : '/' ∉ c :: s)
    (hno : ¬ Fits ts (c :: s)) : Decides (.sequence :: ts) outcome (c :: s) := by
  -- taking nothing has been tried, and did not fit
  have hstep : Fits (.sequence :: ts) (c :: s) ↔ Fits (.sequence :: ts) s := by
    rw [fits_sequence_iff hs, fits_sequence_iff fun hmem => hs (List.mem_cons_of_mem c hmem)]
    constructor
    · rintro ⟨left, hleft, hfits⟩
      rcases List.suffix_cons_iff.mp hleft with rfl | hleft
      · exact absurd hfits hno
      · exact ⟨left, hleft, hfits⟩
    · rintro ⟨left, hleft, hfits⟩
      exact ⟨left, hleft.trans (List.suffix_cons c s), hfits⟩
  refine ⟨by rw [hstep]; exact h.yes, fun hran rest hrest => ?_⟩
  rcases List.suffix_cons_iff.mp hrest with rfl | hrest
  · rw [hstep]
    exact h.ranOut hran s (List.suffix_refl s)
  · exact h.ranOut hran rest hrest

/-- A token for one character takes the first one. -/
theorem one (ht : t ≠ .sequence) (h : Decides ts outcome s) :
    Decides (t :: ts) (if t.fits c then outcome else .no) (c :: s) := by
  have hcons : Fits (t :: ts) (c :: s) ↔ t.fits c = true ∧ Fits ts s := by
    rw [fits_cons_iff ht]
    constructor
    · rintro ⟨_, _, heq, hc, h⟩
      obtain ⟨rfl, rfl⟩ := List.cons.inj heq
      exact ⟨hc, h⟩
    · rintro ⟨hc, h⟩
      exact ⟨c, s, rfl, hc, h⟩
  by_cases hc : t.fits c = true
  · rw [if_pos hc]
    refine ⟨by rw [hcons, h.yes]; simp [hc], fun hran rest hrest hfits => ?_⟩
    obtain ⟨c', r, rfl, -, hr⟩ := (fits_cons_iff ht).mp hfits
    -- what is left behind a later character is left of `s` as well
    have hr' : r <:+ s := by
      rcases List.suffix_cons_iff.mp hrest with heq | hrest
      · exact (List.cons.inj heq).2 ▸ List.suffix_refl r
      · exact (List.suffix_cons c' r).trans hrest
    exact h.ranOut hran r hr' hr
  · rw [if_neg hc]
    exact ⟨by rw [hcons]; simp [hc], by simp⟩

end Decides

/-! ### The matcher -/

/-- Letting a `*` take more and more finds what it can take, and is stopped only where nothing
    that is left would do. -/
theorem decides_afterSequence {outcome : List Char → Outcome}
    (h : ∀ s, '/' ∉ s → Decides ts (outcome s) s) (hs : '/' ∉ s) :
    Decides (.sequence :: ts)
      (match outcome s with | .no => afterSequence outcome s | found => found) s := by
  induction s with
  | nil =>
    cases hout : outcome [] with
    | yes => exact (hout ▸ h [] hs).sequence hs (by simp)
    | ranOut => exact (hout ▸ h [] hs).sequence hs (by simp)
    | no =>
      -- there is nothing that the `*` could take, so it takes nothing
      show Decides _ (outcome []) _
      rw [hout]
      have hnot : ¬ Fits (.sequence :: ts) [] := by
        rw [fits_sequence_iff hs]
        rintro ⟨left, hleft, hfits⟩
        obtain rfl := List.suffix_nil.mp hleft
        exact (hout ▸ h [] hs).not_fits_of_no hfits
      exact ⟨by simp [hnot], by simp⟩
  | cons c r ih =>
    cases hout : outcome (c :: r) with
    | yes => exact (hout ▸ h _ hs).sequence hs (by simp)
    | ranOut => exact (hout ▸ h _ hs).sequence hs (by simp)
    | no =>
      have hslash : c ≠ '/' := fun hc => hs (hc ▸ List.mem_cons_self)
      -- the loop goes on, since no slash stops the `*` inside a name
      show Decides _ (afterSequence outcome (c :: r)) _
      rw [afterSequence, if_neg hslash]
      exact (ih fun hmem => hs (List.mem_cons_of_mem c hmem)).sequence_cons hs
        (hout ▸ h _ hs).not_fits_of_no

/-- A text that has run out fits a token for one character no more. -/
theorem decides_ranOut {t : Token} (ht : t ≠ .sequence) : Decides (t :: ts) .ranOut [] := by
  have hnil : ¬ Fits (t :: ts) [] := by
    rw [fits_cons_iff ht]
    simp
  refine ⟨by simp [hnil], fun _ rest hrest => ?_⟩
  obtain rfl := List.suffix_nil.mp hrest
  exact hnil

/-- **Matching.**  The matcher decides what fits, for every text without a slash. -/
theorem decides_matchTokens (hts : Token.directories ∉ ts) (hs : '/' ∉ s) :
    Decides ts (matchTokens ts s) s := by
  induction ts generalizing s with
  | nil =>
    cases s with
    | nil => exact ⟨by simp [matchTokens, fits_nil_iff], by simp [matchTokens]⟩
    | cons c r => exact ⟨by simp [matchTokens, fits_nil_iff], by simp [matchTokens]⟩
  | cons t ts ih =>
    have hrest : Token.directories ∉ ts := fun hmem => hts (List.mem_cons_of_mem t hmem)
    have ht : t ≠ .directories := fun heq => hts (heq ▸ List.mem_cons_self)
    by_cases hseq : t = .sequence
    · subst hseq
      unfold matchTokens
      exact decides_afterSequence (fun s hs => ih hrest hs) hs
    · cases s with
      | nil =>
        -- every token for one character is matched alike
        have hran : matchTokens (t :: ts) [] = .ranOut := by
          cases t <;> simp_all [matchTokens]
        rw [hran]
        exact decides_ranOut hseq
      | cons c r =>
        have hstep : matchTokens (t :: ts) (c :: r)
            = if t.fits c then matchTokens ts r else .no := by
          cases t <;> simp_all [matchTokens]
        rw [hstep]
        exact (ih hrest fun hmem => hs (List.mem_cons_of_mem c hmem)).one hseq

/-- Within one name the matcher accepts just what fits. -/
theorem accepts_iff_fits (hts : Token.directories ∉ ts) (hs : '/' ∉ s) :
    accepts ts s = true ↔ Fits ts s := by
  unfold accepts
  rw [beq_iff_eq]
  exact (decides_matchTokens hts hs).yes

/-! ### Patterns without wildcards -/

/-- A pattern without wildcards fits its own text alone. -/
theorem fits_of_literal? {name : List Char} (h : literal? ts = some name) :
    Fits ts s ↔ s = name := by
  induction ts generalizing s name with
  | nil =>
    obtain rfl := Option.some.inj h
    exact fits_nil_iff
  | cons t ts ih =>
    cases t with
    | char c =>
      obtain ⟨rest, hrest, rfl⟩ := Option.map_eq_some_iff.mp h
      rw [fits_cons_iff (by simp)]
      simp only [ih hrest, Token.fits_char]
      constructor
      · rintro ⟨_, _, rfl, rfl, rfl⟩
        rfl
      · rintro rfl
        exact ⟨c, rest, rfl, rfl, rfl⟩
    | _ => exact absurd h (by simp [literal?])

end DeclarationDocs.Glob
