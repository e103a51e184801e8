import DeclarationDocs.Proofs.Glob.Route

namespace DeclarationDocs.Glob

/-!
# Matching whole paths

On a text with slashes the matcher still gives up as soon as the text runs out, although a `**`
could start again further right.  It loses nothing by that, since a `**` only stands where a
component begins, and every start that it could be given later has been tried by then.

* `Covers ts s` — the texts that a pattern describes: a `**` stands for directories with their
  slashes, or for all there is;
* `Seated ts` — every `**` stands where a component begins; `seated_of_parse` — so it is in every
  pattern that was read;
* `accepts_iff_covers` — the matcher decides what a pattern describes.
-/

/-- The texts that a pattern describes. -/
inductive Covers : List Token → List Char → Prop
  | nil : Covers [] []
  | one {t : Token} {ts : List Token} {c : Char} {s : List Char} (hc : t.fits c = true)
      (h : Covers ts s) : Covers (t :: ts) (c :: s)
  | sequence {ts : List Token} {s : List Char} (taken : List Char) (hslash : '/' ∉ taken)
      (h : Covers ts s) : Covers (.sequence :: ts) (taken ++ s)
  | nothing {ts : List Token} {s : List Char} (h : Covers ts s) : Covers (.directories :: ts) s
  | directories {ts : List Token} {s : List Char} (taken : List Char) (h : Covers ts s) :
      Covers (.directories :: ts) (taken ++ '/' :: s)
  | everything {ts : List Token} (taken : List Char) (h : Covers ts []) :
      Covers (.directories :: ts) taken

variable {t : Token} {ts us : List Token} {c : Char} {s r x : List Char} {outcome : Outcome}
  {f : List Char → Outcome}

/-! ### One token -/

/-- An empty pattern covers the empty text alone. -/
theorem covers_nil_iff : Covers [] s ↔ s = [] := by
  constructor
  · intro h
    cases h
    rfl
  · rintro rfl
    exact .nil

/-- A token for one character covers that one, and the pattern goes on behind it. -/
theorem covers_cons_iff (ht : t ≠ .sequence) (ht' : t ≠ .directories) :
    Covers (t :: ts) s ↔ ∃ c r, s = c :: r ∧ t.fits c = true ∧ Covers ts r := by
  constructor
  · intro h
    cases h with
    | one hc h => exact ⟨_, _, rfl, hc, h⟩
    | sequence => exact absurd rfl ht
    | nothing | directories | everything => exact absurd rfl ht'
  · rintro ⟨c, r, rfl, hc, h⟩
    exact .one hc h

/-- A `*` covers whatever has no slash. -/
theorem covers_sequence_iff :
    Covers (.sequence :: ts) s ↔
      ∃ taken left, s = taken ++ left ∧ '/' ∉ taken ∧ Covers ts left := by
  constructor
  · intro h
    cases h with
    | one hc => exact absurd hc Bool.false_ne_true
    | sequence taken hslash h => exact ⟨taken, _, rfl, hslash, h⟩
  · rintro ⟨taken, left, rfl, hslash, h⟩
    exact .sequence taken hslash h

/-- What a `**` can leave behind a slash, or at the end. -/
def CoversLater (ts : List Token) (s : List Char) : Prop :=
  (∃ taken left, s = taken ++ '/' :: left ∧ Covers ts left) ∨ Covers ts []

/-- A `**` covers nothing, or whole directories with their slashes. -/
theorem covers_directories_iff :
    Covers (.directories :: ts) s ↔ Covers ts s ∨ CoversLater ts s := by
  constructor
  · intro h
    cases h with
    | one hc => exact absurd hc Bool.false_ne_true
    | nothing h => exact .inl h
    | directories taken h => exact .inr (.inl ⟨taken, _, rfl, h⟩)
    | everything _ h => exact .inr (.inr h)
  · rintro (h | ⟨taken, left, rfl, h⟩ | h)
    · exact .nothing h
    · exact .directories taken h
    · exact .everything s h

/-- A first character is one more that a `**` may take, if no slash is. -/
theorem coversLater_cons_iff (hc : c ≠ '/') : CoversLater ts (c :: s) ↔ CoversLater ts s := by
  refine or_congr_left ?_
  constructor
  · rintro ⟨taken, left, heq, h⟩
    cases taken with
    | nil => exact absurd (List.cons.inj heq).1 hc
    | cons d taken => exact ⟨taken, left, (List.cons.inj heq).2, h⟩
  · rintro ⟨taken, left, rfl, h⟩
    exact ⟨c :: taken, left, rfl, h⟩

/-- Behind a slash the pattern may go on. -/
theorem coversLater_slash_iff :
    CoversLater ts ('/' :: s) ↔ Covers ts s ∨ CoversLater ts s := by
  constructor
  · rintro (⟨taken, left, heq, h⟩ | h)
    · cases taken with
      | nil =>
        obtain rfl : s = left := (List.cons.inj heq).2
        exact .inl h
      | cons d taken => exact .inr (.inl ⟨taken, left, (List.cons.inj heq).2, h⟩)
    · exact .inr (.inr h)
  · rintro (h | ⟨taken, left, rfl, h⟩ | h)
    · exact .inl ⟨[], s, rfl, h⟩
    · exact .inl ⟨'/' :: taken, left, rfl, h⟩
    · exact .inr h

/-! ### Later starts -/

/-- Where tokens could start again further right: a `**` only at the end or behind a slash. -/
def Start (ts : List Token) (s left : List Char) : Prop :=
  if ts.head? = some .directories then left = s ∨ '/' :: left <:+ s ∨ left = [] else left <:+ s

/-- Without `**` in front a pattern may start at any later place. -/
theorem start_of_suffix (hts : ts.head? ≠ some .directories) : Start ts s x ↔ x <:+ s := by
  unfold Start
  rw [if_neg hts]

/-- With `**` in front it starts here, behind a slash or at the end. -/
theorem start_directories :
    Start (.directories :: ts) s x ↔ x = s ∨ '/' :: x <:+ s ∨ x = [] :=
  iff_of_eq (if_pos rfl)

/-- A start of a `**` is one for whatever stands behind it. -/
theorem Start.tail (h : Start (.directories :: ts) s x) : Start ts s x := by
  rw [start_directories] at h
  unfold Start
  split
  · exact h
  · rcases h with rfl | h | rfl
    · exact List.suffix_refl x
    · exact (List.suffix_cons '/' x).trans h
    · exact List.nil_suffix

/-- A start behind a start is one. -/
theorem Start.trans (h : Start (.directories :: ts) s r) (h' : Start (.directories :: ts) r x) :
    Start (.directories :: ts) s x := by
  rw [start_directories] at h h' ⊢
  rcases h' with rfl | h' | rfl
  · exact h
  · rcases h with rfl | h | rfl
    · exact .inr (.inl h')
    · exact .inr (.inl (h'.trans ((List.suffix_cons '/' r).trans h)))
    · exact absurd (List.suffix_nil.mp h') (by simp)
  · exact .inr (.inr rfl)

/-- What a `**` leaves is a start. -/
theorem start_of_covers (h : Covers (.directories :: ts) s) :
    ∃ left, Start (.directories :: ts) s left ∧ Covers ts left := by
  rcases covers_directories_iff.mp h with hleft | ⟨taken, left, rfl, hleft⟩ | hleft
  · exact ⟨s, start_directories.mpr (.inl rfl), hleft⟩
  · exact ⟨left, start_directories.mpr (.inr (.inl (List.suffix_append _ _))), hleft⟩
  · exact ⟨[], start_directories.mpr (.inr (.inr rfl)), hleft⟩

/-! ### Deciding -/

/-- What the outcome of a match says: `yes` that the text is described, `ranOut` that no later
    start would do either. -/
structure Settles (ts : List Token) (outcome : Outcome) (s : List Char) : Prop where
  yes : outcome = .yes ↔ Covers ts s
  ranOut : outcome = .ranOut → ∀ left, Start ts s left → ¬ Covers ts left

namespace Settles

/-- Another outcome than `.yes` means that the pattern does not cover the text. -/
theorem not_covers (h : Settles ts outcome s) (hno : outcome ≠ .yes) : ¬ Covers ts s :=
  fun hcovers => hno (h.yes.mpr hcovers)

end Settles

/-! #### A `*` -/

theorem start_sequence : Start (.sequence :: ts) s x ↔ x <:+ s := start_of_suffix (by simp)

/-- A `*` that has to take a character takes it, unless it is a slash. -/
theorem covers_sequence_cons_iff (hc : c ≠ '/') (hnot : ¬ Covers ts (c :: s)) :
    Covers (.sequence :: ts) (c :: s) ↔ Covers (.sequence :: ts) s := by
  rw [covers_sequence_iff, covers_sequence_iff]
  constructor
  · rintro ⟨taken, left, heq, hslash, hrest⟩
    cases taken with
    | nil => exact absurd (heq ▸ hrest) hnot
    | cons d taken =>
      exact ⟨taken, left, (List.cons.inj heq).2,
        fun hmem => hslash (List.mem_cons_of_mem d hmem), hrest⟩
  · rintro ⟨taken, left, rfl, hslash, hrest⟩
    exact ⟨c :: taken, left, rfl, by simp [Ne.symm hc, hslash], hrest⟩

/-- A `*` does not help over a slash. -/
theorem not_covers_sequence_slash (hnot : ¬ Covers ts ('/' :: s)) :
    ¬ Covers (.sequence :: ts) ('/' :: s) := by
  intro hcovers
  obtain ⟨taken, left, heq, hslash, hrest⟩ := covers_sequence_iff.mp hcovers
  cases taken with
  | nil => exact hnot (heq ▸ hrest)
  | cons d taken => exact hslash ((List.cons.inj heq).1 ▸ List.mem_cons_self)

/-- A `*` may take nothing, so what is settled without it is settled with it. -/
theorem Settles.sequence (hts : ts.head? ≠ some .directories) (h : Settles ts outcome s)
    (hno : outcome ≠ .no) : Settles (.sequence :: ts) outcome s := by
  have hnone : outcome = .ranOut → ∀ left, left <:+ s → ¬ Covers (.sequence :: ts) left := by
    intro hran left hsuffix hcovers
    obtain ⟨taken, rest, rfl, -, hrest⟩ := covers_sequence_iff.mp hcovers
    -- what a `*` leaves is what is left of the text
    have hsuffix := (List.suffix_append taken rest).trans hsuffix
    exact h.ranOut hran rest ((start_of_suffix hts).mpr hsuffix) hrest
  refine ⟨⟨fun hyes => ?_, fun hcovers => ?_⟩, fun hran left hstart => ?_⟩
  · exact covers_sequence_iff.mpr ⟨[], s, rfl, by simp, h.yes.mp hyes⟩
  · cases outcome with
    | yes => rfl
    | no => exact absurd rfl hno
    | ranOut => exact absurd hcovers (hnone rfl s (List.suffix_refl s))
  · exact hnone hran left (start_sequence.mp hstart)

/-- A `*` takes more and more, until a slash stops it. -/
theorem settles_sequence (hts : ts.head? ≠ some .directories)
    (h : ∀ s, Settles ts (f s) s) (s : List Char) :
    Settles (.sequence :: ts)
      (match f s with | .no => afterSequence f s | found => found) s := by
  induction s with
  | nil =>
    cases hout : f [] with
    | yes => exact (hout ▸ h []).sequence hts (by simp)
    | ranOut => exact (hout ▸ h []).sequence hts (by simp)
    | no =>
      show Settles _ (f []) _
      rw [hout]
      refine ⟨⟨by simp, fun hcovers => ?_⟩, by simp⟩
      obtain ⟨taken, left, heq, -, hrest⟩ := covers_sequence_iff.mp hcovers
      obtain ⟨-, rfl⟩ := List.append_eq_nil_iff.mp heq.symm
      exact absurd hrest ((h []).not_covers (by simp [hout]))
  | cons c r ih =>
    cases hout : f (c :: r) with
    | yes => exact (hout ▸ h (c :: r)).sequence hts (by simp)
    | ranOut => exact (hout ▸ h (c :: r)).sequence hts (by simp)
    | no =>
      have hnot : ¬ Covers ts (c :: r) := (h (c :: r)).not_covers (by simp [hout])
      show Settles _ (afterSequence f (c :: r)) _
      by_cases hc : c = '/'
      · -- a `*` ends at a slash, so it could only have taken nothing
        subst hc
        rw [afterSequence, if_pos rfl]
        exact ⟨by simp [not_covers_sequence_slash hnot], by simp⟩
      · have hstep := covers_sequence_cons_iff hc hnot
        rw [afterSequence, if_neg hc]
        refine ⟨ih.yes.trans hstep.symm, fun hran left hstart => ?_⟩
        rcases List.suffix_cons_iff.mp (start_sequence.mp hstart) with rfl | hsuffix
        · rw [hstep]
          exact ih.ranOut hran r (start_sequence.mpr (List.suffix_refl r))
        · exact ih.ranOut hran left (start_sequence.mpr hsuffix)

/-! #### A `**` -/

/-- Starts of a `**` further right are covered by no more than what is found there. -/
theorem not_covers_of_ranOut (h : Settles ts outcome s) (hran : outcome = .ranOut)
    {left : List Char} (hstart : Start (.directories :: ts) s left) :
    ¬ Covers (.directories :: ts) left := by
  intro hcovers
  obtain ⟨rest, hrest, hcovers⟩ := start_of_covers hcovers
  exact h.ranOut hran rest (hstart.trans hrest).tail hcovers

/-- Where the tokens behind a `**` run out of text at once, nothing is covered from there on. -/
theorem not_covers_here_of_ranOut (h : Settles ts outcome s) (hran : outcome = .ranOut) :
    ¬ Covers (.directories :: ts) s :=
  not_covers_of_ranOut h hran (start_directories.mpr (.inl rfl))

/-- What stands behind a slash, this one or a later one, is a start of a `**` behind this slash. -/
theorem start_behind_slash {left : List Char} (h : '/' :: left <:+ '/' :: r ∨ left = []) :
    Start (.directories :: ts) r left := by
  rcases h with h | rfl
  · rcases List.suffix_cons_iff.mp h with heq | h
    · exact start_directories.mpr (.inl (List.cons.inj heq).2)
    · exact start_directories.mpr (.inr (.inl h))
  · exact start_directories.mpr (.inr (.inr rfl))

/-- A `**` takes directory by directory, or all there is. -/
theorem settles_afterDirectories (h : ∀ s, Settles ts (f s) s) (s : List Char) :
    (afterDirectories f s = .yes ↔ CoversLater ts s) ∧
      (afterDirectories f s = .ranOut → ∀ left, '/' :: left <:+ s ∨ left = [] →
        ¬ Covers (.directories :: ts) left) := by
  induction s with
  | nil =>
    have hlater : CoversLater ts [] ↔ Covers ts [] := by simp [CoversLater]
    rw [afterDirectories, hlater]
    refine ⟨(h []).yes, fun hran left hleft => ?_⟩
    refine not_covers_of_ranOut (h []) hran (start_directories.mpr ?_)
    exact .inr hleft
  | cons c r ih =>
    by_cases hc : c = '/'
    · subst hc
      rw [coversLater_slash_iff]
      -- what comes of the tokens behind the slash decides whether another directory is tried
      cases hout : f r with
      | yes =>
        simp only [afterDirectories, if_true, hout]
        exact ⟨by simp [(h r).yes.mp hout], by simp⟩
      | ranOut =>
        simp only [afterDirectories, if_true, hout]
        have hself := not_covers_here_of_ranOut (h r) hout
        rw [covers_directories_iff] at hself
        exact ⟨by simp [hself],
          fun _ left hleft => not_covers_of_ranOut (h r) hout (start_behind_slash hleft)⟩
      | no =>
        have hnot : ¬ Covers ts r := (h r).not_covers (by simp [hout])
        simp only [afterDirectories, if_true, hout]
        refine ⟨ih.1.trans (by simp [hnot]), fun hran left hleft => ?_⟩
        have hstart : Start (.directories :: ts) r left := start_behind_slash hleft
        rcases start_directories.mp hstart with rfl | hleft
        · -- right behind this slash it has been tried without success
          rw [covers_directories_iff, ← ih.1, hran]
          simp [hnot]
        · exact ih.2 hran left hleft
    · rw [coversLater_cons_iff hc, afterDirectories, if_neg hc]
      refine ⟨ih.1, fun hran left hleft => ih.2 hran left (hleft.imp_left fun hsuffix => ?_)⟩
      rcases List.suffix_cons_iff.mp hsuffix with heq | hsuffix
      · exact absurd (List.cons.inj heq).1.symm hc
      · exact hsuffix

/-- Trying one start after the other settles a pattern with `**` in front. -/
theorem settles_directories (h : ∀ s, Settles ts (f s) s) (s : List Char) :
    Settles (.directories :: ts)
      (match f s with | .no => afterDirectories f s | found => found) s := by
  obtain ⟨hyes, hran⟩ := settles_afterDirectories h s
  cases hout : f s with
  | yes => exact ⟨by simp [covers_directories_iff, (h s).yes.mp hout], by simp⟩
  | ranOut =>
    have hself := not_covers_here_of_ranOut (h s) hout
    exact ⟨by simp [hself], fun _ left hleft => not_covers_of_ranOut (h s) hout hleft⟩
  | no =>
    have hnot : ¬ Covers ts s := (h s).not_covers (by simp [hout])
    show Settles _ (afterDirectories f s) s
    have hiff : afterDirectories f s = .yes ↔ Covers (.directories :: ts) s := by
      rw [covers_directories_iff, hyes]
      simp [hnot]
    refine ⟨hiff, fun hout left hleft => ?_⟩
    rcases start_directories.mp hleft with rfl | hleft
    · rw [← hiff, hout]
      simp
    · exact hran hout left hleft

/-! ### The matcher -/

/-- Every `**` stands at the start, behind a slash, or behind another one. -/
def Seated : List Token → Prop
  | [] => True
  | .directories :: ts => Seated ts
  | t :: ts => (ts.head? = some .directories → t = .char '/') ∧ Seated ts

/-- What stands behind the first token of a seated pattern is seated. -/
theorem Seated.tail (h : Seated (t :: ts)) : Seated ts := by
  cases t with
  | directories => exact h
  | _ => exact h.2

/-- In front of `**` there is a slash. -/
theorem Seated.head (h : Seated (t :: ts)) (ht : t ≠ .directories)
    (hts : ts.head? = some .directories) : t = .char '/' := by
  cases t with
  | directories => exact absurd rfl ht
  | _ => exact h.1 hts

/-- A token for one character takes the first one. -/
theorem settles_one (hseq : t ≠ .sequence) (hdir : t ≠ .directories) (hseated : Seated (t :: ts))
    (h : Settles ts outcome r) :
    Settles (t :: ts) (if t.fits c then outcome else .no) (c :: r) := by
  have hhead : (t :: ts).head? ≠ some .directories := by simpa using hdir
  by_cases hc : t.fits c = true
  · rw [if_pos hc]
    have hstep : Covers (t :: ts) (c :: r) ↔ Covers ts r := by
      rw [covers_cons_iff hseq hdir]
      constructor
      · rintro ⟨_, _, heq, -, hrest⟩
        exact (List.cons.inj heq).2 ▸ hrest
      · intro hrest
        exact ⟨c, r, rfl, hc, hrest⟩
    refine ⟨h.yes.trans hstep.symm, fun hran left hstart hcovers => ?_⟩
    have hsuffix := (start_of_suffix hhead).mp hstart
    obtain ⟨d, rest, rfl, hd, hrest⟩ := (covers_cons_iff hseq hdir).mp hcovers
    refine h.ranOut hran rest ?_ hrest
    unfold Start
    split
    · -- a `**` behind this token means that the token is a slash
      rename_i hts
      obtain rfl := hseated.head hdir hts
      obtain rfl : d = '/' := Token.fits_char.mp hd
      rcases List.suffix_cons_iff.mp hsuffix with heq | hsuffix
      · exact .inl (List.cons.inj heq).2
      · exact .inr (.inl hsuffix)
    · rcases List.suffix_cons_iff.mp hsuffix with heq | hsuffix
      · exact (List.cons.inj heq).2 ▸ List.suffix_refl r
      · exact (List.suffix_cons d rest).trans hsuffix
  · rw [if_neg hc]
    refine ⟨⟨by simp, fun hcovers => ?_⟩, by simp⟩
    obtain ⟨_, _, heq, hd, -⟩ := (covers_cons_iff hseq hdir).mp hcovers
    exact absurd ((List.cons.inj heq).1 ▸ hd) hc

/-- **Matching.**  The matcher decides what a pattern describes, by induction on its tokens. -/
theorem settles_matchTokens (hseated : Seated ts) (s : List Char) :
    Settles ts (matchTokens ts s) s := by
  induction ts generalizing s with
  | nil =>
    cases s with
    | nil => exact ⟨by simp [matchTokens, covers_nil_iff], by simp [matchTokens]⟩
    | cons c r => exact ⟨by simp [matchTokens, covers_nil_iff], by simp [matchTokens]⟩
  | cons t ts ih =>
    have ih := ih hseated.tail
    by_cases hseq : t = .sequence
    · subst hseq
      -- before a `**` there is a slash, and not a `*`
      have hhead : ts.head? ≠ some .directories := fun hts =>
        absurd (hseated.head (by simp) hts) (by simp)
      unfold matchTokens
      exact settles_sequence hhead ih s
    · by_cases hdir : t = .directories
      · subst hdir
        unfold matchTokens
        exact settles_directories ih s
      · cases s with
        | nil =>
          have hran : matchTokens (t :: ts) [] = .ranOut := by
            cases t <;> simp_all [matchTokens]
          have hnil : ¬ Covers (t :: ts) [] := by
            rw [covers_cons_iff hseq hdir]
            simp
          rw [hran]
          refine ⟨by simp [hnil], fun _ left hstart => ?_⟩
          have hsuffix := (start_of_suffix (by simpa using hdir)).mp hstart
          obtain rfl := List.suffix_nil.mp hsuffix
          exact hnil
        | cons c r =>
          have hstep : matchTokens (t :: ts) (c :: r)
              = if t.fits c then matchTokens ts r else .no := by
            cases t <;> simp_all [matchTokens]
          rw [hstep]
          exact settles_one hseq hdir hseated (ih r)

/-! ### Patterns that were read -/

/-- A token may be put in front that is a slash or `**` where `**` follows. -/
theorem Seated.cons (h : Seated ts)
    (ht : ts.head? = some .directories → t = .char '/' ∨ t = .directories) : Seated (t :: ts) := by
  cases t with
  | directories => exact h
  | _ => exact ⟨fun hts => (ht hts).resolve_right (by simp), h⟩

/-- Tokens may be put behind others, a `**` only where it has its place. -/
theorem Seated.concat (h : Seated ts) (ht : t = .directories →
    ts = [] ∨ ts.getLast? = some (.char '/') ∨ ts.getLast? = some .directories) :
    Seated (ts ++ [t]) := by
  induction ts with
  | nil => exact .cons trivial (by simp)
  | cons u ts ih =>
    refine .cons (ih h.tail fun hdir => ?_) fun hhead => ?_
    · cases ts with
      | nil => exact .inl rfl
      | cons v ts => exact .inr (by simpa using ht hdir)
    · cases ts with
      | nil =>
        have hdir : t = .directories := by simpa using hhead
        simpa using ht hdir
      | cons v ts =>
        by_cases hu : u = .directories
        · exact .inr hu
        · exact .inl (h.head hu (by simpa using hhead))

/-- What the reader knows of the tokens it has read, newest first. -/
def SeatedSoFar (before : Option Char) (acc : List Token) : Prop :=
  Seated acc.reverse ∧ (Begins before →
    acc = [] ∨ acc.head? = some (.char '/') ∨ acc.head? = some .directories)

/-- Any token but `**` may be read behind what is seated so far. -/
theorem SeatedSoFar.push {before : Option Char} {acc : List Token} (h : SeatedSoFar before acc)
    (ht : t ≠ .directories) (hc : c = '/' → t = .char '/') : SeatedSoFar (some c) (t :: acc) := by
  refine ⟨?_, fun hbegins => .inr (.inl ?_)⟩
  · rw [List.reverse_cons]
    exact h.1.concat fun hdir => absurd hdir ht
  · have hslash : c = '/' := by simpa [Begins] using hbegins
    rw [hc hslash]
    rfl

/-- A `**` may be read where a component begins. -/
theorem SeatedSoFar.pushDirectories {before : Option Char} {acc : List Token}
    (h : SeatedSoFar before acc) (hb : Begins before) :
    SeatedSoFar (some '/') (pushDirectories acc) := by
  unfold Glob.pushDirectories
  split
  · exact ⟨h.1, fun _ => .inr (.inr rfl)⟩
  · refine ⟨?_, fun _ => .inr (.inr rfl)⟩
    rw [List.reverse_cons]
    refine h.1.concat fun _ => ?_
    rw [List.getLast?_reverse, List.reverse_eq_nil_iff]
    exact h.2 hb

/-- **Where `**` stands.**  In a pattern that was read, a `**` begins a component. -/
theorem seated_of_reads {before : Option Char} {acc : List Token} (h : Reads before acc s ts)
    (hacc : SeatedSoFar before acc) : Seated ts := by
  induction h with
  | done => exact hacc.1
  | last hb => exact (hacc.pushDirectories hb).1
  | directories hb _ ih => exact ih (hacc.pushDirectories hb)
  | char _ _ ih => exact ih (hacc.push (by simp) (by rintro rfl; rfl))
  | anyChar _ ih => exact ih (hacc.push (by simp) (by simp))
  | sequence _ _ ih => exact ih (hacc.push (by simp) (by simp))
  | within _ _ _ ih => exact ih (hacc.push (by simp) (by simp))
  | except _ _ ih => exact ih (hacc.push (by simp) (by simp))

/-- In every pattern that is read, `**` stands between slashes. -/
theorem seated_of_parse (h : parse s = .ok ts) : Seated ts :=
  seated_of_reads (parse_eq_ok_iff.mp h) ⟨trivial, fun _ => .inl rfl⟩

/-- **Matching.**  The matcher accepts the texts that a pattern describes, whatever the pattern and
    however many components the text has. -/
theorem accepts_iff_covers (h : parse s = .ok ts) : accepts ts x = true ↔ Covers ts x := by
  unfold accepts
  rw [beq_iff_eq]
  exact (settles_matchTokens (seated_of_parse h) x).yes

end DeclarationDocs.Glob
