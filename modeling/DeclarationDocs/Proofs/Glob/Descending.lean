import DeclarationDocs.Proofs.Glob.Composing

namespace DeclarationDocs.Glob

/-!
# Patterns with `/**` behind them

What is excluded is excluded with everything below it, and that is said by writing `/**` behind the
pattern.  A pattern that ends in `**` is hardly changed by this, since it matches what is below
anyway.  For every other one the two readings have to be put together: its own `**` may stand for
all there is only as long as nothing follows.

* `Covers.append` — what two patterns describe is described by the one behind the other, unless
  the first ends in `**`;
* `Reads.append_below` — how a pattern is read with `/**` behind it;
* `covers_or_below_iff` — the pattern or that with `/**` describes a text just when the pattern
  describes the text or what stands in front of one of its slashes.
-/

variable {ts us : List Token} {s x y : List Char} {before : Option Char} {acc : List Token}

/-! ### One pattern behind another -/

theorem getLast?_tail_ne {t u : Token} (h : (t :: ts).getLast? ≠ some u) :
    ts.getLast? ≠ some u := by
  cases ts with
  | nil => simp
  | cons v ts => simpa using h

/-- A text that is described by one pattern behind another is cut between them. -/
theorem Covers.exists_append (h : Covers (ts ++ us) x) :
    ∃ y z, x = y ++ z ∧ Covers ts y ∧ Covers us z := by
  induction ts generalizing x with
  | nil => exact ⟨[], x, rfl, .nil, h⟩
  | cons t ts ih =>
    cases h with
    | one hc h =>
      obtain ⟨y, z, rfl, hy, hz⟩ := ih h
      exact ⟨_ :: y, z, rfl, .one hc hy, hz⟩
    | sequence taken hslash h =>
      obtain ⟨y, z, rfl, hy, hz⟩ := ih h
      exact ⟨taken ++ y, z, (List.append_assoc ..).symm, .sequence taken hslash hy, hz⟩
    | nothing h =>
      obtain ⟨y, z, rfl, hy, hz⟩ := ih h
      exact ⟨y, z, rfl, .nothing hy, hz⟩
    | directories taken h =>
      obtain ⟨y, z, rfl, hy, hz⟩ := ih h
      exact ⟨taken ++ '/' :: y, z, by simp, .directories taken hy, hz⟩
    | everything taken h =>
      obtain ⟨y, z, hnil, hy, hz⟩ := ih h
      obtain ⟨rfl, rfl⟩ := List.append_eq_nil_iff.mp hnil.symm
      exact ⟨x, [], (List.append_nil x).symm, .everything x hy, hz⟩

/-- A pattern that ends in `**` describes whatever goes on behind a text that it describes. -/
theorem Covers.append_of_getLast? (h : Covers ts x) (hlast : ts.getLast? = some .directories)
    (more : List Char) : Covers ts (x ++ more) := by
  -- the last `**` takes what is added
  have htail : ∀ {t : Token} {ts : List Token}, (t :: ts).getLast? = some .directories → ts ≠ [] →
      ts.getLast? = some .directories := by
    intro t ts hlast hne
    rwa [← List.getLast?_cons_of_ne_nil hne]
  have hend : ∀ {ts : List Token} {x : List Char}, ts = [] →
      Covers (.directories :: ts) x := by
    rintro _ x rfl
    exact .everything x .nil
  induction h with
  | nil => exact absurd hlast (by simp)
  | @one t ts c s hc h ih =>
    refine .one hc (ih (htail hlast ?_))
    rintro rfl
    obtain rfl : t = .directories := by simpa using hlast
    exact absurd hc Bool.false_ne_true
  | sequence taken hslash h ih =>
    rw [List.append_assoc]
    refine .sequence taken hslash (ih (htail hlast ?_))
    rintro rfl
    exact absurd hlast (by simp)
  | @nothing ts s h ih =>
    by_cases hts : ts = []
    · exact hend hts
    · exact .nothing (ih (htail hlast hts))
  | @directories ts s taken h ih =>
    by_cases hts : ts = []
    · exact hend hts
    · rw [List.append_assoc]
      exact .directories taken (ih (htail hlast hts))
  | everything taken h => exact .everything _ h

/-- A pattern that describes the empty text and does not end in `**` ends in a `*`, which may take a
    name. -/
theorem Covers.append_name (h : Covers ts []) (hne : ts ≠ [])
    (hlast : ts.getLast? ≠ some .directories) (hx : '/' ∉ x) (hy : Covers us y) :
    Covers (ts ++ us) (x ++ y) := by
  induction ts with
  | nil => exact absurd rfl hne
  | cons t ts ih =>
    have hrest : Covers ts [] → ts ≠ [] → Covers (ts ++ us) (x ++ y) := fun h hts =>
      ih h hts (getLast?_tail_ne hlast)
    by_cases hseq : t = .sequence
    · subst hseq
      obtain ⟨taken, left, hnil, -, hleft⟩ := covers_sequence_iff.mp h
      obtain ⟨-, rfl⟩ := List.append_eq_nil_iff.mp hnil.symm
      by_cases hts : ts = []
      · subst hts
        exact .sequence x hx hy
      · exact .sequence [] (by simp) (hrest hleft hts)
    · by_cases hdir : t = .directories
      · subst hdir
        have hts : ts ≠ [] := by
          rintro rfl
          exact hlast rfl
        rcases covers_directories_iff.mp h with hleft | ⟨taken, left, hnil, -⟩ | hleft
        · exact .nothing (hrest hleft hts)
        · exact absurd hnil (by simp)
        · exact .nothing (hrest hleft hts)
      · obtain ⟨c, r, hnil, -⟩ := (covers_cons_iff hseq hdir).mp h
        exact absurd hnil (by simp)

/-- **One pattern behind another.**  Unless the first one ends in `**`, it describes what it did
    before in front of what the second describes. -/
theorem Covers.append (h : Covers ts x) (hlast : ts.getLast? ≠ some .directories)
    (hy : Covers us y) : Covers (ts ++ us) (x ++ y) := by
  induction h with
  | nil => exact hy
  | one hc _ ih => exact .one hc (ih (getLast?_tail_ne hlast))
  | sequence taken hslash _ ih =>
    rw [List.append_assoc]
    exact .sequence taken hslash (ih (getLast?_tail_ne hlast))
  | nothing _ ih => exact .nothing (ih (getLast?_tail_ne hlast))
  | directories taken _ ih =>
    rw [List.append_assoc]
    exact .directories taken (ih (getLast?_tail_ne hlast))
  | @everything ts taken h =>
    have hts : ts ≠ [] := by
      rintro rfl
      exact hlast rfl
    have hlast := getLast?_tail_ne hlast
    by_cases hslash : '/' ∈ taken
    · -- the `**` takes the directories, and a `*` behind it the last name
      obtain ⟨name, above, hcut, hname⟩ := List.eq_append_cons_of_mem (List.mem_reverse.mpr hslash)
      have hcut : taken = above.reverse ++ '/' :: name.reverse := by
        rw [← List.reverse_reverse taken, hcut]
        simp
      rw [hcut, List.append_assoc]
      exact .directories _ (h.append_name hts hlast (by simpa using hname) hy)
    · exact .nothing (h.append_name hts hlast hslash hy)

/-! ### Reading `/**` -/

/-- The tokens of a pattern with `/**` behind it, given those of the pattern. -/
def Below (ts us : List Token) : Prop :=
  us = ts ++ [.char '/', .directories] ∨
    ts.getLast? = some .directories ∧ (us = ts ∨ us = ts ++ [.directories])

/-- The reader goes on with `/**` behind the pattern; a `**` that follows another counts once,
    unless there is nothing in front of the two. -/
theorem Reads.append_below (h : Reads before acc s ts) :
    ∃ us, Reads before acc (s ++ "/**".toList) us ∧ Below ts us := by
  induction h with
  | @done before acc =>
    refine ⟨(.directories :: .char '/' :: acc).reverse, ?_, .inl (by simp)⟩
    exact .char (by decide) (.last (.inr rfl))
  | @last before acc hb =>
    have hlast : (pushDirectories acc).reverse.getLast? = some .directories := by
      rw [List.getLast?_reverse]
      rcases pushDirectories_cases acc with ⟨hsame, hhead⟩ | hpush
      · rw [hsame, hhead]
      · rw [hpush]
        rfl
    refine ⟨_, .directories hb (.last (.inr rfl)), .inr ⟨hlast, ?_⟩⟩
    rcases pushDirectories_cases (pushDirectories acc) with ⟨hsame, -⟩ | hpush
    · exact .inl (by rw [hsame])
    · exact .inr (by rw [hpush, List.reverse_cons])
  | char hc _ ih => exact ih.imp fun _ h => ⟨.char hc h.1, h.2⟩
  | anyChar _ ih => exact ih.imp fun _ h => ⟨.anyChar h.1, h.2⟩
  | @sequence _ _ r _ hr _ ih =>
    refine ih.imp fun _ h => ⟨.sequence ?_ h.1, h.2⟩
    -- what follows the star is the slash, or what followed it before
    cases r with
    | nil => simp
    | cons c r => exact hr
  | directories hb _ ih => exact ih.imp fun _ h => ⟨.directories hb h.1, h.2⟩
  | within hfirst hmore _ ih =>
    simp only [List.cons_append, List.append_assoc]
    exact ih.imp fun _ h => ⟨.within hfirst hmore h.1, h.2⟩
  | except hmore _ ih =>
    simp only [List.cons_append, List.append_assoc]
    exact ih.imp fun _ h => ⟨.except hmore h.1, h.2⟩

/-- **Below a pattern.**  A pattern or that with `/**` describes a text just when the pattern
    describes the text or a part of it that ends in front of a slash. -/
theorem covers_or_below_iff (h : Below ts us) :
    Covers ts x ∨ Covers us x ↔ Covers ts x ∨ ∃ y z, x = y ++ '/' :: z ∧ Covers ts y := by
  constructor
  · rintro (hx | hx)
    · exact .inl hx
    · rcases h with rfl | ⟨hlast, rfl | rfl⟩
      · obtain ⟨y, z, rfl, hy, hz⟩ := hx.exists_append
        obtain ⟨c, r, rfl, hc, -⟩ := (covers_cons_iff (by simp) (by simp)).mp hz
        obtain rfl : c = '/' := Token.fits_char.mp hc
        exact .inr ⟨y, r, rfl, hy⟩
      · exact .inl hx
      · obtain ⟨y, z, rfl, hy, -⟩ := hx.exists_append
        exact .inl (hy.append_of_getLast? hlast z)
  · rintro (hx | ⟨y, z, rfl, hy⟩)
    · exact .inl hx
    · by_cases hlast : ts.getLast? = some .directories
      · exact .inl (hy.append_of_getLast? hlast _)
      · obtain rfl := h.resolve_right fun hdir => hlast hdir.1
        have hslash : (Token.char '/').fits '/' = true := Token.fits_char.mpr rfl
        exact .inr (hy.append hlast (.one hslash (.everything z .nil)))

end DeclarationDocs.Glob
