import DeclarationDocs.Proofs.Glob.Covering

namespace DeclarationDocs.Glob

/-!
# Patterns component by component and as a whole

A walk reads a pattern component by component, and an exclude entry is read as a whole.  Both
readings agree on what they describe.

* `exists_reads_component` — a component is read behind other tokens as it is read alone;
* `exists_covers` — what the components describe name by name, the whole describes as a text;
* `accepts_of_matchesNames` — the matcher accepts the paths that a walk along the components finds.
-/

variable {ts us : List Token} {s x : List Char} {parts : List (List Char)}
  {patterns : List (List Token)} {names : List (List Char)} {before : Option Char}
  {acc : List Token}

/-- The tokens of a component do not depend on what was read before, and the reader goes on behind
    them. -/
theorem exists_reads_component (h : Reads before acc s ts) (hts : Token.directories ∉ ts) :
    ∃ us, ts = acc.reverse ++ us ∧ ∀ before' acc',
      Reads before' acc' s (acc'.reverse ++ us) ∧
        ∀ r ts', Reads (some '/') (.char '/' :: (us.reverse ++ acc')) r ts' →
          Reads before' acc' (s ++ '/' :: r) ts' := by
  -- one more token in front, however the reader comes to it
  have hpush : ∀ {t : Token} {acc us : List Token}, (t :: acc).reverse ++ us =
      acc.reverse ++ (t :: us) := by simp
  have hpop : ∀ {t : Token} {acc us : List Token}, (t :: us).reverse ++ acc =
      us.reverse ++ (t :: acc) := by simp
  have hno : ∀ {acc : List Token}, Token.directories ∈ pushDirectories acc := by
    intro acc
    unfold pushDirectories
    split <;> simp
  induction h with
  | done =>
    refine ⟨[], by simp, fun before' acc' => ⟨?_, fun r ts' hr => .char (by decide) hr⟩⟩
    simpa using Reads.done
  | last => exact absurd (List.mem_reverse.mpr hno) hts
  | directories _ h => exact absurd (h.acc_prefix.mem (List.mem_reverse.mpr hno)) hts
  | char hc _ ih =>
    obtain ⟨us, rfl, hus⟩ := ih hts
    refine ⟨_ :: us, hpush, fun before' acc' => ⟨?_, fun r ts' hr => ?_⟩⟩
    · exact .char hc (hpush ▸ (hus _ _).1)
    · exact .char hc ((hus _ _).2 r ts' (hpop ▸ hr))
  | anyChar _ ih =>
    obtain ⟨us, rfl, hus⟩ := ih hts
    refine ⟨_ :: us, hpush, fun before' acc' => ⟨?_, fun r ts' hr => ?_⟩⟩
    · exact .anyChar (hpush ▸ (hus _ _).1)
    · exact .anyChar ((hus _ _).2 r ts' (hpop ▸ hr))
  | @sequence _ _ r' _ hr' _ ih =>
    obtain ⟨us, rfl, hus⟩ := ih hts
    refine ⟨_ :: us, hpush, fun before' acc' => ⟨?_, fun r ts' hr => ?_⟩⟩
    · exact .sequence hr' (hpush ▸ (hus _ _).1)
    · refine .sequence ?_ ((hus _ _).2 r ts' (hpop ▸ hr))
      -- what follows the star is a slash, or what followed it before
      cases r' with
      | nil => simp
      | cons c r' => exact hr'
  | within hfirst hmore _ ih =>
    obtain ⟨us, rfl, hus⟩ := ih hts
    refine ⟨_ :: us, hpush, fun before' acc' => ⟨?_, fun r ts' hr => ?_⟩⟩
    · exact .within hfirst hmore (hpush ▸ (hus _ _).1)
    · simp only [List.cons_append, List.append_assoc]
      exact .within hfirst hmore ((hus _ _).2 r ts' (hpop ▸ hr))
  | except hmore _ ih =>
    obtain ⟨us, rfl, hus⟩ := ih hts
    refine ⟨_ :: us, hpush, fun before' acc' => ⟨?_, fun r ts' hr => ?_⟩⟩
    · exact .except hmore (hpush ▸ (hus _ _).1)
    · simp only [List.cons_append, List.append_assoc]
      exact .except hmore ((hus _ _).2 r ts' (hpop ▸ hr))

/-- A name that fits a component is described by it in front of anything else. -/
theorem Fits.covers_append {n : List Char} (h : Fits ts n) (hx : Covers us x) :
    Covers (ts ++ us) (n ++ x) := by
  induction h with
  | nil => exact hx
  | one hc _ ih => exact .one hc ih
  | sequence taken hslash _ ih =>
    rw [List.append_assoc]
    exact .sequence taken hslash ih

/-- Directories in front of what a `**` describes are described by it as well. -/
theorem Covers.append_slash (h : Covers (.directories :: us) x) (taken : List Char) :
    Covers (.directories :: us) (taken ++ '/' :: x) := by
  rcases covers_directories_iff.mp h with hleft | ⟨more, left, rfl, hleft⟩ | hleft
  · exact .directories taken hleft
  · rw [← List.cons_append, ← List.append_assoc]
    exact .directories _ hleft
  · exact .everything _ hleft

/-- What a `**` describes in front of other components, given what these describe. -/
theorem covers_directories_join (hts : isRecursive ts = true) (hroute : Route patterns)
    (h : ∀ names, MatchesNames patterns names →
      Covers (.directories :: us) (Path.joinSegments names))
    (hnames : MatchesNames (ts :: patterns) names) :
    Covers (.directories :: us) (Path.joinSegments names) := by
  obtain ⟨left, ⟨taken, rfl⟩, hleft⟩ := (matchesNames_directories_iff hts).mp hnames
  by_cases htaken : taken = []
  · subst htaken
    exact h left hleft
  · rw [Path.joinSegments_append htaken (hroute.ne_nil hleft)]
    exact (h left hleft).append_slash _

/-- A `**` is put behind what was read, unless one has just been read. -/
theorem pushDirectories_cases (acc : List Token) :
    (pushDirectories acc = acc ∧ acc.head? = some .directories) ∨
      pushDirectories acc = .directories :: acc := by
  unfold pushDirectories
  split
  · exact .inl ⟨rfl, rfl⟩
  · exact .inr rfl

/-- What a pattern describes that was read behind `acc`; if a `**` was read last, it may have
    stood for some of it. -/
def CoversBehind (acc us : List Token) (x : List Char) : Prop :=
  Covers us x ∨ acc.head? = some .directories ∧ Covers (.directories :: us) x

theorem CoversBehind.directories (h : CoversBehind acc us x) : Covers (.directories :: us) x :=
  h.elim .nothing And.right

/-- **Components and the whole.**  A pattern that is a route is read as a whole, and describes
    every path that it describes name by name.  By induction on the components, each read behind
    the tokens of those before it. -/
theorem exists_covers (hparts : List.Forall₂ (fun s ts => parse s = .ok ts) parts patterns)
    (hslash : ∀ s ∈ parts, '/' ∉ s) (hroute : Route patterns) (before : Option Char)
    (acc : List Token) (hb : Begins before) :
    ∃ us, Reads before acc (Path.joinSegments parts) (acc.reverse ++ us) ∧
      ∀ names, MatchesNames patterns names → CoversBehind acc us (Path.joinSegments names) := by
  induction hparts generalizing before acc with
  | nil => cases hroute
  | @cons s ts parts patterns hs hparts ih =>
    obtain ⟨hslash, hrest⟩ := List.forall_mem_cons.mp hslash
    by_cases hrec : isRecursive ts = true
    · obtain rfl := eq_of_isRecursive hs hslash hrec
      cases hparts with
      | nil =>
        cases hroute with
        | last hts => exact absurd (hts.symm.trans hrec) (by simp)
        | cons _ hnil => cases hnil
      | @cons part us parts patterns hpart hparts =>
        have htail := hroute.tail (by simp)
        rcases pushDirectories_cases acc with ⟨hpush, hhead⟩ | hpush
        · obtain ⟨us, hreads, hus⟩ := ih hrest htail (some '/') acc (.inr rfl)
          refine ⟨us, .directories hb ?_, fun names hnames => .inr ⟨hhead, ?_⟩⟩
          · rw [hpush]
            exact hreads
          · exact covers_directories_join hrec htail (fun names h => (hus names h).directories)
              hnames
        · obtain ⟨us, hreads, hus⟩ :=
            ih hrest htail (some '/') (.directories :: acc) (.inr rfl)
          refine ⟨.directories :: us, .directories hb ?_, fun names hnames => .inl ?_⟩
          · rw [hpush]
            simpa using hreads
          · exact covers_directories_join hrec htail (fun names h => (hus names h).directories)
              hnames
    · have hrec : isRecursive ts = false := by simpa using hrec
      obtain ⟨us, hus, hcomponent⟩ :=
        exists_reads_component (parse_eq_ok_iff.mp hs) (by simpa [isRecursive] using hrec)
      obtain rfl : ts = us := by simpa using hus
      cases hparts with
      | nil =>
        refine ⟨ts, (hcomponent before acc).1, fun names hnames => .inl ?_⟩
        obtain ⟨n, left, rfl, hn, hleft⟩ := (matchesNames_name_iff hrec).mp hnames
        obtain rfl := matchesNames_nil_iff.mp hleft
        simpa [Path.joinSegments] using hn.covers_append .nil
      | @cons part us parts patterns hpart hparts =>
        have htail := hroute.tail (by simp)
        obtain ⟨us', hreads, hus'⟩ := ih hrest htail (some '/')
          (.char '/' :: (ts.reverse ++ acc)) (.inr rfl)
        refine ⟨ts ++ .char '/' :: us', ?_, fun names hnames => .inl ?_⟩
        · show Reads before acc (s ++ '/' :: Path.joinSegments (part :: parts)) _
          simpa using (hcomponent before acc).2 _ _ hreads
        · obtain ⟨n, left, rfl, hn, hleft⟩ := (matchesNames_name_iff hrec).mp hnames
          have hjoin : Path.joinSegments (n :: left) = n ++ '/' :: Path.joinSegments left :=
            Path.joinSegments_append (a := [n]) (by simp) (htail.ne_nil hleft)
          -- a slash is no `**`, so what follows is described by its own tokens
          have hcovers := (hus' left hleft).resolve_right (by simp)
          rw [hjoin]
          exact hn.covers_append (.one (Token.fits_char.mpr rfl) hcovers)

/-- A path that the components of a pattern describe is accepted by the whole pattern. -/
theorem accepts_of_matchesNames
    (hparts : List.Forall₂ (fun s ts => parse s = .ok ts) parts patterns)
    (hslash : ∀ s ∈ parts, '/' ∉ s) (hroute : Route patterns)
    (hnames : MatchesNames patterns names) :
    ∃ ts, parse (Path.joinSegments parts) = .ok ts ∧
      accepts ts (Path.joinSegments names) = true := by
  obtain ⟨us, hreads, hus⟩ := exists_covers hparts hslash hroute none [] (.inl rfl)
  have hparse := parse_eq_ok_iff.mpr hreads
  refine ⟨_, hparse, (accepts_iff_covers hparse).mpr ?_⟩
  simpa using (hus names hnames).resolve_right (by simp)

end DeclarationDocs.Glob
