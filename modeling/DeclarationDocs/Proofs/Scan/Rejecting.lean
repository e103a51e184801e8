import DeclarationDocs.Proofs.Glob.Descending
import DeclarationDocs.Proofs.Path.Relative
import DeclarationDocs.Proofs.Scan.Selecting

namespace DeclarationDocs.SourceScan

/-!
# How far an exclude entry reaches

An exclude entry is only ever matched with the path of a file, as it is and with `/**` behind it.
That is as good as matching it with the file and with every directory between the root and the
file.

* `Matches entry names` — the entry itself matches the path that the names spell;
* `s.Rejects entry p` — a pattern of the entry accepts the path by which a file is judged;
* `excludes_iff_matches` — `Excludes entry names` just when `Matches entry (names.take k)` for some
  `k` from 1 to `names.length`;
* `keeps_nil_iff` — without exclude entries a scan keeps what has a dialect and is below no
  `node_modules`;
* `rejects_iff_matches` — the same for `s.Rejects entry p`, and `s.keeps excluded p` for what has a
  dialect, is below no `node_modules` and is rejected by no entry.
-/

variable {s : SourceScan} {entry : String} {names : List (List Char)} {p : Path} {x : List Char}
  {excluded : List (List Glob.Token)}

/-- Whether an exclude entry, without the slashes at its end, matches the path that the names
    spell. -/
def Matches (entry : String) (names : List (List Char)) : Prop :=
  ∃ ts, Glob.parse (trimSlashes entry.toList) = .ok ts ∧
    Glob.accepts ts (Path.joinSegments names) = true

/-- The text by which a file is judged. -/
def judged (s : SourceScan) (p : Path) : List Char :=
  (s.relative p).chars.map fun c => if c = '\\' then '/' else c

/-- Whether a pattern of an exclude entry accepts a file. -/
def Rejects (s : SourceScan) (entry : String) (p : Path) : Prop :=
  ∃ patterns, excludePatternsOf entry = .ok patterns ∧
    ∃ ts ∈ patterns, Glob.accepts ts (s.judged p) = true

/-! ### Entries and the directories above a file -/

/-- What stands in front of a slash of a path are the first few of its names. -/
theorem exists_cut_iff (hne : names ≠ []) (hslash : ∀ n ∈ names, '/' ∉ n) {f : List Char → Prop} :
    (∃ y z, Path.joinSegments names = y ++ '/' :: z ∧ f y) ↔
      ∃ k, 1 ≤ k ∧ k < names.length ∧ f (Path.joinSegments (names.take k)) := by
  constructor
  · rintro ⟨y, z, hcut, hy⟩
    have hnames : names = Text.splitAt '/' y ++ Text.splitAt '/' z := by
      rw [← Path.splitAt_joinSegments hne hslash, hcut, Text.splitAt_append_cons]
    have hy₀ := List.length_pos_iff.mpr (Text.splitAt_ne_nil '/' y)
    have hz₀ := List.length_pos_iff.mpr (Text.splitAt_ne_nil '/' z)
    refine ⟨(Text.splitAt '/' y).length, hy₀, ?_, ?_⟩
    · rw [hnames, List.length_append]
      omega
    · rw [hnames, List.take_left, Path.joinSegments_splitAt]
      exact hy
  · rintro ⟨k, hk, hlt, hy⟩
    refine ⟨_, Path.joinSegments (names.drop k), ?_, hy⟩
    have htake : names.take k ≠ [] := by
      rw [← List.length_pos_iff, List.length_take]
      omega
    have hdrop : names.drop k ≠ [] := by
      rw [← List.length_pos_iff, List.length_drop]
      omega
    rw [← Path.joinSegments_append htake hdrop, List.take_append_drop]

/-- **Entries reach below directories.**  An exclude entry excludes the path that names spell just
    when it matches the path of the first few of them, or of all. -/
theorem excludes_iff_matches (h : Glob.Accepted (trimSlashes entry.toList)) (hne : names ≠ [])
    (hslash : ∀ n ∈ names, '/' ∉ n) :
    Excludes entry names ↔ ∃ k, 1 ≤ k ∧ k ≤ names.length ∧ Matches entry (names.take k) := by
  obtain ⟨ts, hts⟩ := h
  obtain ⟨us, hus, hbelow⟩ := (Glob.parse_eq_ok_iff.mp hts).append_below
  have hus := Glob.parse_eq_ok_iff.mpr hus
  have hmatches : ∀ ns, Matches entry ns ↔ Glob.Covers ts (Path.joinSegments ns) := by
    intro ns
    simp only [Matches, hts, Except.ok.injEq, exists_eq_left']
    exact Glob.accepts_iff_covers hts
  have hexcludes : Excludes entry names ↔
      Glob.Covers ts (Path.joinSegments names) ∨ Glob.Covers us (Path.joinSegments names) := by
    simp only [Excludes, hts, hus, Except.ok.injEq]
    rw [← Glob.accepts_iff_covers hts, ← Glob.accepts_iff_covers hus]
    simp only [or_and_right, exists_or, exists_eq_left']
  rw [hexcludes, Glob.covers_or_below_iff hbelow, exists_cut_iff hne hslash]
  simp only [hmatches]
  constructor
  · rintro (hall | ⟨k, hk, hlt, hsome⟩)
    · refine ⟨names.length, List.length_pos_iff.mpr hne, Nat.le_refl _, ?_⟩
      rwa [List.take_length]
    · exact ⟨k, hk, hlt.le, hsome⟩
  · rintro ⟨k, hk, hle, hsome⟩
    rcases hle.lt_or_eq with hlt | rfl
    · exact .inr ⟨k, hk, hlt, hsome⟩
    · rw [List.take_length] at hsome
      exact .inl hsome

/-! ### The test of a scan -/

/-- The patterns of an entry accept what the entry excludes. -/
theorem rejects_iff_excludes (h : ∃ patterns, excludePatternsOf entry = .ok patterns) :
    s.Rejects entry p ↔ Excludes entry [s.judged p] := by
  obtain ⟨patterns, hpatterns⟩ := h
  obtain ⟨ts, us, rfl, hts, hus⟩ := excludePatternsOf_eq_ok_iff.mp hpatterns
  have hone : Path.joinSegments [s.judged p] = s.judged p := rfl
  simp only [Rejects, Excludes, hpatterns, hts, hus, hone, Except.ok.injEq, exists_eq_left',
    List.mem_cons, List.not_mem_nil, or_false, or_and_right, exists_or, exists_eq_left]

/-- A scan keeps what it would keep without exclude entries, unless one of them rejects it. -/
theorem keeps_iff_not_rejects (h : excludePatterns s.excludes = .ok excluded) :
    s.keeps excluded p = true ↔
      s.keeps [] p = true ∧ ∀ entry ∈ s.excludes, ¬ s.Rejects entry p := by
  have hany : (excluded.any fun ts => Glob.accepts ts (s.judged p)) = true ↔
      ∃ entry ∈ s.excludes, s.Rejects entry p := by
    obtain ⟨lists, hlists, -⟩ := map_eq_ok_iff.mp h
    show (excluded.any fun ts => Glob.accepts ts (Path.joinSegments [s.judged p])) = true ↔ _
    rw [any_accepts_iff h]
    refine exists_congr fun entry => and_congr_right fun hentry => ?_
    rw [rejects_iff_excludes (exists_of_mapM hlists hentry)]
  have hnone : ([].any fun ts => Glob.accepts ts (s.judged p)) = false := rfl
  unfold judged at hany hnone
  unfold keeps
  simp only [Bool.and_eq_true, Bool.not_eq_true', ← Bool.not_eq_true, hany, hnone, not_exists,
    not_and, and_true]

/-- Without exclude entries a scan keeps what has a dialect and is below no `node_modules`. -/
theorem keeps_nil_iff : s.keeps [] p = true ↔
    (Dialect.ofPath? p).isSome = true ∧ "node_modules".toList ∉ (s.relative p).names := by
  have hskipped : ((s.relative p).names.any fun n => skippedNames.contains n) = true ↔
      "node_modules".toList ∈ (s.relative p).names := by
    simp [skippedNames]
  unfold keeps
  simp only [List.any_nil, Bool.not_false, Bool.and_true, Bool.and_eq_true, Bool.not_eq_true',
    ← Bool.not_eq_true, hskipped]

/-- **What an exclude entry rejects.**  Let `s.relative p` consist of `names`, none of which holds
    a slash or a backslash.  An exclude entry rejects `p` (`s.Rejects entry p`) just when it
    `Matches` the first `k` names for some `k ≥ 1`, which are the path of the file or of a
    directory between the root and the file.  Without exclude entries `s.keeps [] p` says that the
    file has a dialect and is below no `node_modules`, and with them `s.keeps excluded p` says the
    same unless an entry rejects it. -/
theorem rejects_iff_matches (h : excludePatterns s.excludes = .ok excluded)
    (hp : s.relative p = ⟨Path.joinSegments names⟩) (hne : names ≠ [])
    (hnames : ∀ n ∈ names, '/' ∉ n ∧ '\\' ∉ n) :
    (∀ entry ∈ s.excludes, s.Rejects entry p ↔
      ∃ k, 1 ≤ k ∧ k ≤ names.length ∧ Matches entry (names.take k)) ∧
    (s.keeps [] p = true ↔
      (Dialect.ofPath? p).isSome = true ∧ "node_modules".toList ∉ names) ∧
    (s.keeps excluded p = true ↔
      s.keeps [] p = true ∧ ∀ entry ∈ s.excludes, ¬ s.Rejects entry p) := by
  refine ⟨fun entry hentry => ?_, ?_, keeps_iff_not_rejects h⟩
  case refine_2 =>
    rw [keeps_nil_iff, hp,
      Path.mem_names_joinSegments_iff hne (fun n hn => (hnames n hn).1) (by decide)]
  -- there is no backslash that could become a slash
  have hjudged : s.judged p = Path.joinSegments names := by
    unfold judged
    rw [hp]
    refine (List.map_congr_left fun c hc => if_neg ?_).trans (List.map_id _)
    rintro rfl
    rcases Path.mem_joinSegments hc with hslash | ⟨n, hn, hcn⟩
    · exact absurd hslash (by decide)
    · exact (hnames n hn).2 hcn
  obtain ⟨lists, hlists, -⟩ := map_eq_ok_iff.mp h
  obtain ⟨patterns, hpatterns⟩ := exists_of_mapM hlists hentry
  obtain ⟨ts, us, -, hts, -⟩ := excludePatternsOf_eq_ok_iff.mp hpatterns
  have hspelled : Excludes entry [s.judged p] ↔ Excludes entry names := by
    rw [hjudged]
    rfl
  rw [rejects_iff_excludes ⟨patterns, hpatterns⟩, hspelled]
  exact excludes_iff_matches ⟨ts, hts⟩ hne fun n hn => (hnames n hn).1

/-- A scan with an exclude entry that ends in `**` and a slash, and one that begins with `**`. -/
def reaching : SourceScan := ⟨⟨"/p".toList⟩, ["**/*"], ["lib/**/", "**/g*"]⟩

/-- A source below a directory `gen` that the entry `**/g*` matches: it would be kept without
    exclude entries, and is not kept with them. -/
theorem rejects_iff_matches_deep :
    let p : Path := ⟨"/p/src/gen/api/a.ts".toList⟩
    let names : List (List Char) := ["src".toList, "gen".toList, "api".toList, "a.ts".toList]
    ∃ excluded, excludePatterns reaching.excludes = .ok excluded ∧
      reaching.relative p = ⟨Path.joinSegments names⟩ ∧
      Matches "**/g*" (names.take 2) ∧ reaching.Rejects "**/g*" p ∧
      reaching.keeps [] p = true ∧ reaching.keeps excluded p = false := by
  intro p names
  have hlib : Glob.parse (trimSlashes "lib/**/".toList) =
      .ok [.char 'l', .char 'i', .char 'b', .char '/', .directories] := by
    refine Glob.parse_eq_ok_iff.mpr ?_
    show Glob.Reads none [] ['l', 'i', 'b', '/', '*', '*'] _
    exact .char (by decide) (.char (by decide) (.char (by decide) (.char (by decide)
      (.last (.inr rfl)))))
  have hgen : Glob.parse (trimSlashes "**/g*".toList) =
      .ok [.directories, .char 'g', .sequence] := by
    refine Glob.parse_eq_ok_iff.mpr ?_
    show Glob.Reads none [] ['*', '*', '/', 'g', '*'] _
    exact .directories (.inl rfl) (.char (by decide) (.sequence (by decide) .done))
  obtain ⟨excluded, hexcluded⟩ : ∃ excluded, excludePatterns reaching.excludes = .ok excluded := by
    refine exists_excludePatterns fun entry hentry => ?_
    rcases List.mem_cons.mp hentry with rfl | hentry
    · exact ⟨_, hlib⟩
    · obtain rfl := List.mem_singleton.mp hentry
      exact ⟨_, hgen⟩
  have hrelative : reaching.relative p = ⟨Path.joinSegments names⟩ := by decide
  have hne : names ≠ [] := by decide
  obtain ⟨hrejects, hnil, hkeeps⟩ := rejects_iff_matches hexcluded hrelative hne (by decide)
  have hmatches : Matches "**/g*" (names.take 2) := ⟨_, hgen, by decide +kernel⟩
  have hrejected : reaching.Rejects "**/g*" p :=
    (hrejects "**/g*" (by simp [reaching])).mpr ⟨2, by decide, by decide, hmatches⟩
  have hkept : reaching.keeps [] p = true := hnil.mpr ⟨by decide, by decide⟩
  refine ⟨excluded, hexcluded, hrelative, hmatches, hrejected, hkept, ?_⟩
  rw [Bool.eq_false_iff]
  exact fun h => (hkeeps.mp h).2 "**/g*" (by simp [reaching]) hrejected

end DeclarationDocs.SourceScan
