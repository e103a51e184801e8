import DeclarationDocs.Proofs.Scan.Selecting

namespace DeclarationDocs.SourceScan

/-!
# Scans of more entries

The paths that a scan has collected are shared by all of its include entries, so what one entry
adds depends on the entries before it.  Still a scan of two lists of entries is a scan of the one
and a scan of the other: collecting does not care where the paths come from that it leaves out.
Of the exclude entries a scan only uses which ones there are.

* `unite` — what another scan adds to the paths of a scan;
* `addNew_unite`, `foldl_addNew_unite` — one more path, and any number of them, are added to what
  was united by adding them to the second part;
* `run_append` — the run for `as ++ bs` is `unite xs ys` of the runs for `as` and for `bs`, or the
  first failure;
* `run_excludes` — the exclude entries in another order, or some of them twice;
* `run_composes` — both together.
-/

variable {s : SourceScan} {t : FileTree} {cwd : Place} {entries : List String}
  {files : List Path} {p q : Path}

/-! ### Uniting paths -/

/-- Paths, and behind them those of others that are not among them. -/
def unite (paths more : List Path) : List Path :=
  paths ++ more.filter fun p => !paths.any p.same

/-- Nothing is added by no paths. -/
theorem unite_nil (paths : List Path) : unite paths [] = paths := by
  rw [unite, List.filter_nil, List.append_nil]

/-- Texts of one path are texts of the same paths. -/
theorem same_eq_of_same (h : p.same q = true) : p.same = q.same := by
  funext r
  rw [Path.same, Path.same, beq_iff_eq.mp h]

/-- A path is among the united ones if it is among the ones or the others. -/
theorem any_same_unite (paths more : List Path) (q : Path) :
    (unite paths more).any q.same = (paths.any q.same || more.any q.same) := by
  rw [unite, List.any_append, List.any_filter, Bool.eq_iff_iff]
  simp only [Bool.or_eq_true, List.any_eq_true, Bool.and_eq_true, Bool.not_eq_true']
  constructor
  · rintro (h | ⟨p, hp, -, hsame⟩)
    · exact .inl h
    · exact .inr ⟨p, hp, hsame⟩
  · rintro (h | ⟨p, hp, hsame⟩)
    · exact .inl h
    · by_cases hold : paths.any q.same = true
      · exact .inl (List.any_eq_true.mp hold)
      -- a path that is equal to `q` is left out just when `q` is
      · exact .inr ⟨p, hp, by rw [← same_eq_of_same hsame]; simpa using hold, hsame⟩

/-- **One more path.**  It is new to what was united if it is new to both parts. -/
theorem addNew_unite (paths more : List Path) (q : Path) :
    addNew (unite paths more) q = unite paths (addNew more q) := by
  rw [addNew, addNew, any_same_unite]
  by_cases hold : paths.any q.same = true
  · have hleft : (more ++ [q]).filter (fun p => !paths.any p.same)
        = more.filter fun p => !paths.any p.same := by simp [List.filter_append, hold]
    rw [hold, Bool.true_or, if_pos rfl]
    split
    · rfl
    · rw [unite, unite, hleft]
  · rw [Bool.not_eq_true] at hold
    rw [hold, Bool.false_or]
    split
    · rfl
    · simp [unite, List.filter_append, hold]

/-- Paths that are collected behind others are collected on their own and then united. -/
theorem foldl_addNew_unite (paths candidates : List Path) :
    candidates.foldl addNew paths = unite paths (candidates.foldl addNew []) := by
  have hhom : candidates.foldl addNew (unite paths []) = unite paths (candidates.foldl addNew []) :=
    List.foldl_hom (unite paths) fun more q => addNew_unite paths more q
  rwa [unite_nil] at hhom

/-! ### Include entries -/

/-- **More include entries.**  A scan of two lists of entries finds what the first one leads to,
    and behind it what is new of the second one; it fails as the first of the two scans that
    does. -/
theorem run_append (s : SourceScan) (t : FileTree) (cwd : Place) (as bs : List String) :
    ({ s with includes := as ++ bs }).run t cwd = (do
      let xs ← ({ s with includes := as }).run t cwd
      let ys ← ({ s with includes := bs }).run t cwd
      .ok (unite xs ys)) := by
  -- what an entry contributes does not depend on the others
  have hrun : ∀ entries : List String, ({ s with includes := entries }).run t cwd =
      (excludePatterns s.excludes).bind fun excluded =>
        (entries.mapM (s.candidatesOf t cwd excluded)).map
          fun lists => lists.flatten.foldl addNew [] := fun entries => run_eq _ t cwd
  rw [hrun, hrun, hrun]
  cases excludePatterns s.excludes with
  | error e => rfl
  | ok excluded =>
    simp only [Except.bind, List.mapM_append]
    cases as.mapM (s.candidatesOf t cwd excluded) with
    | error e => rfl
    | ok lists =>
      cases bs.mapM (s.candidatesOf t cwd excluded) with
      | error e => rfl
      | ok lists' =>
        show Except.ok ((lists ++ lists').flatten.foldl addNew []) = _
        rw [List.flatten_append, List.foldl_append, foldl_addNew_unite]
        rfl

/-! ### Exclude entries -/

/-- The test of a scan depends on which exclude entries there are, and on nothing else. -/
theorem keeps_congr {entries' : List String} {excluded excluded' : List (List Glob.Token)}
    (h : excludePatterns entries = .ok excluded) (h' : excludePatterns entries' = .ok excluded')
    (hmem : ∀ e, e ∈ entries ↔ e ∈ entries') : s.keeps excluded = s.keeps excluded' := by
  have hany (text : List Char) : (excluded.any fun ts => Glob.accepts ts text)
      = excluded'.any fun ts => Glob.accepts ts text := by
    -- the text is that of a path with one name
    have hone : Path.joinSegments [text] = text := rfl
    rw [← hone, Bool.eq_iff_iff, any_accepts_iff h, any_accepts_iff h']
    simp only [hmem]
  funext p
  rw [keeps, keeps, hany]

/-- Entries that are among those of a list of patterns are patterns. -/
theorem exists_excludePatterns_of_subset {entries' : List String}
    {excluded : List (List Glob.Token)} (h : excludePatterns entries = .ok excluded)
    (hsub : entries' ⊆ entries) : ∃ excluded', excludePatterns entries' = .ok excluded' := by
  obtain ⟨lists, hlists, -⟩ := map_eq_ok_iff.mp h
  obtain ⟨lists', hlists'⟩ := exists_mapM_eq_ok fun e he => exists_of_mapM hlists (hsub he)
  exact ⟨lists'.flatten, map_eq_ok_iff.mpr ⟨lists', hlists', rfl⟩⟩

/-- **Other exclude entries.**  A scan that succeeds does so with its exclude entries in any order
    and any of them repeated, and it finds the same files. -/
theorem run_excludes (h : s.run t cwd = .ok files) (hmem : ∀ e, e ∈ entries ↔ e ∈ s.excludes) :
    ({ s with excludes := entries }).run t cwd = .ok files := by
  rw [run_eq] at h
  obtain ⟨excluded, hexcluded, h⟩ := bind_eq_ok_iff.mp h
  obtain ⟨excluded', hexcluded'⟩ :=
    exists_excludePatterns_of_subset hexcluded fun e he => (hmem e).mp he
  rw [run_eq]
  refine bind_eq_ok_iff.mpr ⟨excluded', hexcluded', ?_⟩
  -- with the same test every entry contributes the same
  have hcandidates : ({ s with excludes := entries }).candidatesOf t cwd excluded'
      = s.candidatesOf t cwd excluded := by
    funext entry
    show (s.found t cwd entry).map (List.filter (s.keeps excluded')) = _
    rw [keeps_congr hexcluded' hexcluded hmem, candidatesOf]
  rw [hcandidates]
  exact h

/-! ### Both -/

/-- **Scans compose.**  `s.run` for the include entries `as ++ bs` is the run for `as`, united
    with what the run for `bs` adds to it, or the first failure among them; and it does not matter
    in which order or how often the exclude entries stand. -/
theorem run_composes (s : SourceScan) (t : FileTree) (cwd : Place) (as bs : List String) :
    ({ s with includes := as ++ bs }).run t cwd = (do
      let xs ← ({ s with includes := as }).run t cwd
      let ys ← ({ s with includes := bs }).run t cwd
      .ok (unite xs ys)) ∧
    ∀ entries, (∀ e, e ∈ entries ↔ e ∈ s.excludes) → ∀ files, s.run t cwd = .ok files →
      ({ s with excludes := entries }).run t cwd = .ok files :=
  ⟨run_append s t cwd as bs, fun _ hmem _ h => run_excludes h hmem⟩

/-- Two sources in a directory. -/
def siblingTree : FileTree :=
  ⟨[(["p".toList], .directory),
    (["p".toList, "src".toList], .directory),
    (["p".toList, "src".toList, "a.ts".toList], .file (.text "")),
    (["p".toList, "src".toList, "b.ts".toList], .file (.text ""))]⟩

/-- A scan that finds one of the sources by two spellings of its path. -/
def twiceFound : SourceScan :=
  ⟨⟨"/p".toList⟩, ["src/a.ts", "./src/a.ts", "./src/b.ts"], ["lib", "*.d.ts"]⟩

/-- The second spelling is left out, and the exclude entries can be written in another way. -/
theorem run_composes_current :
    let files : List Path := [⟨"/p/src/a.ts".toList⟩, ⟨"/p/./src/b.ts".toList⟩]
    let otherwise : SourceScan := { twiceFound with excludes := ["*.d.ts", "lib", "lib"] }
    twiceFound.run siblingTree [] = .ok files ∧ otherwise.run siblingTree [] = .ok files := by
  intro files otherwise
  have hfirst : ({ twiceFound with includes := ["src/a.ts"] }).run siblingTree []
      = .ok [⟨"/p/src/a.ts".toList⟩] := by
    rw [← toOption_eq_some_iff]
    decide +kernel
  have hsecond : ({ twiceFound with includes := ["./src/a.ts", "./src/b.ts"] }).run siblingTree []
      = .ok [⟨"/p/./src/a.ts".toList⟩, ⟨"/p/./src/b.ts".toList⟩] := by
    rw [← toOption_eq_some_iff]
    decide +kernel
  obtain ⟨happend, hexcludes⟩ :=
    run_composes twiceFound siblingTree [] ["src/a.ts"] ["./src/a.ts", "./src/b.ts"]
  rw [hfirst, hsecond] at happend
  have hunite : unite [⟨"/p/src/a.ts".toList⟩]
      [⟨"/p/./src/a.ts".toList⟩, ⟨"/p/./src/b.ts".toList⟩] = files := by decide
  have hfiles : twiceFound.run siblingTree [] = .ok files := hunite ▸ happend
  have hmem : ∀ e, e ∈ ["*.d.ts", "lib", "lib"] ↔ e ∈ twiceFound.excludes := by
    simp [twiceFound, or_comm]
  exact ⟨hfiles, hexcludes _ hmem _ hfiles⟩

end DeclarationDocs.SourceScan
