import DeclarationDocs.Proofs.Glob.Composing
import DeclarationDocs.Proofs.Scan.Selecting

namespace DeclarationDocs.SourceScan

open FileTree

/-!
# Entries that are included and excluded

Include entries are followed through the tree, component by component; exclude entries are matched
as a whole with the path below the root as a text.  For an ordinary entry both ways agree: what it
includes, it excludes.  They part where an entry spells a path in a way that no path below the
root is spelled, as `./src/*.ts` does.

* `excludes_of_includes` — an ordinary entry excludes the files that it includes;
* `run_eq_nil` — `s.run t cwd = .ok []` if every include entry is `Ordinary` and an exclude entry as
  well.
-/

variable {s : SourceScan} {t : FileTree} {cwd base : Place} {entry : String}
  {names : List (List Char)}

/-- An ordinary entry is a pattern as a whole. -/
theorem Ordinary.accepted_trimSlashes (h : Ordinary entry) :
    Glob.Accepted (trimSlashes entry.toList) := by
  rw [h.trimSlashes_eq, ← joinSegments_partsOf]
  exact .join (partsOf_ne_nil entry) h.accepted

/-- The pattern of what is below an entry without wildcards accepts every path there. -/
theorem excludes_of_prefix (hentry : Ordinary entry) (hplain : Plain entry)
    {left : List (List Char)} (hleft : left ≠ []) : Excludes entry (partsOf entry ++ left) := by
  have hreads := Glob.parse_eq_ok_iff.mp (Glob.parse_plain hplain)
  obtain ⟨us, hus, hcomponent⟩ := Glob.exists_reads_component hreads (by simp)
  obtain rfl : entry.toList.map Glob.Token.char = us := by simpa using hus
  have hbelow := (hcomponent none []).2 ['*', '*'] _ (.last (.inr rfl))
  have hparse := Glob.parse_eq_ok_iff.mpr hbelow
  refine ⟨_, .inr ?_, (Glob.accepts_iff_covers hparse).mpr ?_⟩
  · rw [hentry.trimSlashes_eq]
    exact hparse
  · have hfits : Glob.Fits (entry.toList.map .char) entry.toList :=
      (Glob.fits_of_literal? (Glob.literal?_eq_some_iff.mpr rfl)).mpr rfl
    have hslash : (Glob.Token.char '/').fits '/' = true := Glob.Token.fits_char.mpr rfl
    rw [Path.joinSegments_append (partsOf_ne_nil entry) hleft, joinSegments_partsOf]
    -- the `**` behind the slash takes whatever is there
    simpa [Glob.pushDirectories] using hfits.covers_append (.one hslash (.everything _ .nil))

/-- **Include and exclude entries.**  An ordinary entry excludes the files that it includes. -/
theorem excludes_of_includes (hentry : Ordinary entry) (h : Includes t base entry names)
    (hfile : ∃ c, t.entry? (base ++ names) = some (.file c)) : Excludes entry names := by
  rcases h with ⟨patterns, hpatterns, hnames⟩ | ⟨hplain, hdir, left, rfl⟩
  · obtain ⟨patterns', hpatterns', hroute⟩ := hentry.exists_route
    obtain rfl := patterns_unique hpatterns hpatterns'
    obtain ⟨ts, hts, haccepts⟩ :=
      Glob.accepts_of_matchesNames hpatterns hentry.slash hroute hnames
    rw [joinSegments_partsOf] at hts
    exact ⟨ts, .inl (by rw [hentry.trimSlashes_eq]; exact hts), haccepts⟩
  · refine excludes_of_prefix hentry hplain ?_
    -- the directory itself is no file
    rintro rfl
    obtain ⟨c, hc⟩ := hfile
    rw [List.append_nil, hdir] at hc
    exact absurd hc (by simp)

/-- **Including what is excluded.**  In a tree as a disk holds it (`t.Proper`) with no backslash
    in a name (`BackslashFree t`), and below a root that can be told from the paths that are found
    (`s.Rooted t cwd base`), a scan selects nothing if each include entry is `Ordinary` and is one
    of the exclude entries as well. -/
theorem run_eq_nil (hproper : t.Proper) (hbackslash : BackslashFree t) (h : s.Rooted t cwd base)
    (hincludes : ∀ entry ∈ s.includes, Ordinary entry ∧ entry ∈ s.excludes)
    (hexcludes : ∀ entry ∈ s.excludes, Glob.Accepted (trimSlashes entry.toList)) :
    s.run t cwd = .ok [] := by
  obtain ⟨excluded, hexcluded⟩ := exists_excludePatterns hexcludes
  have hnone : ∀ entry ∈ s.includes, s.candidatesOf t cwd excluded entry = .ok [] := by
    intro entry hentry
    obtain ⟨hordinary, hsame⟩ := hincludes entry hentry
    obtain ⟨candidates, hcandidates, -, hmem, -⟩ :=
      exists_candidates h hproper hbackslash hexcluded hordinary
    rw [hcandidates]
    congr 1
    rw [← List.map_eq_nil_iff (f := s.namesOf), List.eq_nil_iff_forall_not_mem]
    intro names hnames
    obtain ⟨hincl, hcounts⟩ := (hmem names).mp hnames
    exact hcounts.excluded entry hsame (excludes_of_includes hordinary hincl hcounts.file)
  obtain ⟨lists, hlists⟩ : ∃ lists, s.includes.mapM (s.candidatesOf t cwd excluded) = .ok lists :=
    exists_mapM_eq_ok fun entry hentry => ⟨[], hnone entry hentry⟩
  have hrun : s.run t cwd = .ok (lists.flatten.foldl addNew []) := by
    rw [run_eq, hexcluded]
    show Except.map _ (s.includes.mapM _) = _
    rw [hlists]
    rfl
  rw [hrun, Except.ok.injEq, List.eq_nil_iff_forall_not_mem]
  intro p hp
  -- a file of the scan would be a candidate of some entry
  obtain ⟨excluded', hexcluded', entry, hentry, found, hfound, hpf, hkeeps⟩ := of_mem_run hrun hp
  obtain rfl := Except.ok.inj (hexcluded.symm.trans hexcluded')
  have hcandidates := hnone entry hentry
  rw [candidatesOf, hfound] at hcandidates
  have hmem : p ∈ found.filter (s.keeps excluded) := List.mem_filter.mpr ⟨hpf, hkeeps⟩
  rw [Except.ok.inj hcandidates] at hmem
  exact absurd hmem (by simp)

/-- A source in a directory. -/
def nestedTree : FileTree :=
  ⟨[(["p".toList], .directory),
    (["p".toList, "src".toList], .directory),
    (["p".toList, "src".toList, "a.ts".toList], .file (.text ""))]⟩

/-- A scan that includes and excludes the same entries. -/
def sameEntries (entries : List String) : SourceScan := ⟨⟨"/p".toList⟩, entries, entries⟩

/-- The entry is ordinary. -/
theorem ordinary_nested : Ordinary "src/*.ts" := by
  have hparts : partsOf "src/*.ts" = [['s', 'r', 'c'], ['*', '.', 't', 's']] := by decide
  refine ⟨by decide, by decide, fun n hn => ?_⟩
  rw [hparts] at hn
  rcases List.mem_cons.mp hn with rfl | hn
  · exact ⟨_, Glob.parse_plain (by simp [Glob.wildcards])⟩
  · obtain rfl := List.mem_singleton.mp hn
    exact ⟨_, Glob.parse_eq_ok_iff.mpr (.sequence (by decide)
      (.char (by decide) (.char (by decide) (.char (by decide) .done))))⟩

/-- The scan for an ordinary entry. -/
theorem run_eq_nil_nested :
    nestedTree.Proper ∧ BackslashFree nestedTree ∧
      (sameEntries ["src/*.ts"]).Rooted nestedTree [] ["p".toList] ∧ Ordinary "src/*.ts" ∧
      (sameEntries ["src/*.ts"]).run nestedTree [] = .ok [] := by
  have hproper : nestedTree.Proper := ⟨by decide, by decide⟩
  have hbackslash : BackslashFree nestedTree := by unfold BackslashFree; decide
  have hrooted : (sameEntries ["src/*.ts"]).Rooted nestedTree [] ["p".toList] := ⟨rfl, by decide⟩
  refine ⟨hproper, hbackslash, hrooted, ordinary_nested,
    run_eq_nil hproper hbackslash hrooted ?_ ?_⟩
  · intro entry hentry
    obtain rfl := List.mem_singleton.mp hentry
    exact ⟨ordinary_nested, List.mem_singleton_self _⟩
  · intro entry hentry
    obtain rfl := List.mem_singleton.mp hentry
    exact ordinary_nested.accepted_trimSlashes

/-- An entry that is spelled from the current directory includes a file that it does not
    exclude. -/
theorem run_current_ne_nil :
    (sameEntries ["./src/*.ts"]).run nestedTree [] = .ok [⟨"/p/./src/a.ts".toList⟩] := by
  rw [← toOption_eq_some_iff]
  decide +kernel

end DeclarationDocs.SourceScan
