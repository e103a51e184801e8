import DeclarationDocs.Proofs.Glob.Finding
import DeclarationDocs.Scan

namespace DeclarationDocs

/-!
# Collecting the files of a scan

A scan goes through its include entries and adds what each leads to, unless it is already there.

* `SourceScan.candidatesOf` — what one include entry contributes;
* `SourceScan.run_eq` — a scan is the list of all candidates, each path kept where it comes
  first, or the first failure;
* `SourceScan.isFile_of_mem_run`, `SourceScan.keeps_of_mem_run` — every file of a scan is a
  regular file that counts.
-/

namespace SourceScan

variable {s : SourceScan} {t : FileTree} {cwd : Place} {paths files : List Path} {p q : Path}

/-! ### Adding paths -/

/-- What is in `addNew paths q` was there or is `q`. -/
theorem mem_addNew (h : p ∈ addNew paths q) : p ∈ paths ∨ p = q := by
  unfold addNew at h
  split at h
  · exact .inl h
  · simpa using h

/-- Collecting makes nothing up. -/
theorem mem_foldl_addNew {candidates : List Path} (h : p ∈ candidates.foldl addNew paths) :
    p ∈ paths ∨ p ∈ candidates := by
  induction candidates generalizing paths with
  | nil => exact .inl h
  | cons c r ih =>
    rcases ih h with hp | hp
    · rcases mem_addNew hp with hp | rfl
      · exact .inl hp
      · exact .inr List.mem_cons_self
    · exact .inr (List.mem_cons_of_mem _ hp)

/-! ### Going through the include entries -/

/-- What an include entry contributes: the files it leads to that count. -/
def candidatesOf (s : SourceScan) (t : FileTree) (cwd : Place)
    (excluded : List (List Glob.Token)) (entry : String) : Except Failure (List Path) :=
  (s.found t cwd entry).map (List.filter (s.keeps excluded))

/-- Adding the contributions entry by entry adds all of them. -/
theorem foldlM_candidates {excluded : List (List Glob.Token)} {entries : List String} :
    entries.foldlM (fun paths entry => do
        let candidates := (← s.found t cwd entry).filter (s.keeps excluded)
        Except.ok (candidates.foldl addNew paths)) paths
      = (entries.mapM (s.candidatesOf t cwd excluded)).map
          fun lists => lists.flatten.foldl addNew paths := by
  induction entries generalizing paths with
  | nil => rfl
  | cons entry r ih =>
    rw [List.foldlM_cons, List.mapM_cons, candidatesOf]
    cases s.found t cwd entry with
    | error e => rfl
    | ok found =>
      -- both sides go on with what this entry has added
      show List.foldlM _ ((found.filter (s.keeps excluded)).foldl addNew paths) r = _
      rw [ih]
      simp only [Except.map, bind, Except.bind, pure, Except.pure]
      cases r.mapM (s.candidatesOf t cwd excluded) with
      | error e => rfl
      | ok lists => simp [List.foldl_append]

/-- **A scan.**  It fails with the first exclude entry or else the first include entry that is no
    pattern; otherwise every path among the candidates is kept where it comes first. -/
theorem run_eq (s : SourceScan) (t : FileTree) (cwd : Place) :
    s.run t cwd = (excludePatterns s.excludes).bind fun excluded =>
      (s.includes.mapM (s.candidatesOf t cwd excluded)).map
        fun lists => lists.flatten.foldl addNew [] := by
  unfold run
  cases excludePatterns s.excludes with
  | error e => rfl
  | ok excluded => exact foldlM_candidates

/-- A file of a scan was found through some include entry, and it counts. -/
theorem of_mem_run (h : s.run t cwd = .ok files) (hp : p ∈ files) :
    ∃ excluded, excludePatterns s.excludes = .ok excluded ∧
      ∃ entry ∈ s.includes, ∃ found, s.found t cwd entry = .ok found ∧ p ∈ found ∧
        s.keeps excluded p = true := by
  rw [run_eq] at h
  obtain ⟨excluded, hexcluded, h⟩ := bind_eq_ok_iff.mp h
  obtain ⟨lists, hlists, rfl⟩ := map_eq_ok_iff.mp h
  have hmem : p ∈ lists.flatten := (mem_foldl_addNew hp).resolve_left (by simp)
  obtain ⟨candidates, hc, hpc⟩ := List.mem_flatten.mp hmem
  obtain ⟨entry, hentry, hget⟩ := exists_of_mem_mapM hlists hc
  obtain ⟨found, hfound, rfl⟩ := map_eq_ok_iff.mp hget
  rw [List.mem_filter] at hpc
  exact ⟨excluded, hexcluded, entry, hentry, found, hfound, hpc⟩

/-- Every path that a scan answers passes its test. -/
theorem keeps_of_mem_run (h : s.run t cwd = .ok files) (hp : p ∈ files) :
    ∃ excluded, s.keeps excluded p = true := by
  obtain ⟨excluded, -, -, -, -, -, -, hkeeps⟩ := of_mem_run h hp
  exact ⟨excluded, hkeeps⟩

/-- Every path that a scan answers is a file. -/
theorem isFile_of_mem_run (h : s.run t cwd = .ok files) (hp : p ∈ files) :
    t.isFile cwd p = true := by
  obtain ⟨-, -, entry, -, found, hfound, hpf, -⟩ := of_mem_run h hp
  unfold SourceScan.found at hfound
  split at hfound
  · exact absurd hfound (by simp)
  · obtain rfl := Except.ok.inj hfound
    rw [List.mem_mergeSort, List.mem_filter] at hpf
    exact hpf.2

/-- Every file of a scan has a dialect. -/
theorem dialect_of_mem_run (h : s.run t cwd = .ok files) (hp : p ∈ files) :
    (Dialect.ofPath? p).isSome = true := by
  obtain ⟨excluded, hkeeps⟩ := keeps_of_mem_run h hp
  simp only [keeps, Bool.and_eq_true] at hkeeps
  exact hkeeps.1.1

end SourceScan

end DeclarationDocs
