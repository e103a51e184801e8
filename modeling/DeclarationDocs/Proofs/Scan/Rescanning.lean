import DeclarationDocs.Proofs.Glob.Exact
import DeclarationDocs.Proofs.Scan.Including
import DeclarationDocs.Proofs.Scan.Collecting

namespace DeclarationDocs

open FileTree

/-!
# Scanning a tree that has grown

A scan of a tree that has got more entries finds the files that it has found before, in the same
order, and more.  What is new does not even matter if it makes an include entry without wildcards
name a directory: then the entry has led to no file, and no old file is below the directory.

* `filter_mergeSort` — sorting what is left is leaving out of what is sorted;
* `SourceScan.filter_candidates` — what one include entry contributes;
* `SourceScan.exists_run_of_grows` — a whole scan, which finds the same files if it finds old ones
  only.
-/

/-! ### Leaving out -/

section

variable {α : Type} {le : α → α → Bool} {keep : α → Bool}

/-- A list is cut in one way where a property ends. -/
theorem append_inj_of_forall (keep : α → Bool) {xs ys xs' ys' : List α}
    (hxs : ∀ a ∈ xs, keep a = true) (hys : ∀ a ∈ ys, keep a = false) (hxs' : ∀ a ∈ xs', keep a = true)
    (hys' : ∀ a ∈ ys', keep a = false) (h : xs ++ ys = xs' ++ ys') : xs = xs' ∧ ys = ys' := by
  have hfirst : ∀ {xs ys : List α}, (∀ a ∈ xs, keep a = true) → (∀ a ∈ ys, keep a = false) →
      (xs ++ ys).filter keep = xs := by
    intro xs ys hxs hys
    rw [List.filter_append, List.filter_eq_self.mpr hxs,
      List.filter_eq_nil_iff.mpr fun a ha => by simp [hys a ha], List.append_nil]
  obtain rfl : xs = xs' := by rw [← hfirst hxs hys, h, hfirst hxs' hys']
  exact ⟨rfl, List.append_cancel_left h⟩

/-- **Sorting what is left.**  Sorting is stable, so leaving items out of a list leaves the others
    where they are.  By induction on the list: the first item is put before those that do not come
    before it. -/
theorem filter_mergeSort (htrans : ∀ a b c, le a b = true → le b c = true → le a c = true)
    (htotal : ∀ a b, (le a b || le b a) = true) (keep : α → Bool) (l : List α) :
    (l.mergeSort le).filter keep = (l.filter keep).mergeSort le := by
  -- behind an item in a sorted list is nothing that comes before it
  have hbehind : ∀ {a : α} {l xs ys : List α}, l.mergeSort le = xs ++ a :: ys →
      ∀ b ∈ ys, (!le a b) = false := by
    intro a l xs ys hsorted b hb
    have hpair := List.pairwise_mergeSort htrans htotal l
    rw [hsorted] at hpair
    simpa using List.rel_of_pairwise_cons (List.pairwise_append.mp hpair).2.1 hb
  induction l with
  | nil => simp
  | cons a l ih =>
    obtain ⟨xs, ys, hcons, hl, hbefore⟩ := List.mergeSort_cons htrans htotal a l
    rw [hl, List.filter_append] at ih
    rw [hcons, List.filter_append]
    by_cases hkeep : keep a = true
    · obtain ⟨xs', ys', hcons', hl', hbefore'⟩ :=
        List.mergeSort_cons htrans htotal a (l.filter keep)
      rw [List.filter_cons_of_pos hkeep, List.filter_cons_of_pos hkeep, hcons']
      rw [hl'] at ih
      obtain ⟨hxs, hys⟩ := append_inj_of_forall (fun b => !le a b)
        (fun b hb => hbefore b (List.mem_of_mem_filter hb))
        (fun b hb => hbehind hcons b (List.mem_of_mem_filter hb)) hbefore' (hbehind hcons') ih
      rw [hxs, hys]
    · rw [List.filter_cons_of_neg hkeep, List.filter_cons_of_neg hkeep]
      exact ih

end

namespace SourceScan

variable {s : SourceScan} {t t' : FileTree} {cwd base : Place} {entry : String}
  {excluded : List (List Glob.Token)} {paths candidates files : List Path} {p q : Path}

/-- What is collected stays when more is added. -/
theorem subset_foldl_addNew (more paths : List Path) : paths ⊆ more.foldl addNew paths := by
  induction more generalizing paths with
  | nil => exact List.Subset.refl _
  | cons q more ih =>
    refine List.Subset.trans ?_ (ih _)
    unfold addNew
    split
    · exact List.Subset.refl _
    · exact List.subset_append_left ..

/-- What is not among the paths that are collected might as well have been left out before. -/
theorem foldl_addNew_filter {keep : Path → Bool} {more : List Path}
    (h : ∀ p ∈ more.foldl addNew paths, keep p = true) :
    (more.filter keep).foldl addNew paths = more.foldl addNew paths := by
  induction more generalizing paths with
  | nil => rfl
  | cons q more ih =>
    by_cases hkeep : keep q = true
    · rw [List.filter_cons_of_pos hkeep]
      exact ih h
    · rw [List.filter_cons_of_neg hkeep, List.foldl_cons]
      rw [List.foldl_cons] at h
      -- the path is not added, or it would be there in the end
      have hold : addNew paths q = paths := by
        unfold addNew
        split
        · rfl
        · rename_i hnew
          refine absurd (h q (subset_foldl_addNew more _ ?_)) hkeep
          simp [addNew, hnew]
      rw [hold] at h ⊢
      exact ih h

/-! ### Include entries -/

/-- An absolute entry is not changed. -/
theorem expand_of_isAbsolute (s : SourceScan) (t : FileTree) (cwd : Place)
    (hentry : (Path.mk entry.toList).isAbsolute = true) : s.expand t cwd entry = entry.toList := by
  unfold expand
  simp only [hentry, if_true]

/-- A relative include entry is written behind the root, with a pattern for everything below if it
    has no wildcards and names a directory. -/
theorem expand_of_relative (s : SourceScan) (t : FileTree) (cwd : Place)
    (hrelative : (Path.mk entry.toList).isAbsolute = false) :
    s.expand t cwd entry = Glob.behind s.root (Text.splitAt '/'
      (if (!entry.toList.any fun c => c == '*' || c == '?' || c == '[') &&
          t.isDirectory cwd (s.root.join ⟨entry.toList⟩) then
        trimSlashes entry.toList ++ "/**/*".toList
      else entry.toList)) := by
  unfold expand Glob.behind
  rw [Path.joinSegments_splitAt]
  simp only [hrelative, Bool.false_eq_true, if_false]
  split
  · rw [List.append_assoc, List.cons_append]
    rfl
  · rfl

/-- Below an absolute root every pattern is absolute. -/
theorem head_expand (habs : s.root.isAbsolute = true) (t : FileTree) (cwd : Place)
    (entry : String) : (s.expand t cwd entry).head? = some '/' := by
  by_cases hentry : (Path.mk entry.toList).isAbsolute = true
  · obtain ⟨r, hr⟩ : ∃ r, entry.toList = '/' :: r := Path.isAbsolute_iff.mp hentry
    rw [expand_of_isAbsolute s t cwd hentry, hr]
    rfl
  · rw [expand_of_relative s t cwd (by simpa using hentry)]
    rw [← beq_iff_eq, Glob.head_behind (Glob.Walk.chars_of_isAbsolute habs).1, habs]

/-- An include entry that has come to name a directory. -/
structure Renamed (s : SourceScan) (t t' : FileTree) (cwd : Place) (entry : String) : Prop where
  relative : (Path.mk entry.toList).isAbsolute = false
  wild : (entry.toList.any fun c => c == '*' || c == '?' || c == '[') = false
  before : t.isDirectory cwd (s.root.join ⟨entry.toList⟩) = false
  after : t'.isDirectory cwd (s.root.join ⟨entry.toList⟩) = true

/-- Every other entry stands for the pattern that it stood for. -/
theorem expand_eq_of_not_renamed (hgrows : Grows t t') (hnot : ¬ s.Renamed t t' cwd entry) :
    s.expand t' cwd entry = s.expand t cwd entry := by
  by_cases hrelative : (Path.mk entry.toList).isAbsolute = true
  · rw [expand_of_isAbsolute s t' cwd hrelative, expand_of_isAbsolute s t cwd hrelative]
  · have hrelative : (Path.mk entry.toList).isAbsolute = false := by simpa using hrelative
    rw [expand_of_relative s t' cwd hrelative, expand_of_relative s t cwd hrelative]
    cases hwild : entry.toList.any fun c => c == '*' || c == '?' || c == '[' with
    | true => rfl
    | false =>
      -- a directory that was named before is named still
      have hsame : t'.isDirectory cwd (s.root.join ⟨entry.toList⟩) =
          t.isDirectory cwd (s.root.join ⟨entry.toList⟩) := by
        cases hdir : t.isDirectory cwd (s.root.join ⟨entry.toList⟩) with
        | true =>
          obtain ⟨q, hl⟩ := exists_locate_of_isDirectory hdir
          exact (hgrows.isDirectory_iff hl).mpr hdir
        | false =>
          rw [Bool.eq_false_iff]
          exact fun hdir' => hnot ⟨hrelative, hwild, hdir, hdir'⟩
      rw [hsame]

/-- An entry that is expanded in another way has no wildcards. -/
theorem Renamed.plain (h : s.Renamed t t' cwd entry) : Plain entry := by
  intro c hc
  have hwild := List.any_eq_false.mp h.wild c hc
  simp only [Bool.or_eq_true, beq_iff_eq, not_or] at hwild
  simp [Glob.wildcards, hwild]

/-- The patterns of such an entry. -/
theorem Renamed.expand_eq (h : s.Renamed t t' cwd entry) :
    s.expand t cwd entry = Glob.behind s.root (Text.splitAt '/' entry.toList) ∧
      s.expand t' cwd entry = Glob.behind s.root
        (Text.splitAt '/' (trimSlashes entry.toList ++ "/**/*".toList)) := by
  rw [expand_of_relative s t cwd h.relative, expand_of_relative s t' cwd h.relative]
  simp only [h.wild, h.before, h.after, Bool.not_false, Bool.and_false, Bool.and_true,
    Bool.false_eq_true, if_false, if_true, and_self]

/-- The candidates of an entry are the files that its pattern finds, in order, if they are kept. -/
theorem candidatesOf_eq_ok_iff :
    s.candidatesOf t cwd excluded entry = .ok candidates ↔
      ∃ paths, Glob.find t cwd (s.expand t cwd entry) = .ok paths ∧
        candidates =
          ((paths.filter (t.isFile cwd)).mergeSort Path.le).filter (s.keeps excluded) := by
  unfold candidatesOf found
  cases Glob.find t cwd (s.expand t cwd entry) with
  | error e => simp [Except.map]
  | ok paths => simp [Except.map, eq_comm]

/-- The old candidates of an entry are decided by the old files that are found. -/
theorem filter_candidates_of_filter {paths' : List Path} (hgrows : Grows t t')
    (hpaths : paths'.filter (t.isFile cwd) = paths.filter (t.isFile cwd)) :
    (((paths'.filter (t'.isFile cwd)).mergeSort Path.le).filter (s.keeps excluded)).filter
        (t.isFile cwd) =
      ((paths.filter (t.isFile cwd)).mergeSort Path.le).filter (s.keeps excluded) := by
  have hold : (paths'.filter (t'.isFile cwd)).filter (t.isFile cwd) =
      paths'.filter (t.isFile cwd) := by
    rw [List.filter_filter]
    refine List.filter_congr fun p _ => ?_
    cases hfile : t.isFile cwd p with
    | false => rfl
    | true => rw [hgrows.isFile hfile]; rfl
  have hsort : ∀ l : List Path, (l.mergeSort Path.le).filter (t.isFile cwd) =
      (l.filter (t.isFile cwd)).mergeSort Path.le := fun l =>
    @filter_mergeSort _ Path.le (fun _ _ _ => Path.le_trans) Path.le_total _ l
  rw [List.filter_comm, hsort, hold, hpaths]

/-- Two paths with the same steps lead to one place. -/
theorem isDirectory_of_steps (habs : p.isAbsolute = q.isAbsolute) (hsteps : p.steps = q.steps)
    (husable : Usable q) (hdir : t.isDirectory cwd p = true) : t.isDirectory cwd q = true := by
  obtain ⟨place, hl⟩ := exists_locate_of_isDirectory hdir
  obtain ⟨-, hfollow, hentry, -⟩ := locate_eq_ok_iff.mp hl
  rw [hsteps, startOf, habs] at hfollow
  have hl' : t.locate cwd q = .ok (place, some .directory) :=
    locate_eq_ok_iff.mpr ⟨husable, hfollow, hentry, by simp⟩
  exact (isDirectory_of_locate hl').mpr rfl

/-- **A directory that is new.**  An include entry without wildcards that names one has led to no
    file before, and what is below it now is no old file. -/
theorem Renamed.filter_find (hrenamed : s.Renamed t t' cwd entry) (h : t.Stored) (h' : t'.Stored)
    (hgrows : Grows t t') (habs : s.root.isAbsolute = true)
    (hroot : t.isDirectory cwd s.root = true)
    (hfind : Glob.find t cwd (s.expand t cwd entry) = .ok paths) :
    ∃ paths', Glob.find t' cwd (s.expand t' cwd entry) = .ok paths' ∧
      paths'.filter (t.isFile cwd) = paths.filter (t.isFile cwd) := by
  obtain ⟨hrelative, -, hnot, hdir⟩ := id hrenamed
  have hplain := hrenamed.plain
  obtain ⟨hpattern, hpattern'⟩ := hrenamed.expand_eq
  rw [hpattern] at hfind
  rw [hpattern']
  have hchars := (Glob.Walk.chars_of_isAbsolute habs).1
  have hjoin : (s.root.join ⟨entry.toList⟩).isAbsolute = true :=
    (Path.isAbsolute_join hchars hrelative).trans habs
  obtain ⟨place, hl⟩ := exists_locate_of_isDirectory hdir
  have husable := (locate_eq_ok_iff.mp hl).1
  have hsteps : (s.root.join ⟨entry.toList⟩).steps =
      s.root.steps ++ (Text.splitAt '/' entry.toList).filter (· != []) := by
    rw [Path.steps_join hchars hrelative, Path.steps, Path.steps,
      Path.segments_of_relative hrelative]
  have htrimmed : (Text.splitAt '/' (trimSlashes entry.toList)).filter (· != []) =
      (Text.splitAt '/' entry.toList).filter (· != []) :=
    Text.filter_drop_splitAt_dropEndWhile '/' entry.toList (Nat.zero_le 1)
  -- with no entry at all the root itself would be named, which is nothing new
  have hne : entry.toList ≠ [] := by
    intro hnil
    have hsame := isDirectory_of_steps (habs.trans hjoin.symm)
      (by rw [hsteps, hnil]; simp [Text.splitAt]) husable hroot
    exact absurd (hsame.symm.trans hnot) (by simp)
  have hplain' : ∀ c ∈ trimSlashes entry.toList, c ∉ Glob.wildcards := fun c hc =>
    hplain c ((Text.dropEndWhile_prefix _ _).subset hc)
  obtain ⟨paths', hfind', hbelow⟩ :=
    Glob.exists_find_everything cwd h'.proper habs hplain'
  refine ⟨paths', hfind', ?_⟩
  rw [List.filter_eq_nil_iff.mpr ?_, List.filter_eq_nil_iff.mpr ?_]
  · intro r hr hfile
    -- the entry spells the path of a file, where there is a directory now
    obtain ⟨hrabs, hrsteps⟩ := Glob.steps_of_mem_find h.proper habs hplain hne hfind hr
    obtain ⟨q, c, hlr⟩ := exists_locate_of_isFile hfile
    obtain ⟨hplace, hentry⟩ := locate_eq_ok hl
    obtain ⟨hq, hqentry⟩ := locate_eq_ok hlr
    have hsame : q = place := by
      rw [hq, hplace, destination, destination, hrsteps, hsteps, startOf, startOf, hrabs, hjoin]
    obtain ⟨e', he', hkind⟩ := hgrows.entry? hqentry
    rw [hsame, hentry] at he'
    exact absurd (hkind.mp (Option.some.inj he').symm) (by simp)
  · intro r hr hfile
    obtain ⟨c, hcabs, hcsteps, hbeyond⟩ := hbelow r hr
    have hold := isDirectory_of_steps (hcabs.trans hjoin.symm)
      (by rw [hcsteps, htrimmed, hsteps]) husable (hbeyond.isDirectory hcabs hfile)
    exact absurd (hold.symm.trans hnot) (by simp)

/-- **Include entries.**  An entry finds again the candidates that it has found before, in the same
    order. -/
theorem filter_candidates (h : t.Stored) (h' : t'.Stored) (hgrows : Grows t t')
    (habs : s.root.isAbsolute = true) (hroot : t.isDirectory cwd s.root = true)
    (hcandidates : s.candidatesOf t cwd excluded entry = .ok candidates) :
    ∃ candidates', s.candidatesOf t' cwd excluded entry = .ok candidates' ∧
      candidates'.filter (t.isFile cwd) = candidates := by
  obtain ⟨paths, hfind, rfl⟩ := candidatesOf_eq_ok_iff.mp hcandidates
  obtain ⟨paths', hfind', hpaths⟩ : ∃ paths',
      Glob.find t' cwd (s.expand t' cwd entry) = .ok paths' ∧
        paths'.filter (t.isFile cwd) = paths.filter (t.isFile cwd) := by
    by_cases hrenamed : s.Renamed t t' cwd entry
    · exact hrenamed.filter_find h h' hgrows habs hroot hfind
    · rw [expand_eq_of_not_renamed hgrows hrenamed]
      exact Glob.filter_find h h' hgrows (head_expand habs t cwd entry) hfind
  exact ⟨_, candidatesOf_eq_ok_iff.mpr ⟨paths', hfind', rfl⟩,
    filter_candidates_of_filter hgrows hpaths⟩

/-! ### Whole scans -/

/-- **Scanning again.**  A scan succeeds again, and if it finds no file that is new, it finds what
    it has found before, in the same order. -/
theorem exists_run_of_grows (h : t.Stored) (h' : t'.Stored) (hgrows : Grows t t')
    (habs : s.root.isAbsolute = true) (hroot : t.isDirectory cwd s.root = true)
    (hrun : s.run t cwd = .ok files) :
    ∃ files', s.run t' cwd = .ok files' ∧
      ((∀ f ∈ files', t.isFile cwd f = true) → files' = files) := by
  rw [run_eq] at hrun
  obtain ⟨excluded, hexcluded, hrun⟩ := bind_eq_ok_iff.mp hrun
  obtain ⟨lists, hlists, rfl⟩ := map_eq_ok_iff.mp hrun
  -- entry by entry, the old lists are what is old of the new ones
  have hall : ∀ {entries lists}, List.Forall₂ (fun entry list =>
      s.candidatesOf t cwd excluded entry = .ok list) entries lists →
      ∃ lists', entries.mapM (s.candidatesOf t' cwd excluded) = .ok lists' ∧
        lists'.flatten.filter (t.isFile cwd) = lists.flatten := by
    intro entries lists hlists
    induction hlists with
    | nil => exact ⟨[], rfl, rfl⟩
    | cons hlist _ ih =>
      obtain ⟨candidates', hc', hfilter⟩ := filter_candidates h h' hgrows habs hroot hlist
      obtain ⟨lists', hlists', hrest⟩ := ih
      refine ⟨candidates' :: lists', mapM_eq_ok_iff.mpr (.cons hc' (mapM_eq_ok_iff.mp hlists')), ?_⟩
      rw [List.flatten_cons, List.flatten_cons, List.filter_append, hfilter, hrest]
  obtain ⟨lists', hlists', hfilter⟩ := hall (mapM_eq_ok_iff.mp hlists)
  refine ⟨lists'.flatten.foldl addNew [], ?_, fun hold => ?_⟩
  · rw [run_eq, hexcluded]
    show Except.map _ (s.includes.mapM _) = _
    rw [hlists']
    rfl
  · rw [← foldl_addNew_filter hold, hfilter]

end SourceScan

end DeclarationDocs
