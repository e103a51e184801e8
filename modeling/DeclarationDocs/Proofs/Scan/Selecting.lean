import DeclarationDocs.Proofs.Path.Order
import DeclarationDocs.Proofs.Scan.Collecting
import DeclarationDocs.Proofs.Scan.Including
import DeclarationDocs.Proofs.Scan.Ordering

namespace DeclarationDocs.SourceScan

open FileTree

/-!
# What a scan selects

A scan walks through the tree entry by entry, sorts, filters and drops what it has already.  What
it answers is described without any of this: by the names below the root that count and that an
entry describes, and by an order on them.

* `s.Counts t base names` — at `base ++ names` there is a file that has a dialect, that is below no
  `node_modules`, and whose names no entry of `s.excludes` matches;
* `keeps_pathTo_iff` — `s.keeps` says the same of the path `s.pathTo names`;
* `s.Selects t cwd base files list` — the paths `files` spell the names in `list`, and these are the
  names that count and that `s.includes` describe, each once and in order;
* `run_selects` — that is what `s.run` answers if `s.Rooted t cwd base`;
* `not_selects_dotted` — and it is not what `s.run` answers for the root `./src`.
-/

/-- Whether an exclude entry, or what is below it, matches the path that the names spell. -/
def Excludes (entry : String) (names : List (List Char)) : Prop :=
  ∃ ts, (Glob.parse (trimSlashes entry.toList) = .ok ts ∨
      Glob.parse (trimSlashes entry.toList ++ "/**".toList) = .ok ts) ∧
    Glob.accepts ts (Path.joinSegments names) = true

/-- The names below the root at which there is a file that counts. -/
structure Counts (s : SourceScan) (t : FileTree) (base : Place) (names : List (List Char)) :
    Prop where
  file : ∃ c, t.entry? (base ++ names) = some (.file c)
  dialect : (Dialect.ofPath? ⟨Path.joinSegments names⟩).isSome = true
  kept : "node_modules".toList ∉ names
  excluded : ∀ entry ∈ s.excludes, ¬ Excludes entry names

/-- The path spells the root, without a `.` in front, and names below it, and leads to the file
    there. -/
structure Spells (s : SourceScan) (t : FileTree) (cwd base : Place) (p : Path)
    (names : List (List Char)) : Prop where
  components : p.components = s.written ++ names.map .name
  file : ∃ c, t.locate cwd p = .ok (base ++ names, some (.file c))

/-- What a scan is to answer: the paths `files` to the names in `list`, which are just those that
    count and that some include entry describes, each of them once, ordered by the first include
    entry that describes them and by the names within one entry. -/
structure Selects (s : SourceScan) (t : FileTree) (cwd base : Place) (files : List Path)
    (list : List (List (List Char))) : Prop where
  spells : List.Forall₂ (s.Spells t cwd base) files list
  mem_iff : ∀ names, names ∈ list ↔
    (∃ entry ∈ s.includes, Includes t base entry names) ∧ s.Counts t base names
  nodup : list.Nodup
  ordered : list.Pairwise (Before (Includes t base) s.includes)

/-- The names in a tree are free of backslashes. -/
def BackslashFree (t : FileTree) : Prop := ∀ x ∈ t.entries, ∀ n ∈ x.1, '\\' ∉ n

variable {s : SourceScan} {t : FileTree} {cwd base : Place} {entry : String}
  {names : List (List Char)} {p : Path} {excluded : List (List Glob.Token)}

/-! ### Exclude entries -/

/-- A pattern is compiled just when `Glob.parse` accepts it. -/
theorem compile_eq_ok_iff {pattern : List Char} {ts : List Glob.Token} :
    compile entry pattern = .ok ts ↔ Glob.parse pattern = .ok ts := by
  unfold compile
  cases Glob.parse pattern <;> simp

/-- Every exclude entry gives the pattern of the entry and that of what is below it. -/
theorem excludePatternsOf_eq_ok_iff {patterns : List (List Glob.Token)} :
    excludePatternsOf entry = .ok patterns ↔ ∃ ts us, patterns = [ts, us] ∧
      Glob.parse (trimSlashes entry.toList) = .ok ts ∧
      Glob.parse (trimSlashes entry.toList ++ "/**".toList) = .ok us := by
  constructor
  · intro h
    obtain ⟨ts, hts, h⟩ := bind_eq_ok_iff.mp h
    obtain ⟨us, hus, hret⟩ := bind_eq_ok_iff.mp h
    exact ⟨ts, us, (Except.ok.inj hret).symm, compile_eq_ok_iff.mp hts, compile_eq_ok_iff.mp hus⟩
  · rintro ⟨ts, us, rfl, hts, hus⟩
    refine bind_eq_ok_iff.mpr ⟨ts, compile_eq_ok_iff.mpr hts, ?_⟩
    exact bind_eq_ok_iff.mpr ⟨us, compile_eq_ok_iff.mpr hus, rfl⟩

/-- Exclude entries that are accepted have patterns. -/
theorem exists_excludePatterns {entries : List String}
    (h : ∀ entry ∈ entries, Glob.Accepted (trimSlashes entry.toList)) :
    ∃ excluded, excludePatterns entries = .ok excluded := by
  have hbelow : Glob.Accepted ['*', '*'] := ⟨_, Glob.parse_eq_ok_iff.mpr (.last (.inl rfl))⟩
  obtain ⟨lists, hlists⟩ : ∃ lists, entries.mapM excludePatternsOf = .ok lists := by
    apply exists_mapM_eq_ok
    intro entry hentry
    obtain ⟨ts, hts⟩ := h entry hentry
    obtain ⟨us, hus⟩ := (h entry hentry).append_slash hbelow
    exact ⟨_, excludePatternsOf_eq_ok_iff.mpr ⟨ts, us, rfl, hts, hus⟩⟩
  exact ⟨lists.flatten, by rw [excludePatterns, hlists]; rfl⟩

/-- The patterns of the exclude entries exclude what the entries do. -/
theorem any_accepts_iff {entries : List String} (h : excludePatterns entries = .ok excluded) :
    (excluded.any fun ts => Glob.accepts ts (Path.joinSegments names)) = true ↔
      ∃ entry ∈ entries, Excludes entry names := by
  obtain ⟨lists, hlists, rfl⟩ := map_eq_ok_iff.mp h
  rw [mapM_eq_ok_iff] at hlists
  clear h
  induction hlists with
  | nil => simp
  | @cons entry patterns entries lists hpatterns _ ih =>
    obtain ⟨ts, us, rfl, hts, hus⟩ := excludePatternsOf_eq_ok_iff.mp hpatterns
    have hhead : Excludes entry names ↔ Glob.accepts ts (Path.joinSegments names) = true ∨
        Glob.accepts us (Path.joinSegments names) = true := by
      simp only [Excludes, hts, hus, Except.ok.injEq]
      constructor
      · rintro ⟨_, rfl | rfl, haccepts⟩
        · exact .inl haccepts
        · exact .inr haccepts
      · rintro (haccepts | haccepts)
        · exact ⟨ts, .inl rfl, haccepts⟩
        · exact ⟨us, .inr rfl, haccepts⟩
    rw [List.flatten_cons, List.any_append, Bool.or_eq_true, ih]
    simp [hhead]

/-! ### The test of a scan -/

/-- **The test of a scan.**  It keeps the path to a file if the file counts. -/
theorem keeps_pathTo_iff (h : s.Rooted t cwd base) (hproper : t.Proper)
    (hbackslash : BackslashFree t)
    (hexcluded : excludePatterns s.excludes = .ok excluded) (hne : names ≠ [])
    (hfile : ∃ c, t.entry? (base ++ names) = some (.file c)) :
    s.keeps excluded (s.pathTo names) = true ↔ s.Counts t base names := by
  obtain ⟨c, hc⟩ := hfile
  have hsome : t.entry? (base ++ names) ≠ none := by simp [hc]
  have hvalid : ∀ n ∈ names, ValidName n := fun n hn =>
    hproper.validName hsome (List.mem_append_right base hn)
  have hcomponents := Path.components_joinSegments hne (fun n hn => (hvalid n hn).2.2.2.1)
    fun n hn => (hvalid n hn).componentOf
  -- the path to a file and its names spell the same file name
  have hdialect : Dialect.ofPath? (s.pathTo names) = Dialect.ofPath? ⟨Path.joinSegments names⟩ := by
    have hlast : names.map Component.name ≠ [] := by simpa using hne
    unfold Dialect.ofPath? Path.fileName
    rw [hcomponents, components_pathTo h hne hvalid, List.getLast?_append_of_ne_nil _ hlast]
  have hchars : (Path.joinSegments names).map (fun c => if c = '\\' then '/' else c) =
      Path.joinSegments names := by
    -- backslashes are turned into slashes for the exclude entries, and there are none
    refine (List.map_congr_left fun c hc => ?_).trans (List.map_id _)
    -- every character between the slashes is one of a name in the tree
    have hplain : c ≠ '\\' := by
      rintro rfl
      rcases Path.mem_joinSegments hc with hslash | ⟨n, hn, hcn⟩
      · exact absurd hslash (by decide)
      · have hplace : base ++ names ≠ [] := by simp [hne]
        obtain ⟨x, hx, hxplace⟩ := (exists_mem_entries_iff hplace).mpr hsome
        exact hbackslash x hx n (hxplace ▸ List.mem_append_right base hn) hcn
    simp [hplain]
  have hnames := namesOf_pathTo h hne hvalid
  rw [namesOf, relative_pathTo h hne hvalid] at hnames
  -- one directory name is skipped everywhere
  have hskipped : (names.any fun n => skippedNames.contains n) = true ↔
      "node_modules".toList ∈ names := by
    simp [skippedNames]
  have hexcludes : (excluded.any fun ts => Glob.accepts ts (Path.joinSegments names)) = true ↔ _ :=
    any_accepts_iff hexcluded
  unfold keeps
  simp only [relative_pathTo h hne hvalid, hnames, hdialect, hchars, Bool.and_eq_true,
    Bool.not_eq_true', ← Bool.not_eq_true, hskipped, hexcludes]
  constructor
  · rintro ⟨⟨hd, hk⟩, hx⟩
    exact ⟨⟨c, hc⟩, hd, hk, fun entry hentry hexcl => hx ⟨entry, hentry, hexcl⟩⟩
  · rintro ⟨-, hd, hk, hx⟩
    refine ⟨⟨hd, hk⟩, ?_⟩
    rintro ⟨entry, hentry, hexcl⟩
    exact hx entry hentry hexcl

/-! ### What an entry contributes -/

/-- A path that a scan can have found: the one to a file below the root. -/
def Found (s : SourceScan) (t : FileTree) (base : Place) (p : Path) : Prop :=
  ∃ names, p = s.pathTo names ∧ ∃ c, t.entry? (base ++ names) = some (.file c)

/-- At the root there is no file. -/
theorem ne_nil_of_file (h : s.Rooted t cwd base)
    (hfile : ∃ c, t.entry? (base ++ names) = some (.file c)) : names ≠ [] := by
  rintro rfl
  obtain ⟨c, hc⟩ := hfile
  rw [List.append_nil, (locate_eq_ok h.locate).2] at hc
  exact absurd hc (by simp)

/-- The names on the way to a file are valid. -/
theorem validName_of_file (hproper : t.Proper)
    (hfile : ∃ c, t.entry? (base ++ names) = some (.file c)) : ∀ n ∈ names, ValidName n := by
  obtain ⟨c, hc⟩ := hfile
  exact fun n hn => hproper.validName (by simp [hc]) (List.mem_append_right base hn)

/-- The names are read off the path to a file. -/
theorem namesOf_pathTo_file (h : s.Rooted t cwd base) (hproper : t.Proper)
    (hfile : ∃ c, t.entry? (base ++ names) = some (.file c)) :
    s.namesOf (s.pathTo names) = names :=
  namesOf_pathTo h (ne_nil_of_file h hfile) (validName_of_file hproper hfile)

/-- Its components are those of the root as it is written, and then the names below it. -/
theorem Found.components (hp : s.Found t base p) (h : s.Rooted t cwd base) (hproper : t.Proper) :
    p.components = s.written ++ (s.namesOf p).map .name := by
  obtain ⟨names, rfl, hfile⟩ := hp
  rw [namesOf_pathTo_file h hproper hfile]
  exact components_pathTo h (ne_nil_of_file h hfile) (validName_of_file hproper hfile)

/-- A path that was found spells the root and the names that are read off it. -/
theorem Found.spells (hp : s.Found t base p) (h : s.Rooted t cwd base) (hproper : t.Proper) :
    s.Spells t cwd base p (s.namesOf p) := by
  refine ⟨hp.components h hproper, ?_⟩
  obtain ⟨names, rfl, c, hc⟩ := hp
  refine ⟨c, ?_⟩
  rw [namesOf_pathTo_file h hproper ⟨c, hc⟩, locate_pathTo h hproper (by simp [hc]), hc]

/-- The same paths are those with the same names below the root. -/
theorem Found.same_iff {q : Path} (hp : s.Found t base p) (hq : s.Found t base q)
    (h : s.Rooted t cwd base) (hproper : t.Proper) :
    p.same q = true ↔ s.namesOf p = s.namesOf q := by
  rw [Path.same, beq_iff_eq, hp.components h hproper, hq.components h hproper,
    List.append_cancel_left_eq]
  exact List.map_inj_right fun _ _ => Component.name.inj

/-- Sorted paths have sorted names. -/
theorem Found.le_iff {q : Path} (hp : s.Found t base p) (hq : s.Found t base q)
    (h : s.Rooted t cwd base) (hproper : t.Proper) :
    p.le q = true ↔ s.namesOf p ≤ s.namesOf q := by
  rw [Path.le, Bool.not_eq_true', ← Bool.not_eq_true, hp.components h hproper,
    hq.components h hproper, Path.componentsLt_append_names, not_lt]

/-- **What an entry contributes.**  Its candidates are the files that count among those that it
    describes, in order. -/
theorem exists_candidates (h : s.Rooted t cwd base) (hproper : t.Proper)
    (hbackslash : BackslashFree t) (hexcluded : excludePatterns s.excludes = .ok excluded)
    (hentry : Ordinary entry) :
    ∃ candidates, s.candidatesOf t cwd excluded entry = .ok candidates ∧
      (∀ p ∈ candidates, s.Found t base p) ∧
      Contributes (Includes t base) (s.Counts t base) entry (candidates.map s.namesOf) := by
  obtain ⟨paths, hfind, hpaths⟩ := find_expand h hproper hentry
  have hmem : ∀ p, p ∈ ((paths.filter (t.isFile cwd)).mergeSort Path.le).filter
      (s.keeps excluded) ↔ ∃ names, p = s.pathTo names ∧ Includes t base entry names ∧
        s.Counts t base names := by
    intro p
    rw [List.mem_filter, List.mem_mergeSort, List.mem_filter, hpaths]
    constructor
    · rintro ⟨⟨names, rfl, hincl, hfile⟩, hkeeps⟩
      have hne := ne_nil_of_file h hfile
      exact ⟨names, rfl, hincl, (keeps_pathTo_iff h hproper hbackslash hexcluded hne hfile).mp hkeeps⟩
    · rintro ⟨names, rfl, hincl, hcounts⟩
      have hne := ne_nil_of_file h hcounts.file
      exact ⟨⟨names, rfl, hincl, hcounts.file⟩,
        (keeps_pathTo_iff h hproper hbackslash hexcluded hne hcounts.file).mpr hcounts⟩
  have hfound : ∀ p ∈ ((paths.filter (t.isFile cwd)).mergeSort Path.le).filter
      (s.keeps excluded), s.Found t base p := by
    intro p hp
    obtain ⟨names, rfl, -, hcounts⟩ := (hmem p).mp hp
    exact ⟨names, rfl, hcounts.file⟩
  refine ⟨_, by rw [candidatesOf, found, hfind]; rfl, hfound, ?_, ?_⟩
  · intro names
    rw [List.mem_map]
    constructor
    · rintro ⟨p, hp, rfl⟩
      obtain ⟨names, rfl, hincl, hcounts⟩ := (hmem p).mp hp
      rw [namesOf_pathTo_file h hproper hcounts.file]
      exact ⟨hincl, hcounts⟩
    · rintro ⟨hincl, hcounts⟩
      exact ⟨_, (hmem _).mpr ⟨names, rfl, hincl, hcounts⟩,
        namesOf_pathTo_file h hproper hcounts.file⟩
  · -- paths that were found are in order just when their names are
    have hsorted : ((paths.filter (t.isFile cwd)).mergeSort Path.le).Pairwise
        fun p q => p.le q = true :=
      @List.pairwise_mergeSort _ Path.le (fun _ _ _ => Path.le_trans) Path.le_total _
    rw [List.pairwise_map]
    refine (hsorted.filter _).imp_of_mem fun hp hq hle => ?_
    exact ((hfound _ hp).le_iff (hfound _ hq) h hproper).mp hle

/-! ### Whole scans -/

/-- Dropping what is there already is dropping names that are there already. -/
theorem map_foldl_addNew (h : s.Rooted t cwd base) (hproper : t.Proper) {paths more : List Path}
    (hpaths : ∀ p ∈ paths, s.Found t base p) (hmore : ∀ p ∈ more, s.Found t base p) :
    (more.foldl addNew paths).map s.namesOf =
      (more.map s.namesOf).foldl insertNew (paths.map s.namesOf) := by
  induction more generalizing paths with
  | nil => rfl
  | cons q r ih =>
    obtain ⟨hq, hr⟩ := List.forall_mem_cons.mp hmore
    -- the comparison with what is there is one of names
    have hany : paths.any q.same = true ↔ s.namesOf q ∈ paths.map s.namesOf := by
      rw [List.any_eq_true, List.mem_map]
      refine exists_congr fun p => and_congr_right fun hp => ?_
      rw [hq.same_iff (hpaths p hp) h hproper, eq_comm]
    have hstep : (addNew paths q).map s.namesOf =
        insertNew (paths.map s.namesOf) (s.namesOf q) := by
      unfold addNew insertNew
      by_cases hold : paths.any q.same = true
      · rw [if_pos hold, if_pos (hany.mp hold)]
      · rw [if_neg hold, if_neg (hany.not.mp hold), List.map_append]
        rfl
    have hadded : ∀ p ∈ addNew paths q, s.Found t base p := by
      intro p hp
      rcases mem_addNew hp with hp | rfl
      · exact hpaths p hp
      · exact hq
    rw [List.foldl_cons, List.map_cons, List.foldl_cons, ← hstep]
    exact ih hadded hr

/-- **What a scan selects.**  In a tree as a disk holds it, below a root that can be told from the
    paths that are found (`s.Rooted t cwd base`), and for include entries that are relative patterns
    and exclude entries without fault, `s.run t cwd` answers exactly the files that count and that
    some include entry describes.  Each of them is answered once, by a path that spells the root and
    its names.  They are in the order of the first include entries that describe them, and by their
    names within one entry. -/
theorem run_selects (hproper : t.Proper) (hbackslash : BackslashFree t) (h : s.Rooted t cwd base)
    (hincludes : ∀ entry ∈ s.includes, Ordinary entry)
    (hexcludes : ∀ entry ∈ s.excludes, Glob.Accepted (trimSlashes entry.toList)) :
    ∃ files, s.run t cwd = .ok files ∧ s.Selects t cwd base files (files.map s.namesOf) := by
  obtain ⟨excluded, hexcluded⟩ := exists_excludePatterns hexcludes
  obtain ⟨lists, hlists⟩ : ∃ lists, s.includes.mapM (s.candidatesOf t cwd excluded) = .ok lists :=
    exists_mapM_eq_ok fun entry hentry =>
      (exists_candidates h hproper hbackslash hexcluded (hincludes entry hentry)).imp
        fun _ hc => hc.1
  -- entry by entry, in step with the lists of candidates
  have hall : ∀ {entries lists}, (∀ entry ∈ entries, Ordinary entry) →
      List.Forall₂ (fun entry list => s.candidatesOf t cwd excluded entry = .ok list) entries lists →
      (∀ p ∈ lists.flatten, s.Found t base p) ∧
        List.Forall₂ (Contributes (Includes t base) (s.Counts t base)) entries
          (lists.map (List.map s.namesOf)) := by
    intro entries lists hentries hlists
    induction hlists with
    | nil => exact ⟨by simp, .nil⟩
    | cons hlist _ ih =>
      obtain ⟨hentry, hrest⟩ := List.forall_mem_cons.mp hentries
      obtain ⟨candidates, hcandidates, hfound, hcontributes⟩ :=
        exists_candidates h hproper hbackslash hexcluded hentry
      obtain rfl := Except.ok.inj (hcandidates.symm.trans hlist)
      obtain ⟨hfound', hcontributes'⟩ := ih hrest
      refine ⟨fun p hp => ?_, .cons hcontributes hcontributes'⟩
      rw [List.flatten_cons] at hp
      exact (List.mem_append.mp hp).elim (hfound p) (hfound' p)
  obtain ⟨hfound, hcontributes⟩ := hall hincludes (mapM_eq_ok_iff.mp hlists)
  have hcollected := Collected.nil.run hcontributes
  have hnames : (lists.flatten.foldl addNew []).map s.namesOf =
      (lists.map (List.map s.namesOf)).flatten.foldl insertNew [] := by
    rw [map_foldl_addNew h hproper (by simp) hfound, List.map_flatten]
    rfl
  refine ⟨lists.flatten.foldl addNew [], ?_, ?spells, ?mem_iff, ?nodup, ?ordered⟩
  · rw [run_eq, hexcluded]
    show Except.map _ (s.includes.mapM _) = _
    rw [hlists]
    rfl
  case spells =>
    rw [List.forall₂_map_right_iff, List.forall₂_same]
    intro p hp
    have hpl : p ∈ lists.flatten := (mem_foldl_addNew hp).resolve_left (by simp)
    exact (hfound p hpl).spells h hproper
  case mem_iff => exact hnames ▸ hcollected.mem_iff
  case nodup => exact hnames ▸ hcollected.nodup
  case ordered => exact hnames ▸ hcollected.ordered

/-- A directory with a bracket in its name, and two sources in it. -/
def sampleTree : FileTree :=
  ⟨[(["w[".toList], .directory),
    (["w[".toList, "src".toList], .directory),
    (["w[".toList, "src".toList, "b.ts".toList], .file (.text "")),
    (["w[".toList, "a.ts".toList], .file (.text ""))]⟩

/-- A scan that names a directory first and then all sources. -/
def sampleScan : SourceScan := ⟨⟨"/w[".toList⟩, ["src", "**/*.ts"], ["src/old/"]⟩

/-- The scan of the sample tree, whose root has a bracket in its name. -/
theorem run_selects_sample :
    sampleTree.Proper ∧ BackslashFree sampleTree ∧
      sampleScan.Rooted sampleTree [] ["w[".toList] ∧ Ordinary "src" ∧ Ordinary "**/*.ts" ∧
      ∃ files, sampleScan.run sampleTree [] = .ok files ∧
        sampleScan.Selects sampleTree [] ["w[".toList] files (files.map sampleScan.namesOf) := by
  have hproper : sampleTree.Proper := ⟨by decide, by decide⟩
  have hbackslash : BackslashFree sampleTree := by unfold BackslashFree; decide
  have hrooted : sampleScan.Rooted sampleTree [] ["w[".toList] := ⟨rfl, by decide⟩
  have hsrc : Ordinary "src" := by
    refine ⟨by decide, by decide, fun n hn => ⟨_, Glob.parse_plain ?_⟩⟩
    obtain rfl : n = ['s', 'r', 'c'] := List.mem_singleton.mp hn
    simp [Glob.wildcards]
  have hall : Ordinary "**/*.ts" := by
    refine ⟨by decide, by decide, fun n hn => ?_⟩
    rcases List.mem_cons.mp hn with rfl | hn
    · exact ⟨_, Glob.parse_eq_ok_iff.mpr (.last (.inl rfl))⟩
    · obtain rfl : n = ['*', '.', 't', 's'] := List.mem_singleton.mp hn
      exact ⟨_, Glob.parse_eq_ok_iff.mpr (.sequence (by decide)
        (.char (by decide) (.char (by decide) (.char (by decide) .done))))⟩
  have hincludes : ∀ entry ∈ sampleScan.includes, Ordinary entry := by
    intro entry hentry
    rcases List.mem_cons.mp hentry with rfl | hentry
    · exact hsrc
    · exact List.mem_singleton.mp hentry ▸ hall
  have hexcludes : ∀ entry ∈ sampleScan.excludes, Glob.Accepted (trimSlashes entry.toList) := by
    intro entry hentry
    obtain rfl : entry = "src/old/" := List.mem_singleton.mp hentry
    have htrim : trimSlashes "src/old/".toList = ['s', 'r', 'c', '/', 'o', 'l', 'd'] := by decide
    exact ⟨_, Glob.parse_plain (by rw [htrim]; simp [Glob.wildcards])⟩
  exact ⟨hproper, hbackslash, hrooted, hsrc, hall,
    run_selects hproper hbackslash hrooted hincludes hexcludes⟩

/-- A source in a directory, next to nothing else. -/
def dottedTree : FileTree :=
  ⟨[(["src".toList], .directory),
    (["src".toList, "a.ts".toList], .file (.text ""))]⟩

/-- A scan of that directory, spelled from the current one, which includes and excludes its
    source. -/
def dottedScan : SourceScan := ⟨⟨"./src".toList⟩, ["*.ts"], ["a.ts"]⟩

/-- Below the root `./src` a file is not judged by its name `a.ts`, but by the path `src/a.ts`,
    which the entry `a.ts` does not match: so it is answered although it is excluded. -/
theorem not_selects_dotted :
    dottedTree.locate [] dottedScan.root = .ok (["src".toList], some .directory) ∧
      dottedScan.run dottedTree [] = .ok [⟨"src/a.ts".toList⟩] ∧
      ∀ list, ¬ dottedScan.Selects dottedTree [] ["src".toList] [⟨"src/a.ts".toList⟩] list := by
  refine ⟨rfl, by rw [← toOption_eq_some_iff]; decide +kernel, fun list hselects => ?_⟩
  obtain ⟨names, hspells, rfl⟩ : ∃ names,
      dottedScan.Spells dottedTree [] ["src".toList] ⟨"src/a.ts".toList⟩ names ∧ list = [names] := by
    obtain _ | ⟨hspells, hnil⟩ := hselects.spells
    cases hnil
    exact ⟨_, hspells, rfl⟩
  -- the path leads to the file `a.ts` below the root
  obtain ⟨c, hlocate⟩ := hspells.file
  have hplace : dottedTree.locate [] ⟨"src/a.ts".toList⟩ =
      .ok (["src".toList, "a.ts".toList], some (.file (.text ""))) := rfl
  have hnames : ["src".toList] ++ names = ["src".toList] ++ ["a.ts".toList] :=
    (Prod.mk.inj (Except.ok.inj (hlocate.symm.trans hplace))).1
  obtain rfl : names = ["a.ts".toList] := List.append_cancel_left hnames
  -- which does not count, since the entry excludes it
  have hcounts := ((hselects.mem_iff _).mp (List.mem_singleton_self _)).2
  refine hcounts.excluded "a.ts" (List.mem_singleton_self _)
    ⟨_, .inl (Glob.parse_plain ?_), by decide +kernel⟩
  have htrim : trimSlashes "a.ts".toList = ['a', '.', 't', 's'] := by decide
  rw [htrim]
  simp [Glob.wildcards]

end DeclarationDocs.SourceScan
