import DeclarationDocs.Proofs.Glob.Finding
import DeclarationDocs.Proofs.Path.Stripping
import DeclarationDocs.Scan

namespace DeclarationDocs.SourceScan

open FileTree

/-!
# What include entries lead to

An include entry is written behind the escaped root of a scan, and followed through the tree.  What
it leads to is described by the names below the root alone.

* `Ordinary entry` — the include entries that lead down from the root and to files;
* `Includes t base entry names` — the names that an entry describes;
* `s.Rooted t cwd base` — the root of `s` leads to the directory at `base`, and it can be told from
  the paths that are found: it is no root such as `./src`;
* `s.pathTo names` — the path by which a scan calls a file; `relative_pathTo`, `namesOf_pathTo` —
  its names below the root can be read off it;
* `find_expand` — the paths to files in `Glob.find t cwd (s.expand t cwd entry)` are those to the
  `names` with `Includes t base entry names`.
-/

/-! ### The description -/

/-- The components of an include entry. -/
def partsOf (entry : String) : List (List Char) := Text.splitAt '/' entry.toList

/-- An include entry that is a relative pattern: no component is empty or starts with a dot, the
    last is no `**`, and there is no fault in any of them. -/
structure Ordinary (entry : String) : Prop where
  parts : ∀ s ∈ partsOf entry, s ≠ [] ∧ s.head? ≠ some '.'
  last : (partsOf entry).getLast? ≠ some ['*', '*']
  accepted : ∀ s ∈ partsOf entry, Glob.Accepted s

/-- An include entry without wildcards. -/
def Plain (entry : String) : Prop := ∀ c ∈ entry.toList, c ∉ Glob.wildcards

/-- Whether names below the root match an include entry, component by component; an entry without
    wildcards that names a directory matches everything below it. -/
def Includes (t : FileTree) (base : Place) (entry : String) (names : List (List Char)) : Prop :=
  (∃ patterns, List.Forall₂ (fun s ts => Glob.parse s = .ok ts) (partsOf entry) patterns ∧
      Glob.MatchesNames patterns names) ∨
    (Plain entry ∧ t.entry? (base ++ partsOf entry) = some .directory ∧ partsOf entry <+: names)

/-- The names of a path below the root. -/
def namesOf (s : SourceScan) (p : Path) : List (List Char) := (s.relative p).names

/-- A root below which files are judged by their names: it leads to the directory at `base`, and it
    can be told from the paths that a walk finds.  That is every root but one with a `.` in front of
    something else, such as `./src`: a walk behind it writes `src/a.ts`, which is not below `./src`.
    The root `.` itself is fine, and a project is always given by an absolute root. -/
structure Rooted (s : SourceScan) (t : FileTree) (cwd base : Place) : Prop where
  locate : t.locate cwd s.root = .ok (base, some .directory)
  retraceable : Glob.Retraceable s.root

/-- The components of the root as a walk writes them: without a `.` in front. -/
def written (s : SourceScan) : List Component := s.root.components.dropWhile (· == .current)

variable {s : SourceScan} {t : FileTree} {cwd base : Place} {entry : String}
  {names : List (List Char)} {p : Path}

/-! ### Paths below the root -/

/-- The path that a walk gives to names below the root. -/
def pathTo (s : SourceScan) (names : List (List Char)) : Path :=
  Glob.Walk.descend (Glob.topOf s.root) names

/-- A root that leads somewhere is not empty. -/
theorem Rooted.chars_ne_nil (h : s.Rooted t cwd base) : s.root.chars ≠ [] :=
  (locate_eq_ok_iff.mp h.locate).1.1

/-- Below the current directory, the path to `names` is the names with slashes between them. -/
theorem pathTo_of_current (h : s.Rooted t cwd base)
    (hcurrent : s.root.components.head? = some .current) (hne : names ≠ [])
    (hnames : ∀ n ∈ names, ValidName n) :
    s.pathTo names = ⟨Path.joinSegments names⟩ ∧ s.root.components = [.current] := by
  have hdots := h.retraceable.resolve_left fun hnot => hnot hcurrent
  obtain ⟨htop, hcomponents⟩ := Glob.topOf_of_current h.chars_ne_nil hcurrent hdots
  rw [pathTo, htop]
  exact ⟨Glob.Walk.descend_current hne hnames, hcomponents⟩

/-- Below any other root, the path to `names` has all components of the root. -/
theorem components_pathTo_of_not_current (h : s.Rooted t cwd base)
    (hcurrent : s.root.components.head? ≠ some .current) (hnames : ∀ n ∈ names, ValidName n) :
    (s.pathTo names).components = s.root.components ++ names.map .name := by
  obtain ⟨hne, hdot, habs, hsteps⟩ := Glob.extends_topOf h.chars_ne_nil hcurrent
  induction names using List.reverseRecOn with
  | nil =>
    show (Glob.topOf s.root).components = _
    rw [Path.components_eq_of_steps hne, habs, hsteps, ← Path.components_eq_of_steps h.chars_ne_nil]
    simp
  | append_singleton names n ih =>
    have hn : ValidName n := hnames n (by simp)
    have hrest : ∀ m ∈ names, ValidName m := fun m hm => hnames m (by simp [hm])
    have hextends : Glob.Walk.Extends _ names (s.pathTo names) :=
      Glob.Walk.extends_descend hne hdot fun m hm => (hrest m hm).2.2.2.1
    have hbelow : s.pathTo (names ++ [n]) = (s.pathTo names).join ⟨n⟩ :=
      Glob.Walk.descend_concat hextends.ne_current
    rw [hbelow, Path.components_join hextends.ne_nil hn.2.2.2.1 hn.componentOf, ih hrest]
    simp

/-- The components of `s.pathTo names` are those of the root as it is written, and then `names`. -/
theorem components_pathTo (h : s.Rooted t cwd base) (hne : names ≠ [])
    (hnames : ∀ n ∈ names, ValidName n) :
    (s.pathTo names).components = s.written ++ names.map .name := by
  by_cases hcurrent : s.root.components.head? = some .current
  · obtain ⟨hpath, hcomponents⟩ := pathTo_of_current h hcurrent hne hnames
    rw [hpath, written, hcomponents, Path.components_joinSegments hne
      (fun n hn => (hnames n hn).2.2.2.1) fun n hn => (hnames n hn).componentOf]
    rfl
  · have hwritten : s.written = s.root.components := by
      unfold written
      cases hcomponents : s.root.components with
      | nil => rfl
      | cons c r =>
        rw [hcomponents] at hcurrent
        exact List.dropWhile_cons_of_neg (by simpa using hcurrent)
    rw [hwritten, components_pathTo_of_not_current h hcurrent hnames]

/-- Nothing is taken off a path that begins with a name if that is to be taken off which is spelled
    from the current directory. -/
theorem stripPrefix_of_current {root : Path} (hroot : root.components = [.current])
    (hne : names ≠ []) (hnames : ∀ n ∈ names, ValidName n) :
    (Path.mk (Path.joinSegments names)).stripPrefix root = none := by
  have hslash : ∀ n ∈ names, '/' ∉ n := fun n hn => (hnames n hn).2.2.2.1
  have habs : (Path.mk (Path.joinSegments names)).isAbsolute = false := by
    rw [Bool.eq_false_iff]
    intro habs
    have hcomponents := Path.components_joinSegments hne hslash fun n hn => (hnames n hn).componentOf
    obtain ⟨n, r, rfl⟩ := List.exists_cons_of_ne_nil hne
    rw [Path.components, if_pos habs] at hcomponents
    exact absurd (List.cons.inj hcomponents).1 (by simp)
  have hsegments : (Path.mk (Path.joinSegments names)).segments = names := by
    rw [Path.segments_of_relative habs]
    exact Path.splitAt_joinSegments hne hslash
  unfold Path.stripPrefix
  rw [hroot]
  simp only [habs, hsegments]
  split
  · rename_i r heq
    exact absurd rfl (hnames ['.'] (by simp)).2.1
  · rfl

/-- A file is judged by its names below the root. -/
theorem relative_pathTo (h : s.Rooted t cwd base) (hne : names ≠ [])
    (hnames : ∀ n ∈ names, ValidName n) :
    s.relative (s.pathTo names) = ⟨Path.joinSegments names⟩ := by
  by_cases hcurrent : s.root.components.head? = some .current
  · obtain ⟨hpath, hcomponents⟩ := pathTo_of_current h hcurrent hne hnames
    rw [hpath, relative, stripPrefix_of_current hcomponents hne hnames, Option.getD_none]
  · obtain ⟨htop, hdot, habs, hsteps⟩ := Glob.extends_topOf h.chars_ne_nil hcurrent
    have hextends : Glob.Walk.Extends _ names (s.pathTo names) :=
      Glob.Walk.extends_descend htop hdot fun m hm => (hnames m hm).2.2.2.1
    obtain ⟨segs, hsegments, hsegs⟩ := Glob.Walk.segments_descend htop hdot hne hnames
    have hstrip := Path.stripPrefix_eq_some hextends.ne_nil h.chars_ne_nil
      (hextends.isAbsolute.trans habs) hsegments (hsegs.trans hsteps) hcurrent
      fun n hn => (hnames n hn).componentOf
    rw [relative, hstrip, Option.getD_some]

/-- So `s.namesOf` reads the names off the path to them. -/
theorem namesOf_pathTo (h : s.Rooted t cwd base) (hne : names ≠ [])
    (hnames : ∀ n ∈ names, ValidName n) : s.namesOf (s.pathTo names) = names := by
  rw [namesOf, relative_pathTo h hne hnames, Path.names,
    Path.components_joinSegments hne (fun n hn => (hnames n hn).2.2.2.1)
      fun n hn => (hnames n hn).componentOf]
  simp [List.filterMap_map]

/-- The path to names leads to the entry that has them. -/
theorem locate_pathTo (h : s.Rooted t cwd base) (hproper : t.Proper)
    (he : t.entry? (base ++ names) ≠ none) :
    t.locate cwd (s.pathTo names) = .ok (base ++ names, t.entry? (base ++ names)) := by
  obtain ⟨htop, -⟩ := Glob.mem_expand_behind_iff (r := s.root) (k := 0) hproper h.locate
    h.retraceable (List.cons_ne_nil [] [])
  obtain ⟨e, hlocate⟩ := htop.descend hproper he
  exact hlocate.trans (by rw [(locate_eq_ok hlocate).2])

/-- The path to `names` is one to a file just when there is a file at `base ++ names`. -/
theorem isFile_pathTo_iff (h : s.Rooted t cwd base) (hproper : t.Proper)
    (he : t.entry? (base ++ names) ≠ none) :
    t.isFile cwd (s.pathTo names) = true ↔ ∃ c, t.entry? (base ++ names) = some (.file c) := by
  obtain ⟨e, hentry⟩ := Option.ne_none_iff_exists'.mp he
  have hl := hentry ▸ locate_pathTo h hproper he
  rw [isFile_of_locate hl, hentry]
  cases e <;> simp

/-! ### Include entries -/

/-- Every entry has a part. -/
theorem partsOf_ne_nil (entry : String) : partsOf entry ≠ [] := Text.splitAt_ne_nil _ _

/-- The parts of an entry make up the entry. -/
theorem joinSegments_partsOf (entry : String) :
    Path.joinSegments (partsOf entry) = entry.toList := Path.joinSegments_splitAt _

namespace Ordinary

/-- No part of an entry has a slash. -/
theorem slash (_h : Ordinary entry) : ∀ s ∈ partsOf entry, '/' ∉ s :=
  fun _ hs => Text.not_mem_of_mem_splitAt hs

/-- An entry with a slash at an end would have an empty component. -/
theorem head_ne (h : Ordinary entry) : entry.toList.head? ≠ some '/' := by
  intro hhead
  obtain ⟨r, hr⟩ := List.head?_eq_some_iff.mp hhead
  have hempty : [] ∈ partsOf entry := by
    rw [partsOf, hr]
    simp [Text.splitAt]
  exact (h.parts _ hempty).1 rfl

/-- An ordinary entry does not end in a slash. -/
theorem getLast_ne (h : Ordinary entry) : entry.toList.getLast? ≠ some '/' := by
  intro hlast
  obtain ⟨r, hr⟩ := List.getLast?_eq_some_iff.mp hlast
  have hempty : [] ∈ partsOf entry := by
    rw [partsOf, hr, Text.splitAt_append_cons]
    simp [Text.splitAt]
  exact (h.parts _ hempty).1 rfl

/-- No component is the current directory or the one above. -/
theorem ne_dots (h : Ordinary entry) : ∀ n ∈ partsOf entry, n ≠ ['.'] ∧ n ≠ ['.', '.'] := by
  intro n hn
  constructor
  all_goals
    rintro rfl
    exact (h.parts _ hn).2 rfl

/-- An ordinary entry is relative. -/
theorem not_isAbsolute (h : Ordinary entry) : (Path.mk entry.toList).isAbsolute = false := by
  rw [Bool.eq_false_iff]
  intro habs
  obtain ⟨r, hr⟩ : ∃ r, entry.toList = '/' :: r := Path.isAbsolute_iff.mp habs
  exact h.head_ne (by rw [hr]; rfl)

/-- So `trimSlashes` leaves it as it is. -/
theorem trimSlashes_eq (h : Ordinary entry) : trimSlashes entry.toList = entry.toList := by
  unfold trimSlashes
  rcases List.eq_nil_or_concat entry.toList with hnil | ⟨r, c, hc⟩
  · rw [hnil]
    rfl
  · have hslash : c ≠ '/' := by
      rintro rfl
      exact h.getLast_ne (by simp [hc])
    rw [hc, List.concat_eq_append, Text.dropEndWhile_concat, if_neg (by simpa using hslash)]

/-- The entry, read component by component. -/
theorem exists_route (h : Ordinary entry) :
    ∃ patterns, List.Forall₂ (fun s ts => Glob.parse s = .ok ts) (partsOf entry) patterns ∧
      Glob.Route patterns := by
  refine Glob.exists_route (partsOf_ne_nil entry) (fun s hs => ?_) h.last
  exact ⟨(h.parts s hs).1, h.slash s hs, (h.parts s hs).2, h.accepted s hs⟩

end Ordinary

/-- The entry names a directory if the tree has one there. -/
theorem isDirectory_join_iff (h : s.Rooted t cwd base) (hproper : t.Proper)
    (hentry : Ordinary entry) :
    t.isDirectory cwd (s.root.join ⟨entry.toList⟩) = true ↔
      t.entry? (base ++ partsOf entry) = some .directory := by
  have hchars := h.chars_ne_nil
  have hrelative := hentry.not_isAbsolute
  obtain ⟨⟨-, hnul⟩, hfollow, -, -⟩ := locate_eq_ok_iff.mp h.locate
  have hsteps : (s.root.join ⟨entry.toList⟩).steps = s.root.steps ++ partsOf entry := by
    have hentrysteps : (Path.mk entry.toList).steps = partsOf entry := by
      rw [Path.steps, Path.segments_of_relative hrelative]
      exact List.filter_eq_self.mpr fun n hn => by simpa using (hentry.parts n hn).1
    -- an ordinary entry has no empty component to be left out
    rw [Path.steps_join hchars hrelative, hentrysteps]
  have hstart : startOf cwd (s.root.join ⟨entry.toList⟩) = startOf cwd s.root := by
    rw [startOf, startOf, Path.isAbsolute_join hchars hrelative]
  constructor
  · intro hdir
    obtain ⟨place, hl⟩ := exists_locate_of_isDirectory hdir
    obtain ⟨-, hwhole, he, -⟩ := locate_eq_ok_iff.mp hl
    -- the path to the root is followed first, and then the names of the entry
    rw [hsteps, hstart, List.foldlM_append, hfollow] at hwhole
    have hplace := foldlM_follow_eq_ok hwhole
    rw [foldl_step_names hentry.ne_dots] at hplace
    exact hplace ▸ he
  · intro he
    have hfound : t.entry? (base ++ partsOf entry) ≠ none := by simp [he]
    have hlocate : t.locate cwd (s.root.join ⟨entry.toList⟩) =
        .ok (base ++ partsOf entry, some .directory) := by
      refine locate_eq_ok_iff.mpr ⟨⟨Path.join_chars_ne_nil hchars hrelative, ?_⟩, ?_, he, by simp⟩
      · have hentrynul : '\x00' ∉ entry.toList := by
          intro hmem
          rw [← joinSegments_partsOf] at hmem
          rcases Path.mem_joinSegments hmem with hslash | ⟨n, hn, hnul⟩
          · exact absurd hslash (by decide)
          · exact (hproper.validName hfound (List.mem_append_right base hn)).2.2.2.2.1 hnul
        rw [Path.chars_join hchars hrelative]
        split <;> simp [hnul, hentrynul]
      · rw [hsteps, hstart, List.foldlM_append, hfollow]
        exact foldlM_follow_names hproper hfound
    exact (isDirectory_of_locate hlocate).mpr rfl

/-- An entry without wildcards that names a directory stands for everything below it. -/
theorem expand_of_directory (hentry : Ordinary entry) (hplain : Plain entry)
    (hdir : t.isDirectory cwd (s.root.join ⟨entry.toList⟩) = true) :
    s.expand t cwd entry = Glob.behind s.root (partsOf entry ++ [['*', '*'], ['*']]) := by
  -- the test for wildcards does not ask for closing brackets, nor does the reader of patterns
  have hwild : (entry.toList.any fun c => c == '*' || c == '?' || c == '[') = false := by
    rw [List.any_eq_false]
    intro c hc
    have hnot := hplain c hc
    simp only [Glob.wildcards, List.mem_cons, List.not_mem_nil, or_false, not_or] at hnot
    simp [hnot]
  unfold expand Glob.behind
  rw [Path.joinSegments_append (partsOf_ne_nil entry) (by simp), joinSegments_partsOf]
  simp only [hentry.not_isAbsolute, hwild, hdir, hentry.trimSlashes_eq]
  simp [Path.joinSegments, trimSlashes]

/-- An entry that names no directory as it stands becomes a pattern behind the escaped root. -/
theorem expand_of_pattern (hentry : Ordinary entry)
    (hnot : ¬ (Plain entry ∧ t.isDirectory cwd (s.root.join ⟨entry.toList⟩) = true)) :
    s.expand t cwd entry = Glob.behind s.root (partsOf entry) := by
  have hwild : (!(entry.toList.any fun c => c == '*' || c == '?' || c == '[') &&
      t.isDirectory cwd (s.root.join ⟨entry.toList⟩)) = false := by
    rw [Bool.eq_false_iff]
    intro h
    rw [Bool.and_eq_true, Bool.not_eq_true', List.any_eq_false] at h
    refine hnot ⟨fun c hc hmem => ?_, h.2⟩
    have hplain := h.1 c hc
    simp only [Glob.wildcards, List.mem_cons, List.not_mem_nil, or_false] at hmem
    rcases hmem with rfl | rfl | rfl <;> simp at hplain
  unfold expand Glob.behind
  rw [joinSegments_partsOf]
  simp [hentry.not_isAbsolute, hwild, trimSlashes]

/-- The files that a walk behind the root finds. -/
theorem find_files {parts : List (List Char)} {patterns : List (List Glob.Token)}
    (h : s.Rooted t cwd base) (hproper : t.Proper) (hparts : ∀ n ∈ parts, n ≠ [] ∧ '/' ∉ n)
    (hpatterns : List.Forall₂ (fun s ts => Glob.parse s = .ok ts) parts patterns)
    (hroute : Glob.Route patterns) :
    ∃ paths, Glob.find t cwd (Glob.behind s.root parts) = .ok paths ∧
      ∀ p, (p ∈ paths ∧ t.isFile cwd p = true) ↔ ∃ names, p = s.pathTo names ∧
        Glob.MatchesNames patterns names ∧ ∃ c, t.entry? (base ++ names) = some (.file c) := by
  obtain ⟨paths, hfind, hmem⟩ :=
    Glob.find_behind_eq_ok hproper h.locate h.retraceable hparts hpatterns hroute
  refine ⟨paths, hfind, fun p => ?_⟩
  rw [hmem]
  constructor
  · rintro ⟨⟨names, hnames, he, rfl⟩, hfile⟩
    exact ⟨names, rfl, hnames, (isFile_pathTo_iff h hproper he).mp hfile⟩
  · rintro ⟨names, rfl, hnames, c, hc⟩
    have he : t.entry? (base ++ names) ≠ none := by simp [hc]
    exact ⟨⟨names, hnames, he, rfl⟩, (isFile_pathTo_iff h hproper he).mpr ⟨c, hc⟩⟩

/-- The patterns of an entry are no others than those it is read into. -/
theorem patterns_unique {parts : List (List Char)} {patterns patterns' : List (List Glob.Token)}
    (h : List.Forall₂ (fun s ts => Glob.parse s = .ok ts) parts patterns)
    (h' : List.Forall₂ (fun s ts => Glob.parse s = .ok ts) parts patterns') :
    patterns = patterns' :=
  Except.ok.inj ((mapM_eq_ok_iff.mpr h).symm.trans (mapM_eq_ok_iff.mpr h'))

/-- The components of an entry without wildcards are read character by character. -/
theorem forall₂_parse_plain (hplain : Plain entry) :
    List.Forall₂ (fun s ts => Glob.parse s = .ok ts) (partsOf entry)
      ((partsOf entry).map (List.map .char)) := by
  rw [List.forall₂_map_right_iff, List.forall₂_same]
  exact fun n hn => Glob.parse_plain fun c hc => hplain c (Text.mem_of_mem_splitAt hn hc)

/-- A file matches an entry that names a directory if it is below it. -/
theorem matchesNames_iff_includes (hproper : t.Proper) (hplain : Plain entry)
    (hdir : t.entry? (base ++ partsOf entry) = some .directory)
    (hfile : ∃ c, t.entry? (base ++ names) = some (.file c)) :
    Glob.MatchesNames
        ((partsOf entry).map (List.map .char) ++ [[.directories], [.sequence]]) names ↔
      Includes t base entry names := by
  obtain ⟨c, hc⟩ := hfile
  have hne : names ≠ partsOf entry := by
    rintro rfl
    rw [hdir] at hc
    exact absurd hc (by simp)
  have hslash : ∀ n ∈ names, '/' ∉ n := fun n hn =>
    (hproper.validName (by simp [hc]) (List.mem_append_right base hn)).2.2.2.1
  rw [Glob.matchesNames_plain_append_iff]
  constructor
  · rintro ⟨left, rfl, -⟩
    exact .inr ⟨hplain, hdir, List.prefix_append _ _⟩
  · rintro (⟨patterns, hpatterns, hnames⟩ | ⟨-, -, left, rfl⟩)
    · -- without wildcards an entry would only match the directory
      rw [patterns_unique hpatterns (forall₂_parse_plain hplain),
        ← List.append_nil (List.map _ _), Glob.matchesNames_plain_append_iff] at hnames
      obtain ⟨left, rfl, hleft⟩ := hnames
      obtain rfl := Glob.matchesNames_nil_iff.mp hleft
      exact absurd (List.append_nil _) hne
    · refine ⟨left, rfl, (Glob.matchesNames_everything_iff fun n hn => ?_).mpr ?_⟩
      · exact hslash n (List.mem_append_right _ hn)
      · rintro rfl
        exact hne (List.append_nil _)

/-- **Include entries.**  What an include entry leads to are the files that it describes. -/
theorem find_expand (h : s.Rooted t cwd base) (hproper : t.Proper) (hentry : Ordinary entry) :
    ∃ paths, Glob.find t cwd (s.expand t cwd entry) = .ok paths ∧
      ∀ p, (p ∈ paths ∧ t.isFile cwd p = true) ↔ ∃ names, p = s.pathTo names ∧
        Includes t base entry names ∧ ∃ c, t.entry? (base ++ names) = some (.file c) := by
  obtain ⟨patterns, hpatterns, hroute⟩ := hentry.exists_route
  by_cases hdir : Plain entry ∧ t.isDirectory cwd (s.root.join ⟨entry.toList⟩) = true
  · obtain ⟨hplain, hdir⟩ := hdir
    rw [expand_of_directory hentry hplain hdir]
    rw [isDirectory_join_iff h hproper hentry] at hdir
    have hparts : ∀ n ∈ partsOf entry ++ [['*', '*'], ['*']],
        n ≠ [] ∧ '/' ∉ n ∧ n.head? ≠ some '.' ∧ Glob.Accepted n := by
      intro n hn
      rcases List.mem_append.mp hn with hn | hn
      · exact ⟨(hentry.parts n hn).1, hentry.slash n hn, (hentry.parts n hn).2,
          hentry.accepted n hn⟩
      · refine ⟨?_, ?_, ?_, Glob.accepted_of_forall₂ Glob.forall₂_parse_everything n hn⟩
        all_goals
          rcases List.mem_cons.mp hn with rfl | hn
          · decide
          · obtain rfl := List.mem_singleton.mp hn
            decide
    -- the walk follows the entry with `**` and `*` behind it, which is a route as well
    obtain ⟨patterns', hpatterns', hroute'⟩ := Glob.exists_route (by simp) hparts (by simp)
    obtain rfl := patterns_unique hpatterns'
      (List.rel_append (forall₂_parse_plain hplain) Glob.forall₂_parse_everything)
    obtain ⟨paths, hfind, hmem⟩ := find_files h hproper
      (fun n hn => ⟨(hparts n hn).1, (hparts n hn).2.1⟩) hpatterns' hroute'
    refine ⟨paths, hfind, fun p => (hmem p).trans (exists_congr fun names => ?_)⟩
    exact and_congr_right fun _ => and_congr_left fun hfile =>
      matchesNames_iff_includes hproper hplain hdir hfile
  · rw [expand_of_pattern hentry hdir]
    rw [isDirectory_join_iff h hproper hentry] at hdir
    obtain ⟨paths, hfind, hmem⟩ := find_files h hproper
      (fun n hn => ⟨(hentry.parts n hn).1, hentry.slash n hn⟩) hpatterns hroute
    refine ⟨paths, hfind, fun p => (hmem p).trans (exists_congr fun names => ?_)⟩
    refine and_congr_right fun _ => and_congr_left fun _ => ?_
    constructor
    · intro hnames
      exact .inl ⟨patterns, hpatterns, hnames⟩
    · rintro (⟨patterns', hpatterns', hnames⟩ | ⟨hplain, he, -⟩)
      · exact patterns_unique hpatterns' hpatterns ▸ hnames
      · exact absurd ⟨hplain, he⟩ hdir

end DeclarationDocs.SourceScan
