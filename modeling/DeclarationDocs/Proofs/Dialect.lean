import DeclarationDocs.Proofs.Characters
import DeclarationDocs.Proofs.JobQueue
import DeclarationDocs.Proofs.Path.Spelling

namespace DeclarationDocs

open DeclarationDocs.Path Text

/-!
# The dialect of a file

The dialect of a file is decided by the last component of its path.  Whether that is looked at as a
name, as an ending in small letters or as what stands behind its last dot, it comes to one rule.
A scan keeps to this rule, so a queue reads every file of its scan in the dialect of the file.

* `Dialect.Named d l` — a file with the name `l` in small letters is a source of the dialect `d`;
* `extensionOf_eq_some_iff` — what stands behind the last dot;
* `ofFileName?_eq_some_iff` — the rule for names; `ofPath?_eq_some_iff` — the rule for paths;
* `fileName_append_void` — slashes and `.` behind a path are no part of its name;
* `JobQueue.contribution` — what comes of a file that is read in a dialect;
* `Dialect.detected` — the rule for `ofPath? p = some d`, and what it means for scans and queues.
-/

variable {p : Path} {n x l : List Char} {d : Dialect} {project : Project} {outputRoot : Path}
  {t : FileTree} {cwd : Place} {files : List Path}

/-! ### Names -/

namespace Dialect

/-- The endings of the sources of a dialect. -/
def endings : Dialect → List (List Char)
  | typeScript => [['.', 't', 's'], ['.', 'm', 't', 's'], ['.', 'c', 't', 's']]
  | tsx => [['.', 't', 's', 'x']]

/-- The name of a source of the dialect, in small letters: there is something in front of an ending
    of the dialect, and the file does not only declare types. -/
structure Named (d : Dialect) (l : List Char) : Prop where
  ending : ∃ e ∈ d.endings, ∃ stem, stem ≠ [] ∧ l = stem ++ e
  notTypeOnly : ∀ e ∈ typeOnlyEndings, ¬ e <:+ l

/-- No ending has a letter that anything beyond ASCII becomes in lower case. -/
theorem plain_of_mem_endings {e : List Char} (he : e ∈ d.endings) : ∀ x ∈ e, Plain x := by
  revert e
  cases d <;> simp [endings, Plain]

theorem plain_of_mem_typeOnlyEndings : ∀ e ∈ typeOnlyEndings, ∀ x ∈ e, Plain x := by
  simp [typeOnlyEndings, Plain]

/-- An ending is a dot and an extension without dots. -/
theorem exists_extension_of_mem_endings {e : List Char} (he : e ∈ d.endings) :
    ∃ x, e = '.' :: x ∧ '.' ∉ x := by
  have hall : ∀ e ∈ d.endings, e = '.' :: e.tail ∧ '.' ∉ e.tail := by cases d <;> decide
  exact ⟨e.tail, hall e he⟩

/-- The extensions of a dialect are its endings without the dot. -/
theorem ofExtension?_eq_some_iff : ofExtension? x = some d ↔ '.' :: x ∈ d.endings := by
  unfold ofExtension?
  split
  · rename_i h
    rcases h with rfl | rfl | rfl <;> cases d <;> decide
  · rename_i hother
    simp only [not_or] at hother
    split
    · rename_i h
      subst h
      cases d <;> decide
    · rename_i htsx
      cases d <;> simp [endings, hother, htsx]

end Dialect

/-! ### Extensions -/

namespace Path

/-- A name without a dot has no extension. -/
theorem extensionOf_of_not_mem (h : '.' ∉ n) : extensionOf n = none := by
  have hall : ∀ c ∈ n.reverse, (c != '.') = true := by
    intro c hc
    simpa using fun hdot : c = '.' => h (hdot ▸ List.mem_reverse.mp hc)
  unfold extensionOf
  simp [List.takeWhile_eq_self_iff.mpr hall]

/-- What stands behind the last dot is an extension if something stands in front of the dot. -/
theorem extensionOf_append (stem : List Char) (hx : '.' ∉ x) :
    extensionOf (stem ++ '.' :: x) = if stem = [] then none else some x := by
  have hall : ∀ c ∈ x.reverse, (c != '.') = true := by
    intro c hc
    simpa using fun hdot : c = '.' => hx (hdot ▸ List.mem_reverse.mp hc)
  have hafter : ((stem ++ '.' :: x).reverse.takeWhile (· != '.')).reverse = x := by
    rw [List.reverse_append, List.reverse_cons, List.append_assoc,
      List.takeWhile_append_of_pos hall]
    simp
  have hlength : x.length + 1 < (stem ++ '.' :: x).length ↔ stem ≠ [] := by
    rw [← List.length_pos_iff, List.length_append, List.length_cons]
    omega
  unfold extensionOf
  simp only [hafter, hlength, ite_not]

/-- **Extensions.**  A name has an extension if it has a dot with something in front of it: what
    stands behind its last dot. -/
theorem extensionOf_eq_some_iff :
    extensionOf n = some x ↔ ∃ stem, stem ≠ [] ∧ n = stem ++ '.' :: x ∧ '.' ∉ x := by
  constructor
  · intro h
    by_cases hdot : '.' ∈ n
    · obtain ⟨after, before, hn, hafter⟩ :=
        List.eq_append_cons_of_mem (List.mem_reverse.mpr hdot)
      have hn : n = before.reverse ++ '.' :: after.reverse := by
        rw [← List.reverse_inj, hn]
        simp
      have hafter : '.' ∉ after.reverse := by simpa using hafter
      rw [hn, extensionOf_append _ hafter] at h
      split at h
      · exact absurd h (by simp)
      · rename_i hne
        obtain rfl := Option.some.inj h
        exact ⟨_, hne, hn, hafter⟩
    · exact absurd (extensionOf_of_not_mem hdot ▸ h) (by simp)
  · rintro ⟨stem, hne, rfl, hx⟩
    rw [extensionOf_append stem hx, if_neg hne]

end Path

/-! ### The rule -/

namespace Dialect

/-- A file name has the dialect of its extension, unless it has an ending of declarations only. -/
theorem ofFileName?_eq_some_iff_extension :
    ofFileName? n = some d ↔
      (∀ e ∈ typeOnlyEndings, ¬ e <:+ lowerAscii n) ∧
        ∃ x, extensionOf n = some x ∧ '.' :: lowerAscii x ∈ d.endings := by
  unfold ofFileName?
  split
  · rename_i h
    obtain ⟨e, he, hsuffix⟩ := List.any_eq_true.mp h
    simp only [reduceCtorEq, false_iff, not_and]
    exact fun hnone => absurd (List.isSuffixOf_iff_suffix.mp hsuffix) (hnone e he)
  · rename_i h
    have hnone : ∀ e ∈ typeOnlyEndings, ¬ e <:+ lowerAscii n := fun e he hsuffix =>
      h (List.any_eq_true.mpr ⟨e, he, List.isSuffixOf_iff_suffix.mpr hsuffix⟩)
    rw [Option.bind_eq_some_iff, and_iff_right hnone]
    simp only [ofExtension?_eq_some_iff]

/-- **The rule for names.**  However the name is brought into lower case beyond ASCII, its dialect
    is that of its ending in lower case. -/
theorem ofFileName?_eq_some_iff (h : Lowered n l) : ofFileName? n = some d ↔ d.Named l := by
  -- both sides ask for endings of the name itself, in capitals or small letters
  have htypeOnly : ∀ e ∈ typeOnlyEndings, (e <:+ lowerAscii n ↔ e <:+ l) := fun e he => by
    have hplain := plain_of_mem_typeOnlyEndings e he
    rw [h.suffix_iff hplain, (lowered_lowerAscii n).suffix_iff hplain]
  have hending : (∃ x, extensionOf n = some x ∧ '.' :: lowerAscii x ∈ d.endings) ↔
      ∃ e ∈ d.endings, ∃ stem, stem ≠ [] ∧ l = stem ++ e := by
    constructor
    · rintro ⟨x, hx, he⟩
      obtain ⟨stem, hne, hn, -⟩ := extensionOf_eq_some_iff.mp hx
      exact ⟨_, he, (h.ending_iff (plain_of_mem_endings he)).mpr ⟨stem, _, hne, hn, rfl⟩⟩
    · rintro ⟨e, he, hl⟩
      obtain ⟨stem, b, hne, hn, hb⟩ := (h.ending_iff (plain_of_mem_endings he)).mp hl
      obtain ⟨x, rfl, hx⟩ := exists_extension_of_mem_endings he
      obtain ⟨c, b, rfl, hc, hrest⟩ := List.map_eq_cons_iff.mp hb
      obtain rfl := eq_of_toLower_eq (by decide) hc
      obtain rfl : lowerAscii b = x := hrest
      refine ⟨b, extensionOf_eq_some_iff.mpr ⟨stem, hne, hn, fun hdot => hx ?_⟩, he⟩
      exact List.mem_map_of_mem (f := Char.toLower) hdot
  rw [ofFileName?_eq_some_iff_extension, hending]
  constructor
  · rintro ⟨hnone, hends⟩
    exact ⟨hends, fun e he => (htypeOnly e he).not.mp (hnone e he)⟩
  · rintro ⟨hends, hnone⟩
    exact ⟨fun e he => (htypeOnly e he).not.mpr (hnone e he), hends⟩

end Dialect

/-! ### Paths -/

namespace Path

/-- Behind a slash, a path goes on with the segments that are written there. -/
theorem segments_append_slash (hp : p.chars ≠ []) (r : List Char) :
    (Path.mk (p.chars ++ '/' :: r)).isAbsolute = p.isAbsolute ∧
      (Path.mk (p.chars ++ '/' :: r)).segments = p.segments ++ Text.splitAt '/' r := by
  have habs : (Path.mk (p.chars ++ '/' :: r)).isAbsolute = p.isAbsolute := by
    obtain ⟨c, s, hc⟩ := List.exists_cons_of_ne_nil hp
    unfold isAbsolute
    rw [hc]
    by_cases hslash : c = '/' <;> simp [hslash]
  have hpos : 0 < (Text.splitAt '/' p.chars).length :=
    List.length_pos_iff.mpr (Text.splitAt_ne_nil _ _)
  refine ⟨habs, ?_⟩
  rw [segments_eq_drop, segments_eq_drop p, habs, Text.splitAt_append_cons,
    List.drop_append_of_le_length]
  split <;> omega

/-- What is split at slashes and consists of void segments has no components. -/
theorem filterMap_splitAt_void {segs : List (List Char)} (h : ∀ s ∈ segs, isVoid s = true) :
    (Text.splitAt '/' (joinSegments segs)).filterMap componentOf = [] := by
  have hpieces : ∀ s ∈ Text.splitAt '/' (joinSegments segs), isVoid s = true := by
    by_cases hne : segs = []
    · rw [hne]
      decide
    · have hslash : ∀ s ∈ segs, '/' ∉ s := by
        intro s hs
        have hvoid : s = [] ∨ s = ['.'] := by simpa [isVoid] using h s hs
        rcases hvoid with rfl | rfl <;> decide
      rwa [splitAt_joinSegments hne hslash]
  exact List.filterMap_eq_nil_iff.mpr fun s hs => componentOf_of_isVoid (hpieces s hs)

/-- **The end of a path.**  Void segments behind a path are no part of its name. -/
theorem fileName_append_void (p : Path) {segs : List (List Char)}
    (h : ∀ s ∈ segs, isVoid s = true) :
    (Path.mk (p.chars ++ '/' :: joinSegments segs)).fileName = p.fileName := by
  have hnone := filterMap_splitAt_void h
  by_cases hp : p.chars = []
  · -- behind nothing, the slash is the root, which is no name either
    have hroot : (Path.mk (p.chars ++ '/' :: joinSegments segs)).components = [.root] := by
      rw [hp, List.nil_append, components_of_isAbsolute rfl]
      exact congrArg _ (segments_ofSegments_true segs ▸ hnone)
    rw [fileName, fileName, hroot, components_of_chars_eq_nil hp]
    rfl
  · obtain ⟨habs, hsegments⟩ := segments_append_slash hp (joinSegments segs)
    have hcomponents : (Path.mk (p.chars ++ '/' :: joinSegments segs)).components =
        p.components := by
      rw [components, components, habs, hsegments]
      split
      · rw [List.filterMap_append, hnone, List.append_nil]
      · rename_i hrelative
        have hne := segments_ne_nil_of_not_isAbsolute (by simpa using hrelative)
        rw [relativeComponents_append hne, hnone, List.append_nil]
    rw [fileName, fileName, hcomponents]

/-- A path that goes up last has no name. -/
theorem fileName_join_parent (p : Path) : (p.join ⟨['.', '.']⟩).fileName = none := by
  have hcomponents := components_join_relative (p := p) (q := ⟨['.', '.']⟩) rfl (by decide)
  have hlast : (p.join ⟨['.', '.']⟩).components.getLast? = some .parent := by
    rw [hcomponents, show (Path.mk ['.', '.']).components = [.parent] from by decide,
      List.getLast?_concat]
  rw [fileName, hlast]

end Path

/-! ### Files of a scan -/

namespace JobQueue

/-- What comes of a file that is read in a dialect: the failure to read it, or its jobs. -/
def contribution (project : Project) (outputRoot : Path) (t : FileTree) (cwd : Place)
    (d : Dialect) (file : Path) : List (Except Failure Job) :=
  match readSource project t cwd d file with
  | .error e => [.error e]
  | .ok u => (u.jobs outputRoot).map .ok

/-- The jobs of a file with a dialect are those of what is read from it. -/
theorem jobsOf_of_dialect {file : Path} (h : Dialect.ofPath? file = some d) :
    jobsOf project outputRoot t cwd file =
      (readSource project t cwd d file).map fun u => u.jobs outputRoot := by
  rw [jobsOf, h]

/-- Files with a dialect are all read, each in its own.  By induction on the files. -/
theorem exists_dialects (project : Project) (outputRoot : Path) (t : FileTree) (cwd : Place)
    (h : ∀ f ∈ files, (Dialect.ofPath? f).isSome = true) :
    ∃ dialects : List Dialect, files.map Dialect.ofPath? = dialects.map some ∧
      toList ⟨project, outputRoot, [], files⟩ t cwd =
        (List.zipWith (contribution project outputRoot t cwd) dialects files).flatten := by
  simp only [toList_eq_itemsOf, itemsOf]
  induction files with
  | nil => exact ⟨[], rfl, rfl⟩
  | cons file files ih =>
    obtain ⟨hfile, hfiles⟩ := List.forall_mem_cons.mp h
    obtain ⟨d, hd⟩ := Option.isSome_iff_exists.mp hfile
    obtain ⟨dialects, hmap, hitems⟩ := ih hfiles
    refine ⟨d :: dialects, by rw [List.map_cons, hd, hmap, List.map_cons], ?_⟩
    rw [List.flatMap_cons, hitems, List.zipWith_cons_cons, List.flatten_cons,
      jobsOf_of_dialect hd, contribution]
    cases readSource project t cwd d file <;> rfl

end JobQueue

namespace Dialect

/-- For any way `lower` to lower a text, the dialect of a path is that of its last component. -/
theorem ofPath?_eq_some_iff {lower : List Char → List Char} (hlower : ∀ s, Lowered s (lower s)) :
    ofPath? p = some d ↔
      ∃ n, p.components.getLast? = some (.name n) ∧ d.Named (lower n) := by
  rw [ofPath?, Option.bind_eq_some_iff]
  exact exists_congr fun n => and_congr fileName_eq_some_iff (ofFileName?_eq_some_iff (hlower n))

/-- Only the last component counts, and capitals in ASCII do not. -/
theorem ofPath?_congr {q : Path} {m : List Char} (hp : p.components.getLast? = some (.name n))
    (hq : q.components.getLast? = some (.name m)) (h : lowerAscii n = lowerAscii m) :
    ofPath? p = ofPath? q := by
  refine Option.ext fun d => ?_
  rw [ofPath?_eq_some_iff lowered_lowerAscii, ofPath?_eq_some_iff lowered_lowerAscii, hp, hq]
  simp [h]

/-- **Detection.**  For any `lower` that brings texts into lower case, `ofPath? p = some d` just
    when the last component of `p` is a name and `lower` of it has something in front of an ending
    of `d`, and is not that of a file that only declares types (`d.Named`).  Slashes and `.`
    behind a path do not count, and a path that goes up last has no dialect; so it depends on the
    last component alone, and not on capitals in ASCII.  Every file of a scan has a dialect and is
    read in it whenever a queue comes to it (`JobQueue.jobsOf`); and what comes out of the queue
    of a project is the `JobQueue.contribution` of all files of its scan. -/
theorem detected {lower : List Char → List Char} (hlower : ∀ s, Lowered s (lower s)) :
    (∀ p d, ofPath? p = some d ↔
      ∃ n, p.components.getLast? = some (.name n) ∧ d.Named (lower n)) ∧
    (∀ (p : Path) (segs : List (List Char)), (∀ s ∈ segs, isVoid s = true) →
      ofPath? ⟨p.chars ++ '/' :: joinSegments segs⟩ = ofPath? p) ∧
    (∀ p : Path, ofPath? (p.join ⟨['.', '.']⟩) = none) ∧
    (∀ p q : Path, p.components.getLast? = q.components.getLast? → ofPath? p = ofPath? q) ∧
    (∀ (p q : Path) (n m : List Char), p.components.getLast? = some (.name n) →
      q.components.getLast? = some (.name m) → lowerAscii n = lowerAscii m →
      ofPath? p = ofPath? q) ∧
    (∀ (s : SourceScan) (t : FileTree) (cwd : Place) (files : List Path),
      s.run t cwd = .ok files → ∀ f ∈ files, ∃ d, ofPath? f = some d ∧
        ∀ project outputRoot t' cwd', JobQueue.jobsOf project outputRoot t' cwd' f =
          (JobQueue.readSource project t' cwd' d f).map fun u => u.jobs outputRoot) ∧
    (∀ (project : Project) (outputRoot : Path) (t : FileTree) (cwd : Place) (files : List Path),
      project.sourceFiles t cwd = .ok files →
        ∃ dialects : List Dialect, files.map ofPath? = dialects.map some ∧
          (JobQueue.start project outputRoot t cwd).map (fun queue => queue.toList t cwd) =
            .ok (List.zipWith (JobQueue.contribution project outputRoot t cwd) dialects
              files).flatten) := by
  refine ⟨fun p d => ofPath?_eq_some_iff hlower, fun p segs hsegs => ?_, fun p => ?_,
    fun p q h => ?_, fun p q n m => ofPath?_congr, fun s t cwd files hrun f hf => ?_,
    fun project outputRoot t cwd files hfiles => ?_⟩
  · rw [ofPath?, ofPath?, fileName_append_void p hsegs]
  · rw [ofPath?, fileName_join_parent]
    rfl
  · rw [ofPath?, ofPath?, fileName, fileName, h]
  · obtain ⟨d, hd⟩ := Option.isSome_iff_exists.mp (SourceScan.dialect_of_mem_run hrun hf)
    exact ⟨d, hd, fun _ _ _ _ => JobQueue.jobsOf_of_dialect hd⟩
  · obtain ⟨dialects, hmap, hlist⟩ := JobQueue.exists_dialects project outputRoot t cwd
      fun f hf => SourceScan.dialect_of_mem_run hfiles hf
    refine ⟨dialects, hmap, ?_⟩
    rw [JobQueue.start, hfiles, ← hlist]
    rfl

/-- Lower case that knows one capital beyond ASCII, the I with a dot. -/
def lowerDotted (s : List Char) : List Char :=
  s.flatMap fun c => if c = 'İ' then ['i', '\u0307'] else [c.toLower]

theorem lowered_lowerDotted (s : List Char) : Lowered s (lowerDotted s) := by
  induction s with
  | nil => exact .nil
  | cons c s ih =>
    by_cases hc : c = 'İ'
    · subst hc
      show Lowered ('İ' :: s) (['i', '\u0307'] ++ lowerDotted s)
      exact .beyond (by decide) (by simp) (by simp) ih
    · have hcons : lowerDotted (c :: s) = c.toLower :: lowerDotted s := by
        simp [lowerDotted, hc]
      rw [hcons]
      exact ih.cons_toLower c

/-- A name with capitals in ASCII and beyond, in front of a slash and a `.`. -/
theorem detected_dotted :
    (∀ s, Lowered s (lowerDotted s)) ∧
    (Path.mk "../İd.TSX/.".toList).components.getLast? = some (.name "İd.TSX".toList) ∧
    tsx.Named (lowerDotted "İd.TSX".toList) ∧ ofPath? ⟨"../İd.TSX/.".toList⟩ = some tsx := by
  have hlast : (Path.mk "../İd.TSX/.".toList).components.getLast? =
      some (.name "İd.TSX".toList) := by decide
  have hnamed : tsx.Named (lowerDotted "İd.TSX".toList) :=
    ⟨⟨['.', 't', 's', 'x'], by decide, ['i', '\u0307', 'd'], by decide, by decide⟩, by decide⟩
  exact ⟨lowered_lowerDotted, hlast, hnamed,
    ((detected lowered_lowerDotted).1 _ _).mpr ⟨_, hlast, hnamed⟩⟩

end Dialect

end DeclarationDocs
