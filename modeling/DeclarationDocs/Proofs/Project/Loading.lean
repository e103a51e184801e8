import DeclarationDocs.Proofs.FileTree.Storing
import DeclarationDocs.Proofs.Json.Printing
import DeclarationDocs.Proofs.Project.Anchored
import DeclarationDocs.Proofs.Project.Reading

namespace DeclarationDocs.Project

open FileTree DeclarationDocs.Path
open Json (lexemes)
open Json.Relaxed (strict)

/-!
# Loading projects

Whether a project can be loaded is decided in four steps, each of which has a failure of its own:
there has to be a file, which is text, is a project file, and includes something.  Then the project
is what the file says, with roots that are absolute.

* `load_of_locate`, `load_of_spelt` — what is made of a file, and of a project file;
* `LoadedAs t cwd p w project` — the project whose file, by the path `p`, has `w` written in it;
* `loadedAs_ofFile` — the project that a file describes is one;
* `load_outcome` — `.projectNotFound`, `.io`, `.config` and `.emptyInclude`, or the project.
-/

variable {t : FileTree} {cwd q : Place} {p : Path} {c : Content} {w : Written} {project : Project}

/-! ### Files -/

/-- What is made of a file: what it says, or what is wrong with it. -/
theorem load_of_locate (hproper : t.Proper) (h : t.locate cwd p = .ok (q, some (.file c))) :
    load t cwd p = match c with
      | .raw _ => .error (.io .notUtf8)
      | .text text =>
        match File.read text with
        | .error e => .error (.config (.projectFile (pathOf q) e))
        | .ok f =>
          if f.includes.isEmpty then .error (.emptyInclude p) else .ok (ofFile (pathOf q) f) := by
  have hfile : t.isFile cwd p = true := by
    rw [isFile, h]
  have hcanonical : t.canonical cwd p = .ok (pathOf q) := by
    rw [canonical, h]
  -- the canonical path leads back to the file
  have hback : t.locate cwd (pathOf q) = .ok (q, some (.file c)) :=
    locate_pathOf hproper (locate_eq_ok h).2
  unfold load
  simp only [hfile, Bool.not_true, Bool.false_eq_true, if_false, hcanonical, readText, hback]
  cases c <;> rfl

/-- A text with this written in it is read, and includes something or nothing. -/
theorem load_of_spelt {text : String} (hproper : t.Proper)
    (h : t.locate cwd p = .ok (q, some (.file (.text text))))
    (hw : w.Spelt (lexemes (strict text.toList))) :
    load t cwd p = if w.file.includes.isEmpty then .error (.emptyInclude p)
      else .ok (ofFile (pathOf q) w.file) := by
  rw [load_of_locate hproper h]
  simp only [File.read_eq_ok_iff.mpr ⟨w, hw, rfl⟩]

/-- A project file has no include entries if there are none, or none are written. -/
theorem isEmpty_includes_iff (w : Written) :
    w.file.includes.isEmpty = true ↔ w.includes = none ∨ w.includes = some [] := by
  rw [List.isEmpty_iff, Written.file]
  cases w.includes <;> simp

/-- Without a file there is no project. -/
theorem load_eq_projectNotFound_iff (hproper : t.Proper) {p' : Path} :
    load t cwd p = .error (.projectNotFound p') ↔ t.isFile cwd p = false ∧ p' = p := by
  cases hfile : t.isFile cwd p with
  | false =>
    have hload : load t cwd p = .error (.projectNotFound p) := by
      rw [load, hfile]
      rfl
    simp [hload, eq_comm]
  | true =>
    obtain ⟨q, c, hl⟩ := exists_locate_of_isFile hfile
    rw [load_of_locate hproper hl]
    repeat' split
    all_goals simp

/-- A file has a name, and stands in a directory. -/
theorem exists_concat_of_locate (hproper : t.Proper)
    (h : t.locate cwd p = .ok (q, some (.file c))) :
    ∃ above n, q = above ++ [n] ∧ ∀ m ∈ above ++ [n], ValidName m := by
  have hentry := (locate_eq_ok h).2
  have hne : q ≠ [] := by
    rintro rfl
    simp [entry?_nil] at hentry
  obtain ⟨above, n, hq⟩ := (List.eq_nil_or_concat q).resolve_left hne
  rw [List.concat_eq_append] at hq
  exact ⟨above, n, hq, fun m hm => hproper.validName (by rw [hentry]; simp) (hq ▸ hm)⟩

/-! ### Projects -/

/-- The project whose file, by the path `p`, has `w` written in it: the lists as they are written,
    the directory of the file, and a source root that is spelled by names alone. -/
structure LoadedAs (t : FileTree) (cwd : Place) (p : Path) (w : Written) (project : Project) :
    Prop where
  includes : w.includes = some project.includes
  nonempty : project.includes ≠ []
  excludes : project.excludes = w.excludes.getD []
  configPath : t.canonical cwd p = .ok project.configPath
  root : project.configPath.parent = some project.root
  isAbsolute : project.sourceRoot.isAbsolute = true
  names : ∃ names : List (List Char), project.sourceRoot.components = .root :: names.map .name
  unset : w.rootDir = none → project.sourceRoot = project.root
  set : ∀ dir, w.rootDir = some dir → project.sourceRoot.components =
    .root :: (destination cwd (project.root.join (ofString dir))).map .name

/-- The path of a place is spelled by the names on the way to it. -/
theorem components_pathOf_names (hq : ∀ m ∈ q, ValidName m) :
    (pathOf q).components = .root :: q.map .name :=
  components_ofSegments true (spelled_of_validName hq)

/-- The project that a file describes has in it what is written there. -/
theorem loadedAs_ofFile (hproper : t.Proper) (h : t.locate cwd p = .ok (q, some (.file c)))
    (hi : w.file.includes ≠ []) : LoadedAs t cwd p w (ofFile (pathOf q) w.file) := by
  obtain ⟨above, n, rfl, hvalid⟩ := exists_concat_of_locate hproper h
  have habove : ∀ m ∈ above, ValidName m := fun m hm => hvalid m (List.mem_append_left _ hm)
  have hroot : (ofFile (pathOf (above ++ [n])) w.file).root = pathOf above := root_ofFile hvalid _
  have habs : ∀ dir : Path, ((pathOf above).join dir).isAbsolute = true :=
    fun _ => isAbsolute_join_left rfl
  have hunset : w.rootDir = none →
      (ofFile (pathOf (above ++ [n])) w.file).sourceRoot = pathOf above := by
    intro hdir
    rw [← hroot]
    show w.rootDir.elim _ _ = _
    rw [hdir]
    rfl
  have hset : ∀ dir, w.rootDir = some dir →
      (ofFile (pathOf (above ++ [n])) w.file).sourceRoot =
        ((pathOf above).join (ofString dir)).normalize := by
    intro dir hdir
    rw [← hroot]
    show w.rootDir.elim _ _ = _
    rw [hdir]
    rfl
  exact
    { includes := by
        cases hw : w.includes with
        | none => exact absurd (by rw [Written.file, hw]; rfl) hi
        | some is => exact congrArg some (by show _ = w.includes.getD []; rw [hw]; rfl)
      nonempty := hi
      excludes := rfl
      configPath := by rw [canonical, h]; rfl
      root := by rw [hroot]; exact parent_pathOf hvalid
      isAbsolute := (anchored_ofFile hvalid _).sourceRoot
      names := by
        cases hdir : w.rootDir with
        | none => exact ⟨above, by rw [hunset hdir, components_pathOf_names habove]⟩
        | some dir => exact ⟨_, by rw [hset dir hdir, components_normalize cwd (habs _)]⟩
      unset := fun hdir => by rw [hunset hdir, hroot]
      set := fun dir hdir => by rw [hset dir hdir, hroot, components_normalize cwd (habs _)] }

/-- **Outcomes of `load t cwd p`.**  A path that leads to no file is `.projectNotFound`.  A file
    that is not text is an `.io` failure, a text that no `Written` project file is `Spelt` as is a
    fault of the configuration (`.config`), and a project file without patterns, written or not,
    is `.emptyInclude`.  In every other case there is a project, and it is what is written
    (`LoadedAs`). -/
theorem load_outcome (hproper : t.Proper) (cwd : Place) (p : Path) :
    (∀ p', load t cwd p = .error (.projectNotFound p') ↔ t.isFile cwd p = false ∧ p' = p) ∧
    ∀ q c, t.locate cwd p = .ok (q, some (.file c)) →
      (∀ e, load t cwd p = .error (.io e) ↔ (∃ bytes, c = .raw bytes) ∧ e = .notUtf8) ∧
      ∀ text, c = .text text →
        ((∃ e, load t cwd p = .error (.config e)) ↔
          ¬ ∃ w : Written, w.Spelt (lexemes (strict text.toList))) ∧
        ∀ w : Written, w.Spelt (lexemes (strict text.toList)) →
          (∀ p', load t cwd p = .error (.emptyInclude p') ↔
            (w.includes = none ∨ w.includes = some []) ∧ p' = p) ∧
          (∀ i is, w.includes = some (i :: is) →
            ∃ project, load t cwd p = .ok project ∧ LoadedAs t cwd p w project) := by
  refine ⟨fun p' => load_eq_projectNotFound_iff hproper, fun q c hl => ?_⟩
  have hload := load_of_locate hproper hl
  refine ⟨fun e => ?_, ?_⟩
  · rw [hload]
    cases c with
    | raw bytes => simp [eq_comm]
    | text text =>
      simp only
      repeat' split
      all_goals simp
  rintro text rfl
  refine ⟨?_, fun w hw => ?_⟩
  · rw [← File.exists_fault_iff, hload]
    simp only
    cases File.read text with
    | error e => simp
    | ok f =>
      simp only
      split <;> simp
  have hread := load_of_spelt hproper hl hw
  refine ⟨fun p' => ?_, fun i is hi => ?_⟩
  · rw [hread, ← isEmpty_includes_iff]
    cases w.file.includes.isEmpty <;> simp [eq_comm]
  · have hincludes : w.file.includes = i :: is := by
      show w.includes.getD [] = _
      rw [hi]
      rfl
    refine ⟨_, ?_, loadedAs_ofFile hproper hl (by simp [hincludes])⟩
    rw [hread, hincludes]
    rfl

/-- A project file with a comment, a comma too many, and a source root that goes up. -/
def relaxedText : String :=
  "\x7b\"include\":[\"b\",\"a\",], // both\n\"compilerOptions\":\x7b\"rootDir\":\"./s/../r\"\x7d\x7d"

/-- The project file in a directory of its own. -/
def relaxedTree : FileTree :=
  ⟨[(["p".toList], .directory), (["p".toList, "c".toList], .file (.text relaxedText))]⟩

/-- What is written in it. -/
def relaxedWritten : Written := ⟨some ["b", "a"], none, some "./s/../r"⟩

/-- Without its comments and commas the text has these lexemes. -/
theorem lexemes_relaxedText : lexemes (strict relaxedText.toList) =
    ["\x7b", "\"include\"", ":", "[", "\"b\"", ",", "\"a\"", "]", ",", "\"compilerOptions\"", ":",
      "\x7b", "\"rootDir\"", ":", "\"./s/../r\"", "\x7d", "\x7d"].map String.toList := by
  decide +kernel

/-- They spell what is written. -/
theorem spelt_relaxedText : relaxedWritten.Spelt (lexemes (strict relaxedText.toList)) := by
  have hkey : ∀ k : String, Json.Key k (Json.quoted k.toList) := Json.key_quoted
  have hlist : Shape.Spells Shape.passedOver 127 (.value (.list .text) (textsOf ["b", "a"]))
      ("[".toList :: (["\"b\"".toList] ++ (",".toList :: (["\"a\"".toList] ++ ["]".toList])))) :=
    .list (by decide) (.item (.text (hkey "b")) (.item (.text (hkey "a")) .noItem))
  have hoptions : Shape.Spells Shape.passedOver 127
      (.value compilerOptionsShape (optionsOf (some "./s/../r")))
      ("\x7b".toList :: ("\"rootDir\"".toList :: ":".toList ::
        (["\"./s/../r\"".toList] ++ ["\x7d".toList]))) :=
    .object (by decide) (.known (hkey "rootDir") rfl rfl (.present (.text (hkey "./s/../r")))
      .noMember) rfl
  have hmembers : Shape.Spells Shape.passedOver (Json.depthLimit - 1) (.members true fileFields []
      [("compilerOptions", optionsOf (some "./s/../r")), ("include", textsOf ["b", "a"])]) _ :=
    .known (hkey "include") rfl rfl hlist
      (.known (hkey "compilerOptions") rfl rfl hoptions .noMember)
  rw [lexemes_relaxedText]
  exact .object hmembers ⟨rfl, rfl, rfl⟩

/-- So that project can be loaded, by a path that goes astray first. -/
theorem load_outcome_relaxed :
    relaxedTree.Proper ∧
      relaxedTree.locate ["p".toList] ⟨"./../p/c".toList⟩ =
        .ok (["p".toList, "c".toList], some (.file (.text relaxedText))) ∧
      relaxedWritten.Spelt (lexemes (strict relaxedText.toList)) ∧
      relaxedWritten.includes = some ["b", "a"] ∧
      ∃ project, load relaxedTree ["p".toList] ⟨"./../p/c".toList⟩ = .ok project ∧
        LoadedAs relaxedTree ["p".toList] ⟨"./../p/c".toList⟩ relaxedWritten project := by
  have hproper : relaxedTree.Proper := ⟨by decide, by decide⟩
  have hlocate : relaxedTree.locate ["p".toList] ⟨"./../p/c".toList⟩ =
      .ok (["p".toList, "c".toList], some (.file (.text relaxedText))) := rfl
  have hfile := (load_outcome hproper ["p".toList] ⟨"./../p/c".toList⟩).2 _ _ hlocate
  have hloaded := ((hfile.2 relaxedText rfl).2 relaxedWritten spelt_relaxedText).2
  exact ⟨hproper, hlocate, spelt_relaxedText, rfl, hloaded "b" ["a"] rfl⟩

end DeclarationDocs.Project
