import DeclarationDocs.Project
import DeclarationDocs.Proofs.FileTree.Resolving

namespace DeclarationDocs

/-!
# Where the sources of a project lie

A project that was read from a file has absolute roots, since the path of the file is made
canonical first.  So a source is placed below one of them, or by its name alone, and its place
within the project is a relative path.

* `Project.Anchored` — both roots are absolute; `Project.anchored_of_load` — every project that
  can be loaded is anchored;
* `Project.between` — the components between a root and the name of a source;
* `Project.relativePath_spec` — the place of a source within an anchored project.
-/

open FileTree DeclarationDocs.Path

variable {t : FileTree} {cwd : Place} {p out : Path} {project : Project} {file : Path}

namespace Project

/-! ### Loaded projects -/

/-- A project whose roots do not depend on where relative paths start. -/
structure Anchored (project : Project) : Prop where
  root : project.root.isAbsolute = true
  sourceRoot : project.sourceRoot.isAbsolute = true

/-- The directory of a project file at the path of a place is the place above it. -/
theorem root_ofFile {q : Place} {n : List Char} (hq : ∀ m ∈ q ++ [n], ValidName m) (f : File) :
    (ofFile (pathOf (q ++ [n])) f).root = pathOf q := by
  show (pathOf (q ++ [n])).parent.getD _ = _
  rw [parent_pathOf hq, Option.getD_some]

/-- A project file at the path of a place describes an anchored project. -/
theorem anchored_ofFile {q : Place} {n : List Char} (hq : ∀ m ∈ q ++ [n], ValidName m) (f : File) :
    (ofFile (pathOf (q ++ [n])) f).Anchored := by
  refine ⟨by rw [root_ofFile hq]; rfl, ?_⟩
  show (f.rootDir.elim (ofFile (pathOf (q ++ [n])) f).root fun dir =>
    ((ofFile (pathOf (q ++ [n])) f).root.join (Path.ofString dir)).normalize).isAbsolute = true
  rw [root_ofFile hq]
  cases f.rootDir with
  | none => rfl
  | some dir => exact isAbsolute_normalize (isAbsolute_join_left rfl)

/-- A project that can be loaded was read from a file, by the path of its place. -/
theorem exists_ofFile_of_load (h : load t cwd p = .ok project) :
    ∃ above n f, t.entry? (above ++ [n]) ≠ none ∧ project = ofFile (pathOf (above ++ [n])) f := by
  unfold load at h
  split at h
  · exact absurd h (by simp)
  · rename_i hfile
    cases hc : t.canonical cwd p with
    | error e => simp [hc] at h
    | ok configPath =>
      obtain ⟨q, e, hl, rfl⟩ := canonical_eq_ok hc
      -- the project file is a file, and so it has a name
      have hentry := (locate_eq_ok hl).2
      have hne : q ≠ [] := by
        rintro rfl
        obtain rfl : e = .directory := Option.some.inj (hentry.symm.trans (entry?_nil t))
        simp [isFile, hl] at hfile
      obtain ⟨above, n, rfl⟩ := (List.eq_nil_or_concat q).resolve_left hne
      simp only [hc, List.concat_eq_append] at h hentry
      cases hr : t.readText cwd (pathOf (above ++ [n])) with
      | error e => simp [hr] at h
      | ok text =>
        simp only [hr] at h
        cases hf : File.read text with
        | error e => simp [hf] at h
        | ok f =>
          simp only [hf] at h
          split at h
          · exact absurd h (by simp)
          · obtain rfl := Except.ok.inj h
            exact ⟨above, n, f, by simp [hentry], rfl⟩

/-- **Loading.**  Every project that can be loaded is anchored, whatever its file says. -/
theorem anchored_of_load (hproper : t.Proper) (h : load t cwd p = .ok project) :
    project.Anchored := by
  obtain ⟨above, n, f, hentry, rfl⟩ := exists_ofFile_of_load h
  exact anchored_ofFile (fun m hm => hproper.validName hentry hm) f

/-- Its root leads to the directory of the project file. -/
theorem exists_locate_root_of_load (hproper : t.Proper) (h : load t cwd p = .ok project) :
    ∃ q, t.locate cwd project.root = .ok (q, some .directory) := by
  obtain ⟨above, n, f, hentry, rfl⟩ := exists_ofFile_of_load h
  have hvalid : ∀ m ∈ above ++ [n], ValidName m := fun m hm => hproper.validName hentry hm
  have hdir := hproper.directory_of_concat hentry
  rw [root_ofFile hvalid]
  exact ⟨above, locate_pathOf hproper hdir⟩

/-! ### The place of a source -/

/-- The components between the output root and the document of a source: those between the source
    root and the source's name, else those between the project's directory and the name, and none
    for a source that lies below neither of them. -/
def between (project : Project) (file : Path) : List Component :=
  if project.sourceRoot.components <+: file.components then
    (file.components.drop project.sourceRoot.components.length).dropLast
  else if project.root.components <+: file.components then
    (file.components.drop project.root.components.length).dropLast
  else []

/-- A source is placed by a tidy path: the one behind the first root that it lies below, or else
    its bare name. -/
theorem relativePath_spec (h : project.Anchored) (file : Path) :
    (project.relativePath file).Tidy ∧
      (project.relativePath file).components.dropLast = project.between file := by
  have hsource := components_ne_nil_of_isAbsolute h.sourceRoot
  have hroot := components_ne_nil_of_isAbsolute h.root
  unfold relativePath between
  cases hs : file.stripPrefix project.sourceRoot with
  | some q =>
    obtain ⟨htidy, hcomponents⟩ := stripPrefix_spec hsource hs
    rw [if_pos ((exists_stripPrefix_iff hsource).mp ⟨q, hs⟩), hcomponents, List.drop_left]
    exact ⟨htidy, rfl⟩
  | none =>
    rw [if_neg ((exists_stripPrefix_iff hsource).not.mp (by simp [hs]))]
    cases hr : file.stripPrefix project.root with
    | some q =>
      obtain ⟨htidy, hcomponents⟩ := stripPrefix_spec hroot hr
      rw [if_pos ((exists_stripPrefix_iff hroot).mp ⟨q, hr⟩), hcomponents, List.drop_left]
      exact ⟨htidy, rfl⟩
    | none =>
      rw [if_neg ((exists_stripPrefix_iff hroot).not.mp (by simp [hr]))]
      cases hname : file.fileName with
      | none => exact ⟨tidy_nil, rfl⟩
      | some n =>
        -- a file name is one segment of the path
        have hmem : Component.name n ∈ file.components :=
          List.mem_of_getLast? (fileName_eq_some_iff.mp hname)
        obtain ⟨hslash, hn⟩ := name_of_mem_components hmem
        have htidy : TidySegments [n] := .singleton hslash (not_isVoid_of_name hn)
        refine ⟨⟨[n], htidy, rfl⟩, ?_⟩
        show (Path.mk (joinSegments [n])).components.dropLast = []
        rw [htidy.components]
        simp [hn]

/-- What lies between the roots and a source goes up and down, and goes up only if the path of the
    source does. -/
theorem mem_between (h : project.Anchored) {c : Component} (hc : c ∈ project.between file) :
    (c = .parent ∨ ∃ n, c = .name n) ∧ c ∈ file.components := by
  obtain ⟨htidy, hbetween⟩ := relativePath_spec h file
  refine ⟨htidy.mem_components (List.dropLast_subset _ (hbetween ▸ hc)), ?_⟩
  unfold between at hc
  split at hc
  · exact List.mem_of_mem_drop (List.dropLast_subset _ hc)
  · split at hc
    · exact List.mem_of_mem_drop (List.dropLast_subset _ hc)
    · exact absurd hc (by simp)

end Project

end DeclarationDocs
