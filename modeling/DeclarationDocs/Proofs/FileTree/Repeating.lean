import DeclarationDocs.Proofs.FileTree.Storing

namespace DeclarationDocs

open FileTree

/-!
# Writing again

What was written once can be written again, also when more has been written since: its directory is
there, and so is its file, which is replaced.

* `FileTree.isDirectory_of_createDirectories`, `FileTree.createDirectories_of_isDirectory` —
  directories that were made are there, and what is there is not made again;
* `FileTree.overwritten_overwritten` — the same texts at the same paths change nothing;
* `writeDocument_again` — a document that was written is written again, without a new directory.
-/

/-! ### Directories -/

namespace FileTree

variable {t t' : FileTree} {cwd q : Place} {p : Path} {written : List (Path × String)}
  {files files' : Place → Option Content}

/-- Where a directory was created there is one. -/
theorem isDirectory_of_createDirectory (h : t.createDirectory cwd p = .ok t') :
    t'.isDirectory cwd p = true := by
  have hbecomes := createDirectory_becomes h
  obtain ⟨place, hl, rfl⟩ := createDirectory_eq_ok_iff.mp h
  obtain ⟨husable, hfollow, hentry, -⟩ := locate_eq_ok_iff.mp hl
  have hne : place ≠ [] := by
    rintro rfl
    exact absurd hentry (by simp [entry?_nil])
  have hmade : (t.put place .directory).locate cwd p = .ok (place, some .directory) :=
    locate_eq_ok_iff.mpr ⟨husable, foldlM_follow_of_retains hbecomes.directories hfollow,
      by rw [entry?_put hne, if_pos rfl], by simp⟩
  exact (isDirectory_of_locate hmade).mpr rfl

/-- A directory that is there is not made again. -/
theorem createDirectory_of_isDirectory (h : t.isDirectory cwd p = true) :
    t.createDirectory cwd p = .error .alreadyExists := by
  obtain ⟨q, hl⟩ := exists_locate_of_isDirectory h
  rw [createDirectory_eq, (locate_trimmed_iff (by simp)).mpr hl]

/-- Directories that were made are there. -/
theorem isDirectory_of_createDirectoriesIn {k : Nat}
    (h : createDirectoriesIn k t cwd p = (t', .ok ())) : t'.isDirectory cwd p = true := by
  cases k with
  | zero => exact absurd h (by simp [createDirectoriesIn])
  | succ k =>
    unfold createDirectoriesIn at h
    split at h
    · rename_i hmade
      obtain ⟨rfl, -⟩ := Prod.mk.inj h
      exact isDirectory_of_createDirectory hmade
    · -- the directory above was missing
      split at h
      · exact absurd h (by simp)
      · split at h
        · exact absurd h (by simp)
        · split at h
          · rename_i hmade
            obtain ⟨rfl, -⟩ := Prod.mk.inj h
            exact isDirectory_of_createDirectory hmade
          · split at h
            · rename_i hdir
              obtain ⟨rfl, -⟩ := Prod.mk.inj h
              exact hdir
            · exact absurd h (by simp)
    · split at h
      · rename_i hdir
        obtain ⟨rfl, -⟩ := Prod.mk.inj h
        exact hdir
      · exact absurd h (by simp)

/-- Where directories were created there is one, unless the path is empty. -/
theorem isDirectory_of_createDirectories (h : t.createDirectories cwd p = (t', .ok ())) :
    p.chars = [] ∨ t'.isDirectory cwd p = true := by
  unfold createDirectories at h
  split at h
  · rename_i hnil
    exact .inl hnil
  · exact .inr (isDirectory_of_createDirectoriesIn h)

/-- Where there is one already, nothing is done. -/
theorem createDirectories_of_isDirectory (h : p.chars = [] ∨ t.isDirectory cwd p = true) :
    t.createDirectories cwd p = (t, .ok ()) := by
  unfold createDirectories
  split
  · rfl
  · rename_i hne
    have hdir := h.resolve_left hne
    unfold createDirectoriesIn
    rw [createDirectory_of_isDirectory hdir]
    simp only [hdir, if_true]

/-! ### Files -/

/-- What the last text at a place is does not depend on what was there before. -/
theorem overwritten_congr (h : ∃ x ∈ written, destination cwd x.1 = q) :
    overwritten cwd files written q = overwritten cwd files' written q := by
  induction written generalizing files files' with
  | nil => exact absurd h (by simp)
  | cons x written ih =>
    show overwritten cwd (Function.update files _ _) written q =
      overwritten cwd (Function.update files' _ _) written q
    by_cases hlater : ∃ y ∈ written, destination cwd y.1 = q
    · exact ih hlater
    · -- this is the last one
      have hlast : ∀ y ∈ written, destination cwd y.1 ≠ q := fun y hy heq => hlater ⟨y, hy, heq⟩
      obtain ⟨y, hy, heq⟩ := h
      obtain rfl : y = x := (List.mem_cons.mp hy).resolve_right fun hmem => hlast y hmem heq
      rw [overwritten_of_forall_ne hlast, overwritten_of_forall_ne hlast, heq, Function.update_self,
        Function.update_self]

/-- **The same texts again.**  Put at the same paths in the same order they change nothing. -/
theorem overwritten_overwritten (cwd : Place) (files : Place → Option Content)
    (written : List (Path × String)) :
    overwritten cwd (overwritten cwd files written) written = overwritten cwd files written := by
  funext q
  by_cases h : ∃ x ∈ written, destination cwd x.1 = q
  · exact overwritten_congr h
  · exact overwritten_of_forall_ne fun x hx heq => h ⟨x, hx, heq⟩

/-- A file that is there is replaced. -/
theorem write_of_locate {c : Content} (text : String)
    (hl : t.locate cwd p = .ok (q, some (.file c))) :
    t.write cwd p text = .ok (t.put q (.file (.text text))) := by
  unfold write
  rw [hl]

/-- Replacing a file makes no directory. -/
theorem retains_put_file {c : Content} (hentry : t.entry? q = some (.file c)) (text : String) :
    Retains (t.put q (.file (.text text))) t := by
  have hne : q ≠ [] := by
    rintro rfl
    exact absurd hentry (by simp [entry?_nil])
  intro q' hq'
  rw [entry?_put hne] at hq'
  split at hq'
  · exact absurd hq' (by simp)
  · exact hq'

end FileTree

/-! ### Documents -/

variable {t t₁ t' : FileTree} {cwd : Place} {dir path : Path} {fileName text : String}

/-- **A document again.**  In a tree that has grown from the one in which it was written, it is
    written to the same path, and no directory is made for it. -/
theorem writeDocument_again (h : writeDocument t cwd dir fileName text = (t₁, .ok path))
    (hgrows : Grows t₁ t') :
    ∃ t'', writeDocument t' cwd dir fileName text = (t'', .ok path) ∧ Retains t'' t' := by
  have hbecomes := (writeDocument_ok h).2
  obtain ⟨rfl, t₂, hmade, hw⟩ := writeDocument_eq_ok_iff.mp h
  obtain ⟨c, hfile⟩ := hbecomes.paths _ (List.mem_singleton_self _)
  have hdir : dir.chars = [] ∨ t₁.isDirectory cwd dir = true := by
    refine (isDirectory_of_createDirectories hmade).imp_right fun hdir => ?_
    obtain ⟨q, hl⟩ := exists_locate_of_isDirectory hdir
    exact ((write_becomes hw).grows.isDirectory_iff hl).mpr hdir
  have hdir' : dir.chars = [] ∨ t'.isDirectory cwd dir = true := hdir.imp_right fun hdir => by
    obtain ⟨q, hl⟩ := exists_locate_of_isDirectory hdir
    exact (hgrows.isDirectory_iff hl).mpr hdir
  -- the file is there, so it is replaced
  obtain ⟨e', hl', hkind⟩ := hgrows.locate hfile
  cases e' with
  | directory => exact absurd (hkind.mp rfl) (by simp)
  | file c' =>
    refine ⟨_, writeDocument_eq_ok_iff.mpr ⟨rfl, t', ?_, write_of_locate text hl'⟩,
      retains_put_file (locate_eq_ok hl').2 text⟩
    exact createDirectories_of_isDirectory hdir'

end DeclarationDocs
