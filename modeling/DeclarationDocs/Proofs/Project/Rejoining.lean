import DeclarationDocs.Proofs.Project.Anchored

namespace DeclarationDocs

open DeclarationDocs.Path

/-!
# The way back to a source

The place of a source within its project leads back to the source: joined to the root that it was
taken from, it is the path of the source again, however the two are spelled.  Which root that is
depends on whole components, so a directory with a longer name is no part of the root beside it.

* `Path.Beside base p` — the path goes on where the base ends, but within its last name;
* `Path.join_stripPrefix` — what is left of a path below another one leads back to it;
* `Path.fileName_eq` — the file name of an absolute path is its last name, unless it goes up last;
* `Project.relativePath_rejoins` — `project.sourceRoot.join (project.relativePath file)` is `file`
  again, or `project.root` joined to it is.
-/

variable {project : Project} {base file p q : Path}

namespace Path

/-- The path has a component that is longer than the last name of the base and begins with it, in
    the place of that name. -/
def Beside (base p : Path) : Prop :=
  ∃ above n more rest, more ≠ [] ∧ base.components = above ++ [.name n] ∧
    p.components = above ++ .name (n ++ more) :: rest

/-- What is beside a path is not below it. -/
theorem Beside.not_below (h : base.Beside p) : ¬ base.components <+: p.components := by
  obtain ⟨above, n, more, rest, hmore, hbase, hp⟩ := h
  rw [hbase, hp, List.prefix_append_right_inj, List.cons_prefix_cons]
  rintro ⟨hn, -⟩
  exact hmore (List.self_eq_append_right.mp (Component.name.inj hn))

/-- What is left of a path below another one leads back to it. -/
theorem join_stripPrefix (hbase : base.isAbsolute = true) (h : p.stripPrefix base = some q) :
    q.isAbsolute = false ∧ (base.join q).same p = true := by
  obtain ⟨htidy, hcomponents⟩ := stripPrefix_spec (components_ne_nil_of_isAbsolute hbase) h
  refine ⟨htidy.isAbsolute, ?_⟩
  rw [same, beq_iff_eq, htidy.components_join, hcomponents]

/-- Nothing can be taken off a path that is not below. -/
theorem stripPrefix_eq_none (hbase : base.isAbsolute = true)
    (h : ¬ base.components <+: p.components) : p.stripPrefix base = none := by
  have hne := components_ne_nil_of_isAbsolute hbase
  cases hq : p.stripPrefix base with
  | none => rfl
  | some q => exact absurd ((exists_stripPrefix_iff hne).mp ⟨q, hq⟩) h

/-- The file name of an absolute path is its last name, and a path that goes up last has none. -/
theorem fileName_eq (h : p.isAbsolute = true) :
    p.fileName = if p.components.getLast? = some .parent then none else p.names.getLast? := by
  have hp := components_of_isAbsolute h
  rcases List.eq_nil_or_concat (p.segments.filterMap componentOf) with hnil | ⟨cs, c, hcs⟩
  · rw [hnil] at hp
    simp [fileName, names, hp]
  · rw [hcs, List.concat_eq_append, ← List.cons_append] at hp
    have hlast : p.components.getLast? = some c := by rw [hp, List.getLast?_concat]
    -- the last component is a segment, so it goes up or is a name
    have hc : c ∈ p.segments.filterMap componentOf := by simp [hcs]
    rcases componentOf_filterMap hc with rfl | ⟨n, -, rfl⟩
    · simp [fileName, hlast]
    · have hnames : p.names.getLast? = some n := by simp [names, hp]
      simp [fileName, hlast, hnames]

end Path

namespace Project

/-- A source below the source root leads back from there. -/
theorem rejoins_sourceRoot (h : project.Anchored)
    (hbelow : project.sourceRoot.components <+: file.components) :
    (project.relativePath file).isAbsolute = false ∧
      (project.sourceRoot.join (project.relativePath file)).same file = true := by
  have hne := components_ne_nil_of_isAbsolute h.sourceRoot
  obtain ⟨q, hq⟩ := (exists_stripPrefix_iff hne).mpr hbelow
  have hplace : project.relativePath file = q := by rw [relativePath, hq]
  rw [hplace]
  exact join_stripPrefix h.sourceRoot hq

/-- A source outside the source root, but below the directory of the project, leads back from
    there. -/
theorem rejoins_root (h : project.Anchored)
    (houtside : ¬ project.sourceRoot.components <+: file.components)
    (hbelow : project.root.components <+: file.components) :
    (project.relativePath file).isAbsolute = false ∧
      (project.root.join (project.relativePath file)).same file = true := by
  have hsource := stripPrefix_eq_none h.sourceRoot houtside
  have hne := components_ne_nil_of_isAbsolute h.root
  obtain ⟨q, hq⟩ := (exists_stripPrefix_iff hne).mpr hbelow
  have hplace : project.relativePath file = q := by rw [relativePath, hsource, hq]
  rw [hplace]
  exact join_stripPrefix h.root hq

/-- A source outside both has its file name for a place. -/
theorem relativePath_outside (h : project.Anchored)
    (hsource : ¬ project.sourceRoot.components <+: file.components)
    (hroot : ¬ project.root.components <+: file.components) :
    project.relativePath file = ⟨file.fileName.getD []⟩ := by
  rw [relativePath, stripPrefix_eq_none h.sourceRoot hsource, stripPrefix_eq_none h.root hroot]

/-- **The way back.**  If the components of `file` begin with those of `project.sourceRoot`, or
    else with those of `project.root`, then `project.relativePath file` is relative, and joined to
    that root it is `file` again.  A source outside both is placed by its last name, and by
    nothing if its path goes up last.  A directory with a longer name (`base.Beside file`) is
    never taken for a root. -/
theorem relativePath_rejoins (h : project.Anchored) (hfile : file.isAbsolute = true) :
    (project.sourceRoot.components <+: file.components →
      (project.relativePath file).isAbsolute = false ∧
        (project.sourceRoot.join (project.relativePath file)).same file = true) ∧
    (¬ project.sourceRoot.components <+: file.components →
      project.root.components <+: file.components →
      (project.relativePath file).isAbsolute = false ∧
        (project.root.join (project.relativePath file)).same file = true) ∧
    (¬ project.sourceRoot.components <+: file.components →
      ¬ project.root.components <+: file.components →
      project.relativePath file =
        if file.components.getLast? = some .parent then ⟨[]⟩
        else ⟨file.names.getLast?.getD []⟩) ∧
    ∀ base ∈ [project.sourceRoot, project.root], base.Beside file →
      ¬ base.components <+: file.components ∧ file.stripPrefix base = none := by
  refine ⟨rejoins_sourceRoot h, rejoins_root h, fun hsource hroot => ?_,
    fun base hbase hbeside => ?_⟩
  · rw [relativePath_outside h hsource hroot, fileName_eq hfile]
    split <;> rfl
  · have habsolute : base.isAbsolute = true := by
      rcases List.mem_pair.mp hbase with rfl | rfl
      · exact h.sourceRoot
      · exact h.root
    exact ⟨hbeside.not_below, stripPrefix_eq_none habsolute hbeside.not_below⟩

/-- A project with a source root of its own. -/
def rootedProject : Project :=
  ⟨⟨"/work/tsconfig.json".toList⟩, ⟨"/work".toList⟩, ⟨"/work/src".toList⟩, ["**/*.ts"], []⟩

/-- A source beside the source root, by a path with void segments. -/
theorem relativePath_rejoins_beside :
    rootedProject.Anchored ∧ (Path.mk "/work/.//src2/../x.ts".toList).isAbsolute = true ∧
    rootedProject.sourceRoot.Beside ⟨"/work/.//src2/../x.ts".toList⟩ ∧
    ¬ rootedProject.sourceRoot.components <+:
      (Path.mk "/work/.//src2/../x.ts".toList).components ∧
    rootedProject.root.components <+: (Path.mk "/work/.//src2/../x.ts".toList).components ∧
    (rootedProject.relativePath ⟨"/work/.//src2/../x.ts".toList⟩).isAbsolute = false ∧
    (rootedProject.root.join (rootedProject.relativePath ⟨"/work/.//src2/../x.ts".toList⟩)).same
      ⟨"/work/.//src2/../x.ts".toList⟩ = true := by
  have h : rootedProject.Anchored := ⟨rfl, rfl⟩
  have hbeside : rootedProject.sourceRoot.Beside ⟨"/work/.//src2/../x.ts".toList⟩ :=
    ⟨[.root, .name "work".toList], "src".toList, "2".toList, [.parent, .name "x.ts".toList],
      by decide, by decide, by decide⟩
  obtain ⟨-, hroot, -, hnever⟩ := relativePath_rejoins h
    (rfl : (Path.mk "/work/.//src2/../x.ts".toList).isAbsolute = true)
  obtain ⟨houtside, -⟩ := hnever _ (by simp) hbeside
  have hbelow : rootedProject.root.components <+:
      (Path.mk "/work/.//src2/../x.ts".toList).components := by decide
  exact ⟨h, rfl, hbeside, houtside, hbelow, hroot houtside hbelow⟩

/-- A source outside both roots whose path goes up last is not placed by its last name. -/
theorem relativePath_upwards :
    rootedProject.Anchored ∧ (Path.mk "/elsewhere/x/..".toList).isAbsolute = true ∧
    ¬ rootedProject.sourceRoot.components <+: (Path.mk "/elsewhere/x/..".toList).components ∧
    ¬ rootedProject.root.components <+: (Path.mk "/elsewhere/x/..".toList).components ∧
    rootedProject.relativePath ⟨"/elsewhere/x/..".toList⟩ = ⟨[]⟩ ∧
    rootedProject.relativePath ⟨"/elsewhere/x/..".toList⟩ ≠
      ⟨(Path.mk "/elsewhere/x/..".toList).names.getLast?.getD []⟩ :=
  ⟨⟨rfl, rfl⟩, rfl, by decide, by decide, by decide, by decide⟩

end Project

end DeclarationDocs
