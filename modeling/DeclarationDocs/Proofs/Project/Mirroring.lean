import DeclarationDocs.Proofs.Documenter.Overwriting

namespace DeclarationDocs

open FileTree DeclarationDocs.Path

/-!
# Documents mirror the directories of their sources

Below the source root, a document stands in a directory that corresponds to that of its source.
However the paths are spelled, two documents have the same path just when their sources lie in the
same directory and their declarations have the same name.

* `Path.Below base p` — the path `p` goes on behind `base`;
* `SourceFile.Of project u` — a source that is placed within a project, with names that are no
  paths; `SourceFile.of_readSource` — every source that is read is one;
* `Project.between_eq_iff` — the way from the source root to two sources;
* `SourceFile.mirrored` — `a.outputPath.same b.outputPath` just when the sources have the same
  directory and `a.declarationName = b.declarationName`.
-/

/-- The path goes on behind the base. -/
def Path.Below (base p : Path) : Prop := ∃ c cs, p.components = base.components ++ c :: cs

/-- A source of a project, wherever it was read, whose declarations have names without slashes. -/
structure SourceFile.Of (project : Project) (u : SourceFile) : Prop where
  relativePath : u.relativePath = project.relativePath u.path
  names : ∀ d ∈ u.declarations, '/' ∉ d.name.toList

variable {project : Project} {outputRoot base p q d e : Path} {t : FileTree} {cwd : Place}
  {j : Job} {u v : SourceFile}

/-! ### Directories of absolute paths -/

/-- What lies below an absolute path is absolute. -/
theorem Path.Below.isAbsolute (h : Below base p) (hbase : base.isAbsolute = true) :
    p.isAbsolute = true := by
  obtain ⟨c, cs, hp⟩ := h
  have hroot : .root ∈ p.components := by
    rw [hp, components_of_isAbsolute hbase]
    simp
  obtain ⟨rest, hrest, hnone⟩ := exists_components_eq p
  by_contra habs
  rw [hrest, if_neg habs] at hroot
  exact hnone (by simpa using hroot)

/-- What lies below an absolute path has a directory, with all its components but the last. -/
theorem Path.Below.exists_parent (h : Below base p) (hbase : base.isAbsolute = true) :
    ∃ d, p.parent = some d ∧ d.isAbsolute = true ∧ d.components = p.components.dropLast := by
  rcases parent_cases (h.isAbsolute hbase) with ⟨-, hroot⟩ | ⟨d, cs, c, hd, habs, hdir, hp⟩
  · -- the root is below nothing
    obtain ⟨c, cs, hp⟩ := h
    rw [hp, components_of_isAbsolute hbase] at hroot
    exact absurd hroot (by simp)
  · refine ⟨d, hd, habs, ?_⟩
    rw [hdir, hp, ← List.cons_append, List.dropLast_concat]

/-- A path that never goes up spells its place. -/
theorem Path.components_of_parent_not_mem (cwd : Place) (habs : p.isAbsolute = true)
    (hup : .parent ∉ p.components) : p.components = .root :: (destination cwd p).map .name := by
  have hp := components_of_isAbsolute habs
  have hcs : ∀ c ∈ p.segments.filterMap componentOf, c = .parent ∨ ∃ n, c = .name n :=
    fun c hc => (componentOf_filterMap hc).imp_right fun h => h.imp fun n hn => hn.2
  rw [hp] at hup
  obtain ⟨names, hnames⟩ := (exists_names hcs).mp fun hmem => hup (List.mem_cons_of_mem _ hmem)
  rw [destination_eq, hp, hnames, List.foldl_cons, foldl_enter_names]
  rfl

/-- Two directories that are spelled without going up are the same path just when they are the same
    place. -/
theorem Path.same_iff_destination_eq (cwd : Place) (hd : d.isAbsolute = true)
    (he : e.isAbsolute = true) (hdup : .parent ∉ d.components) (heup : .parent ∉ e.components) :
    d.same e = true ↔ destination cwd d = destination cwd e := by
  rw [same, beq_iff_eq, components_of_parent_not_mem cwd hd hdup,
    components_of_parent_not_mem cwd he heup, List.cons.injEq]
  simp only [true_and]
  exact List.map_inj_right fun _ _ => Component.name.inj

/-! ### Sources within a project -/

/-- Below the source root, the way to a source is what its directory adds. -/
theorem Project.between_of_below (h : Below project.sourceRoot p) :
    p.components.dropLast = project.sourceRoot.components ++ project.between p := by
  obtain ⟨c, cs, hp⟩ := h
  have hprefix : project.sourceRoot.components <+: p.components :=
    hp ▸ List.prefix_append _ _
  rw [between, if_pos hprefix, hp, List.drop_left, List.dropLast_append_of_ne_nil (by simp)]

/-- The ways to two sources are the same just when their directories are. -/
theorem Project.between_eq_iff (hp : Below project.sourceRoot p) (hq : Below project.sourceRoot q) :
    project.between p = project.between q ↔ p.components.dropLast = q.components.dropLast := by
  rw [between_of_below hp, between_of_below hq, List.append_cancel_left_eq]

namespace SourceFile

/-- Every source that is read is one of the project, by the path that it was read at. -/
theorem of_readSource {dialect : Dialect}
    (h : JobQueue.readSource project t cwd dialect p = .ok u) : u.Of project := by
  unfold JobQueue.readSource at h
  split at h
  · exact absurd h (by simp)
  · obtain rfl := Except.ok.inj h
    exact ⟨rfl, fun d hd hmem => ((TypeScript.isName_of_mem_declarations hd).safe _ hmem).1 rfl⟩

/-- The jobs of a source are placed where the source is. -/
theorem Of.placed (hu : u.Of project) (h : project.Anchored) (hj : j ∈ u.jobs outputRoot) :
    j.sourcePath = u.path ∧ j.Placed project outputRoot := by
  obtain ⟨x, hx, hj⟩ := List.mem_flatMap.mp hj
  obtain ⟨c, -, rfl⟩ := List.mem_map.mp hj
  obtain ⟨htidy, hbetween⟩ := Project.relativePath_spec h u.path
  obtain ⟨habove, hcomponents⟩ := tidy_parent htidy
  refine ⟨rfl, ?_, components_join_document (hu.names x hx) _⟩
  show (outputRoot.join u.relativeDir).components = _
  rw [relativeDir, hu.relativePath, habove.components_join, hcomponents, hbetween]

/-- **Mirrored directories.**  Let two sources `u` and `v` of a project that can be loaded lie
    `Below` its source root.  Documents of theirs have the same `outputPath` just when the sources
    have the same directory and the declarations the same name, whatever `outputRoot` is.  If the
    paths of the sources never go up, `d.same e` says that the directories are the same place
    (`destination`). -/
theorem mirrored {config : Path} (hproper : t.Proper)
    (hload : Project.load t cwd config = .ok project) (outputRoot : Path)
    (hu : u.Of project) (hv : v.Of project)
    (hubelow : Below project.sourceRoot u.path) (hvbelow : Below project.sourceRoot v.path)
    (huup : .parent ∉ u.path.components) (hvup : .parent ∉ v.path.components) :
    ∃ d e, u.path.parent = some d ∧ v.path.parent = some e ∧
      (d.same e = true ↔ destination cwd d = destination cwd e) ∧
      ∀ a ∈ u.jobs outputRoot, ∀ b ∈ v.jobs outputRoot,
        (a.outputPath.same b.outputPath = true ↔
          d.same e = true ∧ a.declarationName = b.declarationName) := by
  have hanchored := Project.anchored_of_load hproper hload
  obtain ⟨d, hd, hdabs, hdir⟩ := hubelow.exists_parent hanchored.sourceRoot
  obtain ⟨e, he, heabs, heir⟩ := hvbelow.exists_parent hanchored.sourceRoot
  refine ⟨d, e, hd, he, ?_, fun a ha b hb => ?_⟩
  · refine same_iff_destination_eq cwd hdabs heabs (fun hmem => ?_) fun hmem => ?_
    · exact huup (List.dropLast_subset _ (hdir ▸ hmem))
    · exact hvup (List.dropLast_subset _ (heir ▸ hmem))
  · obtain ⟨hasource, haplaced⟩ := hu.placed hanchored ha
    obtain ⟨hbsource, hbplaced⟩ := hv.placed hanchored hb
    rw [Job.same_iff haplaced hbplaced, hasource, hbsource,
      Project.between_eq_iff hubelow hvbelow, same, beq_iff_eq, hdir, heir]

/-- A project with a source root of its own, and two sources in one directory below it. -/
def mirroredTree : FileTree :=
  ⟨[(["p".toList], .directory),
    (["p".toList, "c".toList],
      .file (.text "\x7b\"include\":[\"src\"],\"compilerOptions\":\x7b\"rootDir\":\"./src\"\x7d\x7d")),
    (["p".toList, "src".toList], .directory),
    (["p".toList, "src".toList, "lib".toList], .directory),
    (["p".toList, "src".toList, "lib".toList, "x.ts".toList], .file (.text "enum A\x7b\x7d")),
    (["p".toList, "src".toList, "lib".toList, "y.ts".toList], .file (.text "type A=1"))]⟩

/-- What its project file says. -/
def mirroredProject : Project :=
  ⟨⟨"/p/c".toList⟩, ⟨"/p".toList⟩, ⟨"/p/src".toList⟩, ["src"], []⟩

/-- One of the sources. -/
def plainSource : SourceFile :=
  ⟨⟨"/p/src/lib/x.ts".toList⟩, ⟨"lib/x.ts".toList⟩, [⟨"A", .enum, "enum A\x7b\x7d", [], [], 1⟩]⟩

/-- The other one, by a path with void segments. -/
def voidSource : SourceFile :=
  ⟨⟨"/p/./src//lib/./y.ts".toList⟩, ⟨"lib/./y.ts".toList⟩,
    [⟨"A", .typeAlias, "type A=1", [], [], 1⟩]⟩

/-- The two sources of that project: each has one job, and both jobs have the path
    `docs/lib/A.md`. -/
theorem mirrored_spellings :
    mirroredTree.Proper ∧ Project.load mirroredTree [] ⟨"/p/c".toList⟩ = .ok mirroredProject ∧
      (∃ a ∈ plainSource.jobs ⟨"docs".toList⟩, ∃ b ∈ voidSource.jobs ⟨"docs".toList⟩,
        a.outputPath = ⟨"docs/lib/A.md".toList⟩ ∧ b.outputPath = ⟨"docs/lib/A.md".toList⟩) ∧
      ∃ d e, plainSource.path.parent = some d ∧ voidSource.path.parent = some e ∧
        (d.same e = true ↔ destination [] d = destination [] e) ∧
        ∀ a ∈ plainSource.jobs ⟨"docs".toList⟩, ∀ b ∈ voidSource.jobs ⟨"docs".toList⟩,
          (a.outputPath.same b.outputPath = true ↔
            d.same e = true ∧ a.declarationName = b.declarationName) := by
  have hproper : mirroredTree.Proper := ⟨by decide, by decide⟩
  have hload : Project.load mirroredTree [] ⟨"/p/c".toList⟩ = .ok mirroredProject := by
    with_unfolding_all rfl
  have hplain : JobQueue.readSource mirroredProject mirroredTree [] .typeScript plainSource.path =
      .ok plainSource := rfl
  have hvoid : JobQueue.readSource mirroredProject mirroredTree [] .typeScript voidSource.path =
      .ok voidSource := rfl
  have hjobs : ∃ a ∈ plainSource.jobs ⟨"docs".toList⟩, ∃ b ∈ voidSource.jobs ⟨"docs".toList⟩,
      a.outputPath = ⟨"docs/lib/A.md".toList⟩ ∧ b.outputPath = ⟨"docs/lib/A.md".toList⟩ :=
    ⟨_, List.mem_singleton_self _, _, List.mem_singleton_self _, by decide, by decide⟩
  refine ⟨hproper, hload, hjobs, mirrored hproper hload _ (of_readSource hplain) (of_readSource hvoid)
    ⟨.name "lib".toList, [.name "x.ts".toList], by decide⟩
    ⟨.name "lib".toList, [.name "y.ts".toList], by decide⟩ (by decide) (by decide)⟩

end SourceFile

end DeclarationDocs
