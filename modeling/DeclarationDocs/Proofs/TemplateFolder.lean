import DeclarationDocs.Proofs.FileTree.Proper
import DeclarationDocs.Proofs.FileTree.Writing
import DeclarationDocs.Proofs.JobQueue
import DeclarationDocs.TemplateFolder

namespace DeclarationDocs

open FileTree

/-!
# Templates in a tree

The templates of a folder lie side by side.  So either the folder is there, and each template is
decided by its own entry; or it is not, and no template can be reached, for one and the same
reason.

* `TemplateFolder.resolve_eq_ok_iff`, `TemplateFolder.resolve_eq_error_iff`,
  `TemplateFolder.contains_eq_false_iff` — what resolving a template says about its file, and what
  looking for it says;
* `FileTree.Opens` — names below a path are looked up in a directory;
  `FileTree.readText_join`, `FileTree.exists_readText_join` — what is read there, if they are and
  if they are not;
* `TemplateFolder.Keeps` — trees with the same templates missing; documents that are written
  keep it so, unless one of them is put in the place of a missing template (`keeps_of_becomes`);
* `TemplateFolder.Spares` — a path that leads to no template; documents by such paths leave the
  templates as they are (`place_spared`).
-/

/-! ### Names below a path -/

namespace FileTree

variable {t t' : FileTree} {cwd q : Place} {p : Path} {f : IoFault} {n : List Char}
  {written : List (Path × String)}

/-- Following a path never tells that something is no text. -/
theorem ne_notUtf8_of_follow {segment : List Char} (h : t.follow q segment = .error f) :
    f ≠ .notUtf8 := by
  unfold follow at h
  grind

/-- Locating a path does not fail for what a file holds. -/
theorem ne_notUtf8_of_locate (h : t.locate cwd p = .error f) : f ≠ .notUtf8 := by
  unfold locate at h
  split at h
  · grind
  split at h
  · grind
  rcases bind_eq_error_iff.mp h with hfollow | ⟨place, -, hentry⟩
  · obtain ⟨m, s, -, hs⟩ := exists_of_foldlM_eq_error hfollow
    exact ne_notUtf8_of_follow hs
  · grind

/-- What is no file cannot be read, and not because it is no text. -/
theorem isFile_eq_false_iff :
    t.isFile cwd p = false ↔ ∃ f, f ≠ .notUtf8 ∧ t.readText cwd p = .error f := by
  constructor
  · intro h
    unfold isFile at h
    unfold readText
    cases hl : t.locate cwd p with
    | error f => exact ⟨f, ne_notUtf8_of_locate hl, rfl⟩
    | ok found =>
      obtain ⟨place, e⟩ := found
      rw [hl] at h
      cases e with
      | none => exact ⟨.notFound, by simp, rfl⟩
      | some e =>
        cases e with
        | file c => exact absurd h (by simp)
        | directory => exact ⟨.isDirectory, by simp, rfl⟩
  · intro ⟨f, hf, hread⟩
    rw [Bool.eq_false_iff]
    exact fun hfile => hf (readText_of_isFile hfile hread)

/-- What is read at a place with the given entry. -/
def readEntry : Option Entry → Except IoFault String
  | some (.file (.text s)) => .ok s
  | some (.file (.raw _)) => .error .notUtf8
  | some .directory => .error .isDirectory
  | none => .error .notFound

/-- Names below the path are looked up in a directory that is there. -/
structure Opens (t : FileTree) (cwd : Place) (p : Path) : Prop where
  nul : '\x00' ∉ p.chars
  follow : p.steps.foldlM t.follow (startOf cwd p) = .ok (destination cwd p)
  entry : t.entry? (destination cwd p) = some .directory

/-- A path without a slash at its end leads to any entry. -/
theorem locate_of_usable (h : Usable p) (hslash : p.chars.getLast? ≠ some '/') :
    t.locate cwd p =
      (p.steps.foldlM t.follow (startOf cwd p)).map fun q => (q, t.entry? q) := by
  unfold locate
  rw [if_neg h.1, if_neg (by simpa using h.2)]
  show (p.steps.foldlM t.follow (startOf cwd p) >>= _) = _
  cases p.steps.foldlM t.follow (startOf cwd p) with
  | error f => rfl
  | ok place =>
    simp only [bind, Except.bind, Except.map]
    grind

/-- A name below a path, be it empty, is one more step. -/
theorem join_name (cwd : Place) (hn : ValidName n) (hnul : '\x00' ∉ p.chars) :
    (p.join ⟨n⟩).steps = p.steps ++ [n] ∧ startOf cwd (p.join ⟨n⟩) = startOf cwd p ∧
      Usable (p.join ⟨n⟩) ∧ (p.join ⟨n⟩).chars.getLast? ≠ some '/' := by
  obtain ⟨hne, -, -, hslash, hnuln, -⟩ := hn
  have hrelative : (Path.mk n).isAbsolute = false := Path.not_isAbsolute_of_not_mem hslash
  have hname : (Path.mk n).steps = [n] := by
    rw [Path.steps_of_not_mem hslash, List.filter_cons_of_pos (by simpa using hne)]
    rfl
  -- a name brings no slash of its own to the end
  have hlast : n.getLast? ≠ some '/' := fun h => hslash (List.mem_of_getLast? h)
  by_cases hp : p.chars = []
  · obtain rfl := Path.eq_mk_nil hp
    have hjoin : (Path.mk []).join ⟨n⟩ = ⟨n⟩ := by simp [Path.join, hrelative]
    have hstart : startOf cwd ⟨n⟩ = startOf cwd ⟨[]⟩ := by
      rw [startOf, startOf, hrelative]
      rfl
    rw [hjoin]
    exact ⟨hname, hstart, ⟨hne, hnuln⟩, hlast⟩
  · have hchars := Path.chars_join hp hrelative
    refine ⟨by rw [Path.steps_join hp hrelative, hname],
      by rw [startOf, startOf, Path.isAbsolute_join hp hrelative],
      ⟨Path.join_chars_ne_nil hp hrelative, ?_⟩, ?_⟩
    · rw [hchars]
      split <;> simp [hnul, hnuln]
    · obtain ⟨r, c, rfl⟩ := (List.eq_nil_or_concat n).resolve_left hne
      rw [hchars]
      split
      · simpa [List.getLast?_append] using hlast
      · simpa [List.getLast?_append, List.getLast?_cons] using hlast

/-- A name in a directory is located by following the way to the directory, and the name. -/
theorem locate_join_name (hn : ValidName n) (hnul : '\x00' ∉ p.chars) :
    t.locate cwd (p.join ⟨n⟩) =
      (p.steps.foldlM t.follow (startOf cwd p) >>= fun q => t.follow q n).map
        fun q => (q, t.entry? q) := by
  obtain ⟨hsteps, hstart, husable, hlast⟩ := join_name cwd hn hnul
  rw [locate_of_usable husable hlast, hsteps, hstart]
  simp only [List.foldlM_append, List.foldlM_cons, List.foldlM_nil, bind_pure]

/-- What is read below a path that opens is decided by the entry of that name. -/
theorem readText_join (h : t.Opens cwd p) (hn : ValidName n) :
    t.readText cwd (p.join ⟨n⟩) = readEntry (t.entry? (destination cwd p ++ [n])) := by
  have hlocate : t.locate cwd (p.join ⟨n⟩) =
      .ok (destination cwd p ++ [n], t.entry? (destination cwd p ++ [n])) := by
    rw [locate_join_name hn h.nul, h.follow]
    show (t.follow (destination cwd p) n).map _ = _
    rw [follow_of_validName h.entry hn]
    rfl
  unfold readText readEntry
  rw [hlocate]
  cases t.entry? (destination cwd p ++ [n]) with
  | none => rfl
  | some e =>
    cases e with
    | directory => rfl
    | file c => cases c <;> rfl

/-- From what is no directory no name can be followed, for one reason. -/
theorem exists_follow_eq_error (h : t.entry? q ≠ some .directory) :
    ∃ f, ∀ n, t.follow q n = .error f := by
  cases hentry : t.entry? q with
  | none => exact ⟨.notFound, fun n => by simp [follow, hentry]⟩
  | some e =>
    cases e with
    | directory => exact absurd hentry h
    | file c => exact ⟨.notDirectory, fun n => by simp [follow, hentry]⟩

/-- Below a path that does not open nothing is read, for one reason. -/
theorem exists_readText_join (h : ¬ t.Opens cwd p) :
    ∃ f, ∀ n, ValidName n → t.readText cwd (p.join ⟨n⟩) = .error f := by
  by_cases hnul : '\x00' ∈ p.chars
  · refine ⟨.nulInPath, fun n hn => ?_⟩
    have hjoin : '\x00' ∈ (p.join ⟨n⟩).chars := by
      rw [Path.chars_join (List.ne_nil_of_mem hnul) (Path.not_isAbsolute_of_not_mem hn.2.2.2.1)]
      split <;> simp [hnul]
    unfold readText locate
    rw [if_neg (List.ne_nil_of_mem hjoin), if_pos (by simpa using hjoin)]
  · have hread : ∀ f, (∀ n, ValidName n →
        (p.steps.foldlM t.follow (startOf cwd p) >>= fun q => t.follow q n) = .error f) →
        ∀ n, ValidName n → t.readText cwd (p.join ⟨n⟩) = .error f := by
      intro f hf n hn
      unfold readText
      rw [locate_join_name hn hnul, hf n hn]
      rfl
    cases hfollow : p.steps.foldlM t.follow (startOf cwd p) with
    | error f => exact ⟨f, hread f fun n _ => by rw [hfollow]; rfl⟩
    | ok q =>
      obtain rfl : destination cwd p = q := (foldlM_follow_eq_ok hfollow).symm
      have hentry : t.entry? (destination cwd p) ≠ some .directory :=
        fun hentry => h ⟨hnul, hfollow, hentry⟩
      obtain ⟨f, hf⟩ := exists_follow_eq_error hentry
      refine ⟨f, hread f fun n _ => ?_⟩
      rw [hfollow]
      exact hf n

/-! ### Documents beside what is there -/

/-- Documents that are written leave no place empty that was not. -/
theorem Becomes.entry?_ne_none (h : Becomes cwd t t' written) (hq : t.entry? q ≠ none) :
    t'.entry? q ≠ none := by
  obtain ⟨e, he⟩ := Option.ne_none_iff_exists'.mp hq
  cases e with
  | directory => simp [h.directories q he]
  | file c =>
    have hfile : (t'.fileAt? q).isSome := by
      rw [h.files]
      exact overwritten_isSome (by rw [fileAt?_eq_some.mpr he]; rfl)
    obtain ⟨c', hc'⟩ := Option.isSome_iff_exists.mp hfile
    simp [fileAt?_eq_some.mp hc']

/-- A folder that opens does so where directories are retained. -/
theorem Opens.of_retains (h : t.Opens cwd p) (hretains : Retains t t') : t'.Opens cwd p where
  nul := h.nul
  follow := foldlM_follow_of_retains hretains h.follow
  entry := hretains _ h.entry

end FileTree

/-! ### Templates -/

/-- The file of a template has a valid name. -/
theorem Category.validName_fileName (c : Category) : ValidName c.fileName.toList := by
  cases c <;> decide

namespace TemplateFolder

variable {s : TemplateFolder} {t t' t₁ t₂ t₃ : FileTree} {cwd : Place} {c : Category}
  {written : List (Path × String)}

/-- The categories that are available are those that the folder contains. -/
theorem mem_available : c ∈ s.available t cwd ↔ s.contains t cwd c = true := by
  have hall : c ∈ Category.all := by cases c <;> decide
  simp [available, hall]

/-- A template that is not contained cannot be read, and not because it is no text. -/
theorem contains_eq_false_iff :
    s.contains t cwd c = false ↔
      ∃ f, f ≠ .notUtf8 ∧ t.readText cwd (s.fileFor c) = .error f :=
  isFile_eq_false_iff

/-- A template is resolved just when its file can be read as text. -/
theorem resolve_eq_ok_iff {template : String} :
    s.resolve t cwd c = .ok template ↔ t.readText cwd (s.fileFor c) = .ok template := by
  unfold resolve
  cases t.readText cwd (s.fileFor c) with
  | ok text => simp
  | error f => cases f <;> simp

/-- It is not resolved if there is no such file, or reading it fails otherwise. -/
theorem resolve_eq_error_iff {e : Failure} :
    s.resolve t cwd c = .error e ↔
      t.readText cwd (s.fileFor c) = .error .notFound ∧ e = .templateNotFound c (s.fileFor c) ∨
        ∃ f, f ≠ .notFound ∧ t.readText cwd (s.fileFor c) = .error f ∧ e = .io f := by
  unfold resolve
  cases t.readText cwd (s.fileFor c) with
  | ok text => simp
  | error f => cases f <;> simp [eq_comm]

/-- The file of a template is missing just when there is said to be no template. -/
theorem resolve_eq_templateNotFound_iff {p : Path} {c' : Category} :
    s.resolve t cwd c = .error (.templateNotFound c' p) ↔
      t.readText cwd (s.fileFor c) = .error .notFound ∧ c' = c ∧ p = s.fileFor c := by
  rw [resolve_eq_error_iff]
  simp

/-- Only a missing template is no end. -/
theorem eq_templateNotFound_of_resolve {e : Failure} (h : s.resolve t cwd c = .error e)
    (he : e.isRecoverable = true) : e = .templateNotFound c (s.fileFor c) := by
  rcases resolve_eq_error_iff.mp h with ⟨-, rfl⟩ | ⟨f, -, -, rfl⟩
  · rfl
  · exact absurd he (by simp [Failure.isRecoverable])

/-- In a folder that is not there no template is found. -/
theorem exists_resolve_eq_error (h : ¬ t.Opens cwd s.root) (c : Category) :
    ∃ e, s.resolve t cwd c = .error e := by
  obtain ⟨f, hread⟩ := exists_readText_join h
  cases hresolve : s.resolve t cwd c with
  | error e => exact ⟨e, rfl⟩
  | ok text =>
    have hfailed : t.readText cwd (s.fileFor c) = .error f := hread _ c.validName_fileName
    exact absurd (hfailed.symm.trans (resolve_eq_ok_iff.mp hresolve)) (by simp)

/-- The place of a template. -/
def place (s : TemplateFolder) (cwd : Place) (c : Category) : Place :=
  destination cwd s.root ++ [c.fileName.toList]

/-- What is no file in the one tree is none in the other, for the same reason; and a template that
    is missing in the other was missing in the one. -/
structure Keeps (s : TemplateFolder) (cwd : Place) (t t' : FileTree) : Prop where
  failing : ∀ c f, f ≠ .notUtf8 → t.readText cwd (s.fileFor c) = .error f →
    t'.readText cwd (s.fileFor c) = .error f
  missing : ∀ c, t'.readText cwd (s.fileFor c) = .error .notFound →
    t.readText cwd (s.fileFor c) = .error .notFound

theorem Keeps.refl (s : TemplateFolder) (cwd : Place) (t : FileTree) : s.Keeps cwd t t :=
  ⟨fun _ _ _ h => h, fun _ h => h⟩

/-- **Templates and documents.**  In a folder that is there, documents change what is missing only
    if one of them is put in the place of a missing template. -/
theorem keeps_of_becomes (hopens : t.Opens cwd s.root) (h : Becomes cwd t t' written)
    (hfree : ∀ c, t.entry? (s.place cwd c) = none → t'.entry? (s.place cwd c) = none) :
    s.Keeps cwd t t' := by
  have hread : ∀ c, t.readText cwd (s.fileFor c) = readEntry (t.entry? (s.place cwd c)) :=
    fun c => readText_join hopens c.validName_fileName
  have hread' : ∀ c, t'.readText cwd (s.fileFor c) = readEntry (t'.entry? (s.place cwd c)) :=
    fun c => readText_join (hopens.of_retains h.directories) c.validName_fileName
  constructor
  · intro c f hf herror
    rw [hread] at herror
    rw [hread', ← herror]
    cases he : t.entry? (s.place cwd c) with
    | none => rw [hfree c he]
    | some e =>
      cases e with
      | directory => rw [h.directories _ he]
      | file content =>
        rw [he] at herror
        cases content with
        | text text => exact absurd herror (by simp [readEntry])
        | raw bytes => exact absurd (Except.error.inj herror).symm hf
  · intro c hmissing
    rw [hread'] at hmissing
    rw [hread]
    -- what is empty in the end has always been
    have hnone : t'.entry? (s.place cwd c) = none := by
      unfold readEntry at hmissing
      grind
    rw [show t.entry? (s.place cwd c) = none by
      by_contra hne
      exact h.entry?_ne_none hne hnone]
    rfl

/-- The path leads to no file of the template folder. -/
def Spares (s : TemplateFolder) (cwd : Place) (t : FileTree) (path : Path) : Prop :=
  ∀ c, s.contains t cwd c = true → destination cwd path ≠ s.place cwd c

/-- In a folder that is there, a file in the place of a template is one. -/
theorem contains_of_opens (hopens : t.Opens cwd s.root) {content : Content}
    (h : t.entry? (s.place cwd c) = some (.file content)) : s.contains t cwd c = true := by
  by_contra hnot
  obtain ⟨f, hf, hread⟩ := contains_eq_false_iff.mp (by simpa using hnot)
  have hread' : t.readText cwd (s.fileFor c) = readEntry (some (.file content)) :=
    h ▸ readText_join hopens c.validName_fileName
  rw [hread'] at hread
  cases content with
  | text text => exact absurd hread (by simp [readEntry])
  | raw bytes => exact hf (Except.error.inj hread).symm

/-- **The place of a template.**  Documents that lead to no template change what is there only if
    nothing was, and then there is something in the end. -/
theorem place_spared (hopens : t.Opens cwd s.root) (h : Becomes cwd t t' written)
    (hspare : ∀ x ∈ written, s.Spares cwd t x.1)
    (hfree : t.entry? (s.place cwd c) = none → t'.entry? (s.place cwd c) = none) :
    (∀ x ∈ written, destination cwd x.1 ≠ s.place cwd c) ∧
      t'.entry? (s.place cwd c) = t.entry? (s.place cwd c) := by
  have havoid : ∀ x ∈ written, destination cwd x.1 ≠ s.place cwd c := by
    intro x hx heq
    obtain ⟨content, hl⟩ := h.paths x hx
    have hput := (locate_eq_ok hl).2
    rw [heq] at hput
    cases hentry : t.entry? (s.place cwd c) with
    | none => exact absurd (hput.symm.trans (hfree hentry)) (by simp)
    | some e =>
      cases e with
      | directory => exact absurd (hput.symm.trans (h.directories _ hentry)) (by simp)
      | file content => exact hspare x hx c (contains_of_opens hopens hentry) heq
  have hfile : t'.fileAt? (s.place cwd c) = t.fileAt? (s.place cwd c) := by
    rw [h.files]
    exact overwritten_of_forall_ne havoid
  refine ⟨havoid, entry?_eq_of_fileAt? hfile ⟨fun hdir => ?_, h.directories _⟩⟩
  cases hentry : t.entry? (s.place cwd c) with
  | none => exact absurd (hdir.symm.trans (hfree hentry)) (by simp)
  | some e =>
    cases e with
    | directory => rfl
    | file content =>
      rw [fileAt?_eq_some.mpr hentry] at hfile
      exact absurd (hdir.symm.trans (fileAt?_eq_some.mp hfile)) (by simp)

/-- The same entry in its place is the same template. -/
theorem resolve_eq_of_place (hopens : t.Opens cwd s.root) (hretains : Retains t t')
    (hplace : t'.entry? (s.place cwd c) = t.entry? (s.place cwd c)) :
    s.resolve t' cwd c = s.resolve t cwd c := by
  have hread : t'.readText cwd (s.fileFor c) = t.readText cwd (s.fileFor c) := by
    show t'.readText cwd (s.root.join ⟨c.fileName.toList⟩) =
      t.readText cwd (s.root.join ⟨c.fileName.toList⟩)
    rw [readText_join hopens c.validName_fileName,
      readText_join (hopens.of_retains hretains) c.validName_fileName]
    exact congrArg readEntry hplace
  unfold resolve
  rw [hread]

end TemplateFolder

end DeclarationDocs
