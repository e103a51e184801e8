import DeclarationDocs.FileTree
import DeclarationDocs.Proofs.Path.Segments
import DeclarationDocs.Proofs.Results

namespace DeclarationDocs

/-!
# Where paths lead

There are no links in a tree, so the place that a path leads to depends on its text alone; the
tree only decides whether the path leads there at all.

* `FileTree.destination cwd p` — the place, read off the text of `p`;
* `FileTree.locate_eq_ok_iff` — a path that can be followed leads to its destination, and what
  is found there is the entry of the tree at that place;
* `FileTree.Retains` — every directory of the one tree is a directory of the other.  Following
  a path needs directories only, so whatever leads somewhere keeps doing so
  (`locate_of_retains`).
-/

namespace FileTree

variable {t t' : FileTree} {cwd q q' : Place} {p : Path} {segment : List Char}

/-! ### Destinations -/

/-- One segment of a path, followed by name alone. -/
def step (q : Place) (segment : List Char) : Place :=
  if segment = ['.'] then q
  else if segment = ['.', '.'] then q.dropLast
  else q ++ [segment]

/-- Where the first segment of a path is looked up. -/
def startOf (cwd : Place) (p : Path) : Place := if p.isAbsolute then [] else cwd

/-- The place that a path leads to if it leads anywhere. -/
def destination (cwd : Place) (p : Path) : Place := p.steps.foldl step (startOf cwd p)

/-- A segment can only be followed from a directory, and it leads where its name says. -/
theorem follow_eq_ok (h : t.follow q segment = .ok q') :
    t.entry? q = some .directory ∧ q' = step q segment := by
  unfold follow at h
  split at h
  · exact absurd h (by simp)
  · exact absurd h (by simp)
  · rename_i hdir
    refine ⟨hdir, ?_⟩
    unfold step
    repeat' split at h
    all_goals simp_all

/-- A way that can be followed leads where its segments say. -/
theorem foldlM_follow_eq_ok {segments : List (List Char)}
    (h : segments.foldlM t.follow q = .ok q') : q' = segments.foldl step q := by
  induction segments generalizing q with
  | nil => exact (foldlM_nil_eq_ok_iff.mp h).symm
  | cons s r ih =>
    obtain ⟨m, hs, hr⟩ := foldlM_cons_eq_ok_iff.mp h
    rw [List.foldl_cons, ← (follow_eq_ok hs).2]
    exact ih hr

/-- Names lead down one by one. -/
theorem foldl_step_names {names : List (List Char)}
    (h : ∀ n ∈ names, n ≠ ['.'] ∧ n ≠ ['.', '.']) : names.foldl step q = q ++ names := by
  induction names generalizing q with
  | nil => simp
  | cons n r ih =>
    obtain ⟨⟨hdot, hdots⟩, hr⟩ := List.forall_mem_cons.mp h
    rw [List.foldl_cons, ih hr, step, if_neg hdot, if_neg hdots, ← List.append_cons]

/-- A path is usable if it is not empty and holds no NUL character. -/
def Usable (p : Path) : Prop := p.chars ≠ [] ∧ '\x00' ∉ p.chars

/-- **Following a path.**  A path that can be followed leads to its destination; only a file
    at the end of a path with a slash behind it is refused. -/
theorem locate_eq_ok_iff {e : Option Entry} :
    t.locate cwd p = .ok (q, e) ↔
      Usable p ∧ p.steps.foldlM t.follow (startOf cwd p) = .ok q ∧ t.entry? q = e ∧
        ∀ c, e = some (.file c) → p.chars.getLast? ≠ some '/' := by
  unfold locate
  by_cases hempty : p.chars = []
  · simp [hempty, Usable]
  by_cases hnul : '\x00' ∈ p.chars
  · simp [hempty, hnul, Usable]
  have husable : Usable p := ⟨hempty, hnul⟩
  rw [if_neg hempty, if_neg (by simpa using hnul)]
  show (p.steps.foldlM t.follow (startOf cwd p) >>= _) = _ ↔ _
  cases hf : p.steps.foldlM t.follow (startOf cwd p) with
  | error f => simp [bind, Except.bind]
  | ok place =>
    simp only [bind, Except.bind, Except.ok.injEq, husable, true_and]
    cases he : t.entry? place with
    | none => grind
    | some x => cases x <;> grind

/-- What a path leads to is its destination, with the entry of the tree there. -/
theorem locate_eq_ok {e : Option Entry} (h : t.locate cwd p = .ok (q, e)) :
    q = destination cwd p ∧ t.entry? q = e := by
  obtain ⟨_, hfollow, hentry, _⟩ := locate_eq_ok_iff.mp h
  exact ⟨foldlM_follow_eq_ok hfollow, hentry⟩

/-- A path that is located is a directory just when the entry is one. -/
theorem isDirectory_of_locate {e : Entry} (hl : t.locate cwd p = .ok (q, some e)) :
    t.isDirectory cwd p = true ↔ e = .directory := by
  unfold isDirectory
  rw [hl]
  cases e <;> simp

/-- A path that is located is a file just when the entry is no directory. -/
theorem isFile_of_locate {e : Entry} (hl : t.locate cwd p = .ok (q, some e)) :
    t.isFile cwd p = true ↔ e ≠ .directory := by
  unfold isFile
  rw [hl]
  cases e <;> simp

/-- A directory is located. -/
theorem exists_locate_of_isDirectory (h : t.isDirectory cwd p = true) :
    ∃ q, t.locate cwd p = .ok (q, some .directory) := by
  unfold isDirectory at h
  split at h
  · rename_i q hl
    exact ⟨q, hl⟩
  · exact absurd h (by simp)

/-- A file is located, with its content. -/
theorem exists_locate_of_isFile (h : t.isFile cwd p = true) :
    ∃ q c, t.locate cwd p = .ok (q, some (.file c)) := by
  unfold isFile at h
  split at h
  · rename_i q c hl
    exact ⟨q, c, hl⟩
  · exact absurd h (by simp)

/-! ### Trees with more directories -/

/-- Every directory of `t` is a directory of `t'`. -/
def Retains (t t' : FileTree) : Prop :=
  ∀ q, t.entry? q = some .directory → t'.entry? q = some .directory

/-- A tree retains its own directories. -/
theorem Retains.refl (t : FileTree) : Retains t t := fun _ h => h

/-- Directories that are retained twice are retained. -/
theorem Retains.trans {t₁ t₂ t₃ : FileTree} (h : Retains t₁ t₂) (h' : Retains t₂ t₃) :
    Retains t₁ t₃ := fun q hq => h' q (h q hq)

/-- A step that can be followed can be followed where directories are retained. -/
theorem follow_of_retains (h : Retains t t') (hf : t.follow q segment = .ok q') :
    t'.follow q segment = .ok q' := by
  have hdir := (follow_eq_ok hf).1
  unfold follow at hf ⊢
  rw [hdir] at hf
  rw [h q hdir]
  exact hf

/-- So can a whole way. -/
theorem foldlM_follow_of_retains (h : Retains t t') {segments : List (List Char)}
    (hf : segments.foldlM t.follow q = .ok q') : segments.foldlM t'.follow q = .ok q' := by
  induction segments generalizing q with
  | nil => exact hf
  | cons s r ih =>
    obtain ⟨m, hs, hr⟩ := foldlM_cons_eq_ok_iff.mp hf
    exact foldlM_cons_eq_ok_iff.mpr ⟨m, follow_of_retains h hs, ih hr⟩

/-- A path that leads to a file still leads to what is at that place, as long as every
    directory is retained. -/
theorem locate_of_retains {c : Content} {e : Option Entry} (h : Retains t t')
    (hl : t.locate cwd p = .ok (q, some (.file c))) (he : t'.entry? q = e) :
    t'.locate cwd p = .ok (q, e) := by
  obtain ⟨husable, hfollow, _, hslash⟩ := locate_eq_ok_iff.mp hl
  exact locate_eq_ok_iff.mpr
    ⟨husable, foldlM_follow_of_retains h hfollow, he, fun _ _ => hslash c rfl⟩

end FileTree

end DeclarationDocs
