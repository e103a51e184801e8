import DeclarationDocs.Proofs.FileTree.Proper
import DeclarationDocs.Proofs.Path.Spelling

namespace DeclarationDocs

/-!
# Destinations by components

The place that a path leads to depends on its components alone, and so do the places of what is
below it.

* `FileTree.enter` — what one component does to a place;
* `FileTree.destination_eq` — the place of a path, component by component;
* `FileTree.canonical_eq_ok`, `FileTree.parent_pathOf` — the path that spells a place, and the
  path of the directory around it.
-/

namespace FileTree

open DeclarationDocs.Path

variable {t : FileTree} {cwd q : Place} {p p' : Path} {n : List Char}

/-- What a component does to a place. -/
def enter (q : Place) : Component → Place
  | .root => []
  | .current => q
  | .parent => q.dropLast
  | .name n => q ++ [n]

/-- A segment that is no component stays where it is, and every other one is entered. -/
theorem step_eq_enter {s : List Char} (hs : s ≠ []) :
    step q s = ((componentOf s).elim q (enter q)) := by
  unfold step componentOf
  by_cases hdot : s = ['.']
  · simp [hdot, isVoid]
  · by_cases hdots : s = ['.', '.']
    · simp [hdots, isVoid, enter]
    · simp [hs, hdot, hdots, isVoid, enter]

/-- Going by segments is going by the components that they stand for. -/
theorem foldl_step_eq_foldl_enter {segs : List (List Char)} (hsegs : ∀ s ∈ segs, s ≠ []) :
    segs.foldl step q = (segs.filterMap componentOf).foldl enter q := by
  induction segs generalizing q with
  | nil => rfl
  | cons s r ih =>
    obtain ⟨hs, hr⟩ := List.forall_mem_cons.mp hsegs
    rw [List.foldl_cons, step_eq_enter hs, ih hr]
    cases hc : componentOf s with
    | none => rw [List.filterMap_cons_none hc]; rfl
    | some c => rw [List.filterMap_cons_some hc]; rfl

/-- **Destinations.**  Component by component, from where relative paths start. -/
theorem destination_eq (cwd : Place) (p : Path) :
    destination cwd p = p.components.foldl enter cwd := by
  have hsteps : ∀ s ∈ p.steps, s ≠ [] := fun s hs => by
    simpa using (List.mem_filter.mp hs).2
  unfold destination startOf
  rw [foldl_step_eq_foldl_enter hsteps, steps, filterMap_componentOf_filter]
  rcases components_cases p with ⟨habs, hp⟩ | ⟨habs, r, hr, hp⟩ | ⟨habs, -, hp⟩
  · rw [if_pos habs, hp]
    rfl
  · -- a leading `.` stays where it is
    rw [if_neg (by simp [habs]), hp, hr]
    rfl
  · rw [if_neg (by simp [habs]), hp]

/-- Names lead down one by one. -/
theorem foldl_enter_names (names : List (List Char)) :
    (names.map Component.name).foldl enter q = q ++ names := by
  induction names generalizing q with
  | nil => simp
  | cons n r ih =>
    rw [List.map_cons, List.foldl_cons, ih]
    simp [enter]

/-! ### Paths of places -/

/-- The canonical path of what is there spells its place. -/
theorem canonical_eq_ok (h : t.canonical cwd p = .ok p') :
    ∃ q e, t.locate cwd p = .ok (q, some e) ∧ p' = pathOf q := by
  unfold canonical at h
  split at h
  · rename_i q e hl
    exact ⟨q, e, hl, (Except.ok.inj h).symm⟩
  · exact absurd h (by simp)
  · exact absurd h (by simp)

/-- A place with valid names can be spelled. -/
theorem spelled_of_validName (hq : ∀ n ∈ q, ValidName n) : Spelled q :=
  fun n hn => ⟨(hq n hn).2.2.2.1, (hq n hn).componentOf⟩

/-- The path of an entry leads to it. -/
theorem locate_pathOf {e : Entry} (hproper : t.Proper) (he : t.entry? q = some e) :
    t.locate cwd (pathOf q) = .ok (q, some e) := by
  have hvalid : ∀ n ∈ q, ValidName n := fun n hn => hproper.validName (by simp [he]) hn
  have hsteps : (pathOf q).steps = q := by
    by_cases hne : q = []
    · subst hne
      rfl
    · show (ofSegments true q).steps = q
      rw [steps, segments_ofSegments true (spelled_of_validName hvalid) hne]
      exact List.filter_eq_self.mpr fun n hn => by simpa using (hvalid n hn).1
  have husable : Usable (pathOf q) := by
    refine ⟨by simp [pathOf], fun hmem => ?_⟩
    rcases List.mem_cons.mp hmem with hslash | hmem
    · exact absurd hslash (by decide)
    · rcases mem_joinSegments hmem with hslash | ⟨n, hn, hnul⟩
      · exact absurd hslash (by decide)
      · exact (hvalid n hn).2.2.2.2.1 hnul
  refine locate_eq_ok_iff.mpr ⟨husable, ?_, he, fun c hc => ?_⟩
  · rw [hsteps]
    exact foldlM_follow_names (q := []) hproper (by simp [he])
  · -- the root is no file, and every other path ends with a name
    obtain rfl := Option.some.inj hc
    rcases List.eq_nil_or_concat q with rfl | ⟨above, n, rfl⟩
    · exact absurd he (by simp [entry?_nil])
    · rw [List.concat_eq_append] at hvalid ⊢
      have hlast := getLast?_ofSegments_concat true (spelled_of_validName hvalid)
      exact hlast.1 ▸ hlast.2.2

/-- The directory around a place is the place above it. -/
theorem parent_pathOf (hq : ∀ m ∈ q ++ [n], ValidName m) :
    (pathOf (q ++ [n])).parent = some (pathOf q) := by
  have hparent := parent_ofSegments true (spelled_of_validName hq)
  rwa [if_neg (by simp), List.dropLast_concat] at hparent

end FileTree

end DeclarationDocs
