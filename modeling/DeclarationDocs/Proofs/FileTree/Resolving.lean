import DeclarationDocs.Proofs.FileTree.Normalizing

namespace DeclarationDocs.Path

open FileTree

/-!
# Directories and normal forms of absolute paths

The directory of an absolute path has all components of the path but the last.  Its normal form
spells the place that the path leads to, wherever relative paths start.

* `parent_cases` — the root has no directory, and every other absolute path has the one around it;
* `components_normalize` — the normal form, component by component.
-/

variable {p : Path}

/-! ### Directories -/

/-- What is written behind a slash has the components of its segments behind the root. -/
theorem components_pathOf {segs : List (List Char)} (hslash : ∀ s ∈ segs, '/' ∉ s) :
    (pathOf segs).components = .root :: segs.filterMap componentOf := by
  show (ofSegments true segs).components = _
  rw [components_of_isAbsolute rfl, segments_ofSegments_true]
  by_cases hne : segs = []
  · subst hne
    rfl
  · rw [splitAt_joinSegments hne hslash]

/-- The directory of an absolute path is absolute. -/
theorem parent_of_isAbsolute (h : p.isAbsolute = true) :
    p.parent = match trimVoidEnd p.segments with
      | [] => none
      | segs => some ⟨'/' :: joinSegments (trimVoidEnd segs.dropLast)⟩ := by
  unfold parent
  simp only [h, if_true]
  rfl

/-- **Directories.**  An absolute path is the root, or has one component more than its directory. -/
theorem parent_cases (h : p.isAbsolute = true) :
    (p.parent = none ∧ p.components = [.root]) ∨
      ∃ d cs c, p.parent = some d ∧ d.isAbsolute = true ∧ d.components = .root :: cs ∧
        p.components = .root :: (cs ++ [c]) := by
  have hslash : ∀ s ∈ p.segments, '/' ∉ s := fun s => slash_not_mem_segments
  have hcomponents : p.components = .root :: (trimVoidEnd p.segments).filterMap componentOf := by
    rw [components_of_isAbsolute h, filterMap_trimVoidEnd]
  have hparent := parent_of_isAbsolute h
  rcases List.eq_nil_or_concat (trimVoidEnd p.segments) with hnil | ⟨init, s, hcut⟩
  · rw [hnil] at hparent hcomponents
    exact .inl ⟨hparent, hcomponents⟩
  · rw [List.concat_eq_append] at hcut
    -- the last segment that is left stands for a component
    have hs : isVoid s = false := isVoid_getLast_trimVoidEnd (by rw [hcut]; simp)
    obtain ⟨c, hc⟩ := exists_componentOf hs
    have hinit : ∀ s' ∈ trimVoidEnd init, '/' ∉ s' := by
      intro s' hs'
      have hmem : s' ∈ trimVoidEnd p.segments := by
        rw [hcut]
        exact List.mem_append_left _ ((prefix_trimVoidEnd init).mem hs')
      exact hslash s' ((prefix_trimVoidEnd p.segments).mem hmem)
    refine .inr ⟨pathOf (trimVoidEnd init), init.filterMap componentOf, c, ?_, rfl, ?_, ?_⟩
    · rw [hparent, hcut]
      split
      · rename_i heq
        exact absurd heq (by simp)
      · rw [List.dropLast_concat]
        rfl
    · rw [components_pathOf hinit, filterMap_trimVoidEnd]
    · rw [hcomponents, hcut, List.filterMap_append]
      simp [hc]

/-! ### Normalisation -/

/-- An absolute path stays absolute however far it goes up. -/
theorem isAbsolute_normalize (h : p.isAbsolute = true) : p.normalize.isAbsolute = true :=
  (isAbsolute_normalize_eq p).trans h

/-- **Normalisation.**  The normal form of an absolute path spells the place that the path leads
    to, by names alone. -/
theorem components_normalize (cwd : Place) (h : p.isAbsolute = true) :
    p.normalize.components = .root :: (destination cwd p).map .name := by
  have hplace : destination cwd p = destination [] p := by simp [destination, startOf, h]
  rw [components_normalize_eq, if_pos h, hplace]
  rfl

end DeclarationDocs.Path
