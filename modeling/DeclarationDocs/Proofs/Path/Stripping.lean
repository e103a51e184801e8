import DeclarationDocs.Proofs.Path.Segments

namespace DeclarationDocs.Path

/-!
# Taking a prefix off a path

A path that goes on behind another one, with names only, has these names left when the other is
taken off, however both are spelled.

* `stripComponents_append` — the components of some segments are taken off what goes on behind
  them;
* `stripPrefix_eq_some` — the same for whole paths.
-/

variable {p base : Path} {segs names : List (List Char)} {n : List Char}

/-- A name is not void. -/
theorem not_isVoid_of_name (hn : componentOf n = some (.name n)) : isVoid n = false := by
  unfold componentOf at hn
  split at hn
  · exact absurd hn (by simp)
  · simpa using ‹¬ isVoid n = true›

/-- A void segment is no component. -/
theorem componentOf_of_isVoid (hn : isVoid n = true) : componentOf n = none := by
  simp [componentOf, hn]

/-- Any other segment is one. -/
theorem exists_componentOf (hn : isVoid n = false) : ∃ c, componentOf n = some c := by
  unfold componentOf
  rw [if_neg (by simp [hn])]
  split
  · exact ⟨_, rfl⟩
  · exact ⟨_, rfl⟩

/-- Names at the start of segments are not skipped. -/
theorem dropWhile_isVoid_names (hnames : ∀ n ∈ names, componentOf n = some (.name n)) :
    names.dropWhile isVoid = names := by
  cases names with
  | nil => rfl
  | cons n r =>
    have hn := not_isVoid_of_name (hnames n List.mem_cons_self)
    rw [List.dropWhile_cons_of_neg (by simp [hn])]

/-- Nothing is trimmed from the end of names. -/
theorem trimVoidEnd_names (hnames : ∀ n ∈ names, componentOf n = some (.name n)) :
    trimVoidEnd names = names := by
  unfold trimVoidEnd
  rw [dropWhile_isVoid_names fun n hn => hnames n (List.mem_reverse.mp hn), List.reverse_reverse]

/-- The components of segments are taken off, and void segments with them. -/
theorem stripComponents_append (hnames : ∀ n ∈ names, componentOf n = some (.name n)) :
    stripComponents (segs.filterMap componentOf) (segs ++ names) = some names := by
  induction segs with
  | nil => simp [stripComponents, dropWhile_isVoid_names hnames]
  | cons s r ih =>
    by_cases hs : isVoid s = true
    · have hnone := componentOf_of_isVoid hs
      -- a void segment is skipped, whatever is left to take off
      have hskip : ∀ cs, stripComponents cs (s :: (r ++ names)) = stripComponents cs (r ++ names) := by
        intro cs
        cases cs <;> simp [stripComponents, hs]
      rw [List.filterMap_cons_none hnone, List.cons_append, hskip]
      exact ih
    · obtain ⟨c, hc⟩ := exists_componentOf (by simpa using hs : isVoid s = false)
      rw [List.filterMap_cons_some hc, List.cons_append]
      simp [stripComponents, hs, hc, ih]

/-- A segment stands for `..` or for its own name. -/
theorem componentOf_eq_some {c : Component} (h : componentOf n = some c) :
    c = .parent ∨ c = .name n := by
  unfold componentOf at h
  split at h
  · exact absurd h (by simp)
  · split at h
    · exact .inl (Option.some.inj h).symm
    · exact .inr (Option.some.inj h).symm

/-- A relative path that does not start with `.` has its first segment as a component. -/
theorem exists_steps_eq_cons (hp : p.chars ≠ []) (habs : p.isAbsolute = false)
    (hcurrent : p.components.head? ≠ some .current) :
    ∃ s r, p.steps = s :: r ∧ s ≠ [] ∧ s ≠ ['.'] := by
  obtain ⟨s, r, -, hsteps, hne⟩ := exists_segments_eq_cons hp habs
  refine ⟨s, _, hsteps, hne, ?_⟩
  rintro rfl
  apply hcurrent
  rw [components_eq_of_steps hp, habs, hsteps]
  rfl

/-- **Taking a prefix off.**  What is left of a path behind another one are the names that it goes
    on with. -/
theorem stripPrefix_eq_some (hp : p.chars ≠ []) (hbase : base.chars ≠ [])
    (habs : p.isAbsolute = base.isAbsolute) (hsegs : p.segments = segs ++ names)
    (hsteps : segs.filter (· != []) = base.steps)
    (hcurrent : base.components.head? ≠ some .current)
    (hnames : ∀ n ∈ names, componentOf n = some (.name n)) :
    p.stripPrefix base = some ⟨joinSegments names⟩ := by
  have hstrip : stripComponents (base.steps.filterMap componentOf) p.segments = some names := by
    rw [hsegs, ← hsteps, filterMap_componentOf_filter]
    exact stripComponents_append hnames
  have hleft : ofSegments false (trimVoidEnd names) = ⟨joinSegments names⟩ := by
    simp [ofSegments, trimVoidEnd_names hnames]
  have hcomponents := components_eq_of_steps hbase
  by_cases hroot : base.isAbsolute = true
  · rw [if_pos hroot] at hcomponents
    unfold stripPrefix
    rw [hcomponents]
    simp [habs, hroot, hstrip, hleft]
  · rw [if_neg hroot] at hcomponents
    have hrelative : base.isAbsolute = false := by simpa using hroot
    obtain ⟨s, r, hs, hne, hdot⟩ := exists_steps_eq_cons hbase hrelative hcurrent
    obtain ⟨c, hc⟩ := exists_componentOf (by simp [isVoid, hne, hdot] : isVoid s = false)
    rw [relativeComponents_of_head (by simpa [hs] using hdot)] at hcomponents
    -- the path starts with the same segment
    have hhead : p.segments.head? ≠ some ['.'] := by
      intro hhead
      have hfirst := head_segments_ne_nil hp (habs.trans hrelative)
      cases segs with
      | nil => simp [hs] at hsteps
      | cons s' r' =>
        rw [hsegs] at hhead hfirst
        obtain rfl : s' = ['.'] := Option.some.inj hhead
        rw [List.filter_cons_of_pos (by simp), hs] at hsteps
        exact hdot (List.cons.inj hsteps).1.symm
    have hhead : (p.segments.head? == some ['.']) = false := by simpa using hhead
    rw [hs, List.filterMap_cons_some hc] at hcomponents hstrip
    unfold stripPrefix
    rw [hcomponents]
    rcases componentOf_eq_some hc with rfl | rfl
    · simp [habs, hrelative, hhead, hstrip, hleft]
    · simp [habs, hrelative, hhead, hstrip, hleft]

end DeclarationDocs.Path
