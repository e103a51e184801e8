import DeclarationDocs.Proofs.Path.Stripping

namespace DeclarationDocs.Path

/-!
# Tidy relative paths

What is left of a path below another one is relative and neither begins nor ends in a void
segment.  Such a path can be joined to any other without touching the components of either.

* `Tidy p` — the paths of this kind; they hold `..` and names only;
* `components_join_relative` — a relative path that does not start with `.` goes on with its own
  components, whatever it is joined to;
* `tidy_parent` — the directory of a tidy path is tidy and has all components but the last;
* `stripPrefix_spec`, `exists_stripPrefix_iff` — a prefix can be taken off if its components
  begin those of the path, and what is left is tidy.
-/

variable {p q base : Path} {segs : List (List Char)} {cs : List Component}

/-! ### Components by the way a path begins -/

/-- No segment stands for the root or the current directory. -/
theorem componentOf_filterMap {c : Component} (h : c ∈ segs.filterMap componentOf) :
    c = .parent ∨ ∃ n ∈ segs, c = .name n := by
  obtain ⟨s, hs, hc⟩ := List.mem_filterMap.mp h
  exact (componentOf_eq_some hc).imp_right fun hname => ⟨s, hs, hname⟩

theorem root_notMem_filterMap (segs : List (List Char)) : .root ∉ segs.filterMap componentOf := by
  intro hmem
  rcases componentOf_filterMap hmem with h | ⟨n, -, h⟩ <;> exact absurd h (by simp)

/-- An absolute path has the root in front, and then the components of its segments. -/
theorem components_of_isAbsolute (h : p.isAbsolute = true) :
    p.components = .root :: p.segments.filterMap componentOf := by
  rw [components, if_pos h]

/-- A path is absolute, or begins with a `.`, or has nothing but its segments. -/
theorem components_cases (p : Path) :
    (p.isAbsolute = true ∧ p.components = .root :: p.segments.filterMap componentOf) ∨
      (p.isAbsolute = false ∧ ∃ r, p.segments = ['.'] :: r ∧
        p.components = .current :: r.filterMap componentOf) ∨
      (p.isAbsolute = false ∧ p.segments.head? ≠ some ['.'] ∧
        p.components = p.segments.filterMap componentOf) := by
  by_cases habs : p.isAbsolute = true
  · exact .inl ⟨habs, components_of_isAbsolute habs⟩
  · have hcomponents : p.components = relativeComponents p.segments := by
      rw [components, if_neg habs]
    have habs : p.isAbsolute = false := by simpa using habs
    right
    by_cases hdot : p.segments.head? = some ['.']
    · obtain ⟨r, hr⟩ := List.head?_eq_some_iff.mp hdot
      exact .inl ⟨habs, r, hr, by rw [hcomponents, hr]; rfl⟩
    · exact .inr ⟨habs, hdot, hcomponents.trans (relativeComponents_of_head hdot)⟩

/-- Only the first component of an absolute path is the root. -/
theorem exists_components_eq (p : Path) :
    ∃ cs, p.components = (if p.isAbsolute then [.root] else []) ++ cs ∧ .root ∉ cs := by
  rcases components_cases p with ⟨habs, hp⟩ | ⟨habs, r, -, hp⟩ | ⟨habs, -, hp⟩
  · exact ⟨_, by rw [habs, hp]; rfl, root_notMem_filterMap _⟩
  · exact ⟨_, by rw [habs]; exact hp, by simpa using root_notMem_filterMap r⟩
  · exact ⟨_, by rw [habs]; exact hp, root_notMem_filterMap _⟩

/-- So it has a component. -/
theorem components_ne_nil_of_isAbsolute (h : p.isAbsolute = true) : p.components ≠ [] := by
  rw [components_of_isAbsolute h]
  simp

/-- No segment has a slash in it. -/
theorem slash_not_mem_segments {s : List Char} (h : s ∈ p.segments) : '/' ∉ s := by
  rw [segments_eq_drop] at h
  exact Text.not_mem_of_mem_splitAt (List.mem_of_mem_drop h)

/-- Of the pieces between slashes only the empty one before the root is no segment. -/
theorem mem_segments_iff {s : List Char} (hs : s ≠ []) :
    s ∈ p.segments ↔ s ∈ Text.splitAt '/' p.chars := by
  unfold segments
  split
  · rename_i habs
    obtain ⟨r, hr⟩ := isAbsolute_iff.mp habs
    simp [hr, Text.splitAt, hs]
  · rfl

/-- The names among the components are the segments that stand for themselves. -/
theorem name_mem_components_iff {n : List Char} :
    .name n ∈ p.components ↔ n ∈ p.segments ∧ componentOf n = some (.name n) := by
  have hsegment : ∀ segs : List (List Char), .name n ∈ segs.filterMap componentOf ↔
      n ∈ segs ∧ componentOf n = some (.name n) := by
    intro segs
    rw [List.mem_filterMap]
    constructor
    · rintro ⟨s, hs, hc⟩
      rcases componentOf_eq_some hc with heq | heq
      · exact absurd heq (by simp)
      · obtain rfl := Component.name.inj heq
        exact ⟨hs, hc⟩
    · rintro ⟨hn, hc⟩
      exact ⟨n, hn, hc⟩
  rcases components_cases p with ⟨-, hp⟩ | ⟨-, r, hr, hp⟩ | ⟨-, -, hp⟩
  · simp [hp, hsegment]
  · -- a `.` at the start stands for the current directory and is no name
    have hdot : componentOf ['.'] ≠ some (.name ['.']) := by decide
    simp only [hp, hr, List.mem_cons, hsegment, reduceCtorEq, false_or]
    refine and_congr_left fun hn => ⟨.inr, fun hmem => hmem.resolve_left ?_⟩
    rintro rfl
    exact hdot hn
  · rw [hp, hsegment]

/-- A name among the components is a segment of the path. -/
theorem name_of_mem_components {n : List Char} (h : .name n ∈ p.components) :
    '/' ∉ n ∧ componentOf n = some (.name n) := by
  obtain ⟨hmem, hn⟩ := name_mem_components_iff.mp h
  exact ⟨slash_not_mem_segments hmem, hn⟩

/-- The names of joined segments are those of the segments that stand for themselves. -/
theorem mem_names_joinSegments_iff {n : List Char} {names : List (List Char)} (hne : names ≠ [])
    (hslash : ∀ m ∈ names, '/' ∉ m) (hn : componentOf n = some (.name n)) :
    n ∈ (Path.mk (joinSegments names)).names ↔ n ∈ names := by
  have hnil : n ≠ [] := by
    rintro rfl
    exact absurd hn (by decide)
  have hnames : n ∈ (Path.mk (joinSegments names)).names ↔
      .name n ∈ (Path.mk (joinSegments names)).components := by
    rw [Path.names, List.mem_filterMap]
    constructor
    · rintro ⟨c, hc, hname⟩
      cases c <;> simp_all
    · intro hc
      exact ⟨_, hc, rfl⟩
  rw [hnames, name_mem_components_iff, and_iff_left hn, mem_segments_iff hnil,
    splitAt_joinSegments hne hslash]

/-! ### Joining -/

/-- Behind a first segment, segments are components of their own. -/
theorem relativeComponents_append {more : List (List Char)} (h : segs ≠ []) :
    relativeComponents (segs ++ more) = relativeComponents segs ++ more.filterMap componentOf := by
  obtain ⟨s, r, rfl⟩ := List.exists_cons_of_ne_nil h
  by_cases hs : s = ['.']
  · subst hs
    simp [relativeComponents]
  · rw [List.cons_append, relativeComponents_of_head (by simpa using hs),
      relativeComponents_of_head (by simpa using hs), ← List.cons_append, List.filterMap_append]

/-- **Joining.**  A relative path that does not start with `.` goes on with its own components. -/
theorem components_join_relative (hq : q.isAbsolute = false)
    (hcurrent : q.components.head? ≠ some .current) :
    (p.join q).components = p.components ++ q.components := by
  by_cases hp : p.chars = []
  · have hjoin : p.join q = q := by
      simp [join, hq, hp]
    rw [hjoin, components_of_chars_eq_nil hp, List.nil_append]
  · have hsteps : q.components = q.steps.filterMap componentOf := by
      rcases components_cases q with ⟨habs, -⟩ | ⟨-, r, -, hr⟩ | ⟨-, -, hr⟩
      · exact absurd (habs.symm.trans hq) (by simp)
      · exact absurd (by rw [hr]; rfl) hcurrent
      · rw [hr, steps, filterMap_componentOf_filter]
    rw [components_eq_of_steps (join_chars_ne_nil hp hq), components_eq_of_steps hp, hsteps,
      isAbsolute_join hp hq, steps_join hp hq]
    split
    · rw [List.filterMap_append, List.cons_append]
    · -- a relative path has a first step, which alone decides about a leading `.`
      rename_i habs
      have habs : p.isAbsolute = false := by simpa using habs
      apply relativeComponents_append
      obtain ⟨s, r, -, hs, -⟩ := exists_segments_eq_cons hp habs
      rw [hs]
      simp

/-- Joined paths are absolute if one of them is. -/
theorem isAbsolute_join_eq (p q : Path) :
    (p.join q).isAbsolute = (p.isAbsolute || q.isAbsolute) := by
  by_cases hq : q.isAbsolute = true
  · rw [join, if_pos hq, hq, Bool.or_true]
  · have hq : q.isAbsolute = false := by simpa using hq
    by_cases hp : p.chars = []
    · have hjoin : p.join q = q := by simp [join, hq, hp]
      have habs : p.isAbsolute = false := by simp [isAbsolute, hp]
      rw [hjoin, habs, Bool.false_or]
    · rw [isAbsolute_join hp hq, hq, Bool.or_false]

/-- What is joined to an absolute path gives an absolute path. -/
theorem isAbsolute_join_left (h : p.isAbsolute = true) : (p.join q).isAbsolute = true := by
  rw [isAbsolute_join_eq, h, Bool.true_or]

/-! ### Tidy paths -/

/-- Segments that neither begin nor end in a void one. -/
structure TidySegments (segs : List (List Char)) : Prop where
  slash : ∀ s ∈ segs, '/' ∉ s
  head : ∀ s, segs.head? = some s → isVoid s = false
  last : ∀ s, segs.getLast? = some s → isVoid s = false

/-- A relative path that is written without void segments at its ends. -/
def Tidy (p : Path) : Prop := ∃ segs, TidySegments segs ∧ p = ⟨joinSegments segs⟩

namespace TidySegments

theorem nil : TidySegments [] := ⟨by simp, by simp, by simp⟩

theorem singleton {s : List Char} (hslash : '/' ∉ s) (hvoid : isVoid s = false) :
    TidySegments [s] := by
  refine ⟨by simpa using hslash, ?_, ?_⟩
  all_goals
    intro s' hs'
    obtain rfl : s = s' := by simpa using hs'
    exact hvoid

/-- The first of tidy segments is neither void nor `.`. -/
theorem head_ne (h : TidySegments segs) : segs.head? ≠ some [] ∧ segs.head? ≠ some ['.'] := by
  constructor
  all_goals
    intro hhead
    exact absurd (h.head _ hhead) (by decide)

/-- Nothing is trimmed off tidy segments. -/
theorem trimVoidEnd_eq (h : TidySegments segs) : trimVoidEnd segs = segs := by
  unfold trimVoidEnd
  rcases List.eq_nil_or_concat segs with rfl | ⟨init, s, rfl⟩
  · rfl
  · have hs : isVoid s = false := h.last s (by simp)
    simp [hs]

/-- Nothing is trimmed from the end of tidy segments. -/
theorem trimRelativeEnd_eq (h : TidySegments segs) : trimRelativeEnd segs = segs := by
  unfold trimRelativeEnd
  split
  · exact absurd rfl h.head_ne.2
  · exact h.trimVoidEnd_eq

/-- Tidy segments are those of a relative path. -/
theorem isAbsolute (h : TidySegments segs) : (Path.mk (joinSegments segs)).isAbsolute = false := by
  cases segs with
  | nil => rfl
  | cons s r =>
    refine not_isAbsolute_joinSegments ?_ (h.slash s List.mem_cons_self)
    rintro rfl
    exact h.head_ne.1 rfl

/-- They are its segments. -/
theorem segments (h : TidySegments segs) (hne : segs ≠ []) :
    (Path.mk (joinSegments segs)).segments = segs := by
  rw [segments_of_relative h.isAbsolute]
  exact splitAt_joinSegments hne h.slash

/-- Their components are its components. -/
theorem components (h : TidySegments segs) :
    (Path.mk (joinSegments segs)).components = segs.filterMap componentOf := by
  by_cases hne : segs = []
  · subst hne
    rfl
  · rw [Path.components, if_neg (by simp [h.isAbsolute]), h.segments hne]
    exact relativeComponents_of_head h.head_ne.2

end TidySegments

/-- Void segments that are skipped are no components. -/
theorem filterMap_dropWhile_isVoid (segs : List (List Char)) :
    (segs.dropWhile isVoid).filterMap componentOf = segs.filterMap componentOf := by
  induction segs with
  | nil => rfl
  | cons s r ih =>
    by_cases hs : isVoid s = true
    · rw [List.dropWhile_cons_of_pos hs, ih, List.filterMap_cons_none (componentOf_of_isVoid hs)]
    · rw [List.dropWhile_cons_of_neg hs]

/-- Segments that are trimmed at their end lose no components. -/
theorem filterMap_trimVoidEnd (segs : List (List Char)) :
    (trimVoidEnd segs).filterMap componentOf = segs.filterMap componentOf := by
  rw [trimVoidEnd, List.filterMap_reverse, filterMap_dropWhile_isVoid, List.filterMap_reverse,
    List.reverse_reverse]

/-- Trimming void segments from the end leaves a prefix. -/
theorem prefix_trimVoidEnd (segs : List (List Char)) : trimVoidEnd segs <+: segs := by
  unfold trimVoidEnd
  rw [← List.reverse_suffix, List.reverse_reverse]
  exact List.dropWhile_suffix _

/-- No void segment is left at the end. -/
theorem isVoid_getLast_trimVoidEnd {s : List Char} (h : (trimVoidEnd segs).getLast? = some s) :
    isVoid s = false := by
  unfold trimVoidEnd at h
  rw [List.getLast?_reverse] at h
  obtain ⟨r, hr⟩ := List.head?_eq_some_iff.mp h
  have hne : segs.reverse.dropWhile isVoid ≠ [] := by simp [hr]
  have hhead := List.head_dropWhile_not isVoid hne
  simpa [hr] using hhead

/-- Trimming makes segments tidy that begin with no void one. -/
theorem tidySegments_trimVoidEnd (hslash : ∀ s ∈ segs, '/' ∉ s)
    (hhead : ∀ s, segs.head? = some s → isVoid s = false) : TidySegments (trimVoidEnd segs) where
  slash s hs := hslash s ((prefix_trimVoidEnd segs).mem hs)
  head s hs := by
    obtain ⟨r, hr⟩ := List.head?_eq_some_iff.mp hs
    obtain ⟨ending, hending⟩ := prefix_trimVoidEnd segs
    exact hhead s (by rw [← hending, hr]; rfl)
  last s := isVoid_getLast_trimVoidEnd

theorem tidy_nil : Tidy ⟨[]⟩ := ⟨[], .nil, rfl⟩

namespace Tidy

/-- A tidy path is relative. -/
theorem isAbsolute (h : Tidy p) : p.isAbsolute = false := by
  obtain ⟨segs, hsegs, rfl⟩ := h
  exact hsegs.isAbsolute

/-- A tidy path goes up and down, and never starts anew. -/
theorem mem_components (h : Tidy p) {c : Component} (hc : c ∈ p.components) :
    c = .parent ∨ ∃ n, c = .name n := by
  obtain ⟨segs, hsegs, rfl⟩ := h
  rw [hsegs.components] at hc
  exact (componentOf_filterMap hc).imp_right fun ⟨n, _, hn⟩ => ⟨n, hn⟩

/-- The components of a tidy path are put behind those it is joined to. -/
theorem components_join (h : Tidy q) : (p.join q).components = p.components ++ q.components := by
  apply components_join_relative h.isAbsolute
  intro hhead
  rcases h.mem_components (List.mem_of_mem_head? hhead) with hc | ⟨n, hc⟩
  · exact absurd hc (by simp)
  · exact absurd hc (by simp)

end Tidy

/-- The directory of a tidy path is tidy, and has all components but the last. -/
theorem tidy_parent (h : Tidy p) :
    Tidy (p.parent.getD ⟨[]⟩) ∧ (p.parent.getD ⟨[]⟩).components = p.components.dropLast := by
  obtain ⟨segs, hsegs, rfl⟩ := h
  rcases List.eq_nil_or_concat segs with rfl | ⟨init, s, rfl⟩
  · exact ⟨tidy_nil, rfl⟩
  · simp only [List.concat_eq_append] at hsegs ⊢
    have hs : isVoid s = false := hsegs.last s (by simp)
    have hinit : ∀ s', init.head? = some s' → isVoid s' = false := by
      intro s' hs'
      obtain ⟨r, hr⟩ := List.head?_eq_some_iff.mp hs'
      exact hsegs.head s' (by rw [hr]; rfl)
    have hslash : ∀ s' ∈ init, '/' ∉ s' := fun s' hs' => hsegs.slash s' (by simp [hs'])
    have htidy := tidySegments_trimVoidEnd hslash hinit
    -- the segments before the last do not begin with a `.`, so they are trimmed like any others
    have htrim : trimRelativeEnd init = trimVoidEnd init := by
      unfold trimRelativeEnd
      split
      · exact absurd (hinit _ rfl) (by decide)
      · rfl
    have hparent : (Path.mk (joinSegments (init ++ [s]))).parent =
        some ⟨joinSegments (trimVoidEnd init)⟩ := by
      unfold parent
      simp only [hsegs.isAbsolute, hsegs.segments (by simp), Bool.false_eq_true, if_false,
        hsegs.trimRelativeEnd_eq]
      split
      · rename_i heq
        exact absurd heq (by simp)
      · rw [List.dropLast_concat, htrim]
        rfl
    obtain ⟨c, hc⟩ := exists_componentOf hs
    rw [hparent, Option.getD_some, htidy.components, hsegs.components, filterMap_trimVoidEnd]
    refine ⟨⟨_, htidy, rfl⟩, ?_⟩
    simp [hc]

/-! ### Taking a prefix off -/

/-- What is left of segments begins with no void one, and has the components that go on. -/
theorem stripComponents_spec {left : List (List Char)} (h : stripComponents cs segs = some left) :
    left <:+ segs ∧ (∀ s, left.head? = some s → isVoid s = false) ∧
      segs.filterMap componentOf = cs ++ left.filterMap componentOf := by
  induction cs generalizing segs with
  | nil =>
    obtain rfl := Option.some.inj h
    refine ⟨List.dropWhile_suffix _, fun s hs => ?_, (filterMap_dropWhile_isVoid segs).symm⟩
    obtain ⟨r, hr⟩ := List.head?_eq_some_iff.mp hs
    have hhead := List.head_dropWhile_not isVoid (by rw [hr]; simp : segs.dropWhile isVoid ≠ [])
    simpa [hr] using hhead
  | cons c cs ih =>
    unfold stripComponents at h
    split at h
    · rename_i s r hdrop
      split at h
      · rename_i hc
        obtain ⟨hsuffix, hhead, hrest⟩ := ih h
        have hdropped : s :: r <:+ segs := hdrop ▸ List.dropWhile_suffix _
        refine ⟨hsuffix.trans ((List.suffix_cons s r).trans hdropped), hhead, ?_⟩
        rw [← filterMap_dropWhile_isVoid, hdrop, List.filterMap_cons_some hc, hrest, List.cons_append]
      · exact absurd h (by simp)
    · exact absurd h (by simp)

/-- Components that begin those of some segments can be taken off. -/
theorem exists_stripComponents (h : cs <+: segs.filterMap componentOf) :
    ∃ left, stripComponents cs segs = some left := by
  induction segs generalizing cs with
  | nil =>
    obtain rfl := List.prefix_nil.mp h
    exact ⟨_, rfl⟩
  | cons s r ih =>
    cases cs with
    | nil => exact ⟨_, rfl⟩
    | cons c cs =>
      by_cases hs : isVoid s = true
      · -- a void segment is skipped
        have hnone := componentOf_of_isVoid hs
        rw [List.filterMap_cons_none hnone] at h
        obtain ⟨left, hleft⟩ := ih h
        refine ⟨left, ?_⟩
        rw [← hleft]
        simp [stripComponents, hs]
      · obtain ⟨c', hc'⟩ := exists_componentOf (by simpa using hs : isVoid s = false)
        rw [List.filterMap_cons_some hc'] at h
        obtain ⟨rfl, hrest⟩ := List.cons_prefix_cons.mp h
        obtain ⟨left, hleft⟩ := ih hrest
        refine ⟨left, ?_⟩
        rw [← hleft]
        simp [stripComponents, hs, hc']

/-- How a prefix is taken off: either the two paths begin in different ways, or what is behind
    their common beginning is compared segment by segment. -/
theorem stripPrefix_cases (p : Path) (hbase : base.components ≠ []) :
    (p.stripPrefix base = none ∧ ¬ base.components <+: p.components) ∨
      ∃ first cs segs, base.components = first ++ cs ∧
        p.components = first ++ segs.filterMap componentOf ∧ (∀ s ∈ segs, '/' ∉ s) ∧
        p.stripPrefix base =
          (stripComponents cs segs).map fun left => ⟨joinSegments (trimVoidEnd left)⟩ := by
  obtain ⟨c, cs, hc⟩ := List.exists_cons_of_ne_nil hbase
  have hslash : ∀ s ∈ p.segments, '/' ∉ s := fun s => slash_not_mem_segments
  unfold stripPrefix
  rw [hc]
  rcases components_cases p with ⟨habs, hp⟩ | ⟨habs, r, hr, hp⟩ | ⟨habs, hdot, hp⟩
  · -- the root has no segment of its own, so it is compared before the segments are
    rw [hp]
    cases c with
    | root =>
      refine .inr ⟨[.root], cs, p.segments, rfl, rfl, hslash, ?_⟩
      simp only [habs, if_true]
      rfl
    | _ => simp [habs]
  · -- so is a `.` that begins a path, since it would be void as a segment
    rw [hp]
    cases c with
    | current =>
      refine .inr ⟨[.current], cs, r, rfl, rfl, fun s hs => hslash s (by simp [hr, hs]), ?_⟩
      simp only [habs, hr]
      rfl
    | _ => simp [habs, hr]
  · -- no segment stands for the root or the current directory
    have hbegin : ∀ c ∈ p.components, c ≠ .root ∧ c ≠ .current := by
      intro c hmem
      rw [hp] at hmem
      rcases componentOf_filterMap hmem with rfl | ⟨n, -, rfl⟩ <;> simp
    cases c with
    | root =>
      refine .inl ⟨by simp [habs], fun hstart => ?_⟩
      exact (hbegin _ (hstart.mem List.mem_cons_self)).1 rfl
    | current =>
      refine .inl ⟨?_, fun hstart => ?_⟩
      · simp only [habs]
        split
        · rename_i hr
          exact absurd (by rw [hr]; rfl) hdot
        · rfl
      · exact (hbegin _ (hstart.mem List.mem_cons_self)).2 rfl
    | parent =>
      refine .inr ⟨[], .parent :: cs, p.segments, rfl, hp, hslash, ?_⟩
      simp only [habs, Bool.false_or, beq_iff_eq, hdot, if_false]
      rfl
    | name n =>
      refine .inr ⟨[], .name n :: cs, p.segments, rfl, hp, hslash, ?_⟩
      simp only [habs, Bool.false_or, beq_iff_eq, hdot, if_false]
      rfl

/-- **Taking a prefix off.**  What is left is tidy, and has the components that go on behind the
    prefix. -/
theorem stripPrefix_spec (hbase : base.components ≠ []) (h : p.stripPrefix base = some q) :
    Tidy q ∧ p.components = base.components ++ q.components := by
  rcases stripPrefix_cases p hbase with ⟨hnone, -⟩ | ⟨first, cs, segs, hb, hp, hslash, heq⟩
  · exact absurd (hnone.symm.trans h) (by simp)
  · rw [heq] at h
    obtain ⟨left, hleft, rfl⟩ := Option.map_eq_some_iff.mp h
    obtain ⟨hsuffix, hhead, hcomponents⟩ := stripComponents_spec hleft
    have htidy := tidySegments_trimVoidEnd (fun s hs => hslash s (hsuffix.mem hs)) hhead
    refine ⟨⟨_, htidy, rfl⟩, ?_⟩
    rw [htidy.components, filterMap_trimVoidEnd, hp, hb, hcomponents, List.append_assoc]

/-- A prefix can be taken off if its components begin those of the path. -/
theorem exists_stripPrefix_iff (hbase : base.components ≠ []) :
    (∃ q, p.stripPrefix base = some q) ↔ base.components <+: p.components := by
  constructor
  · intro ⟨q, hq⟩
    exact ⟨q.components, (stripPrefix_spec hbase hq).2.symm⟩
  · intro hprefix
    rcases stripPrefix_cases p hbase with ⟨-, hnot⟩ | ⟨first, cs, segs, hb, hp, -, heq⟩
    · exact absurd hprefix hnot
    · rw [hb, hp, List.prefix_append_right_inj] at hprefix
      obtain ⟨left, hleft⟩ := exists_stripComponents hprefix
      exact ⟨_, by rw [heq, hleft]; rfl⟩

end DeclarationDocs.Path
