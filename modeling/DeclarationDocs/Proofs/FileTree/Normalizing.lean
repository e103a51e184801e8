import DeclarationDocs.Proofs.FileTree.Destination

namespace DeclarationDocs.Path

open FileTree

/-!
# Normal forms of paths

Normalisation follows a path by its text alone, with nowhere to go up to from where it starts.  So
its result is decided by whether the path is absolute and by the names that are left in the end, and
it spells them with one slash between them.

* `pushComponent_ofSegments` — one step of normalisation does to the names what following a path
  does to a place; `normalize_eq` — the whole of it;
* `destination_join` — a path below a path leads where it leads from there, so
  `normalize_join_normalize`;
* `normalize_resolves` — normal forms are free of `.` and `..`, final, and can be put in the place
  of the start of a path: `(p.normalize.join q).normalize = (p.join q).normalize`.
-/

variable {p q : Path} {c : Component} {names : Place}

/-! ### Steps -/

/-- **One step.**  The names of a path are followed as places are. -/
theorem pushComponent_ofSegments (absolute : Bool) (h : Spelled names) (hroot : c ≠ .root)
    (hc : ∀ n, c = .name n → '/' ∉ n ∧ componentOf n = some (.name n)) :
    Spelled (enter names c) ∧
      pushComponent (ofSegments absolute names) c = ofSegments absolute (enter names c) := by
  cases c with
  | root => exact absurd rfl hroot
  | current => exact ⟨h, rfl⟩
  | name n =>
    obtain ⟨hslash, hn⟩ := hc n rfl
    exact ⟨h.concat hslash hn, join_ofSegments absolute h hslash⟩
  | parent =>
    refine ⟨h.dropLast, ?_⟩
    show (ofSegments absolute names).parent.getD _ = ofSegments absolute names.dropLast
    rw [parent_ofSegments _ h]
    split
    · rename_i hnil
      rw [hnil]
      rfl
    · rfl

/-! ### The whole path -/

/-- All steps, by induction on the components. -/
theorem foldl_pushComponent (absolute : Bool) {cs : List Component} (h : Spelled names)
    (hroot : .root ∉ cs) (hcs : ∀ n, .name n ∈ cs → '/' ∉ n ∧ componentOf n = some (.name n)) :
    Spelled (cs.foldl enter names) ∧
      cs.foldl pushComponent (ofSegments absolute names) =
        ofSegments absolute (cs.foldl enter names) := by
  induction cs generalizing names with
  | nil => exact ⟨h, rfl⟩
  | cons c cs ih =>
    have hfirst : c ≠ .root := fun hc => hroot (hc ▸ List.mem_cons_self)
    obtain ⟨hnext, hpush⟩ := pushComponent_ofSegments absolute h hfirst
      fun n hn => hcs n (hn ▸ List.mem_cons_self)
    rw [List.foldl_cons, List.foldl_cons, hpush]
    exact ih hnext (fun hmem => hroot (List.mem_cons_of_mem c hmem))
      fun n hn => hcs n (List.mem_cons_of_mem c hn)

/-- A normalised path spells the place that the path leads to from the root. -/
theorem normalize_spec (p : Path) :
    Spelled (destination [] p) ∧ p.normalize = ofSegments p.isAbsolute (destination [] p) := by
  obtain ⟨cs, hp, hroot⟩ := exists_components_eq p
  have hnames : ∀ n, .name n ∈ cs → '/' ∉ n ∧ componentOf n = some (.name n) :=
    fun n hn => name_of_mem_components (hp ▸ List.mem_append_right _ hn)
  obtain ⟨hspelled, hrun⟩ := foldl_pushComponent p.isAbsolute
    (by simp [Spelled] : Spelled []) hroot hnames
  -- a root at the start is where an absolute path starts anyway
  have hfirst : p.components.foldl enter [] = cs.foldl enter [] ∧
      p.components.foldl pushComponent ⟨[]⟩ =
        cs.foldl pushComponent (ofSegments p.isAbsolute []) := by
    rw [hp]
    cases p.isAbsolute <;> exact ⟨rfl, rfl⟩
  rw [destination_eq, normalize, hfirst.1, hfirst.2]
  exact ⟨hspelled, hrun⟩

/-- The place that a path leads to can be spelled. -/
theorem spelled_destination (p : Path) : Spelled (destination [] p) := (normalize_spec p).1

/-- **Normalisation.**  The normal form of a path spells the names that are left when the path is
    followed from a place with nothing above it. -/
theorem normalize_eq (p : Path) : p.normalize = ofSegments p.isAbsolute (destination [] p) :=
  (normalize_spec p).2

/-- Normalising keeps whether a path is absolute. -/
theorem isAbsolute_normalize_eq (p : Path) : p.normalize.isAbsolute = p.isAbsolute := by
  rw [normalize_eq, isAbsolute_ofSegments _ (spelled_destination p)]

/-- The components of a normalised path are the root, if it is absolute, and names. -/
theorem components_normalize_eq (p : Path) :
    p.normalize.components =
      (if p.isAbsolute then [.root] else []) ++ (destination [] p).map .name := by
  rw [normalize_eq, components_ofSegments _ (spelled_destination p)]

/-- Following the normal form leads to where the path leads. -/
theorem destination_normalize (p : Path) : destination [] p.normalize = destination [] p := by
  rw [destination_eq, components_normalize_eq, List.foldl_append, foldl_enter_names]
  cases p.isAbsolute <;> rfl

/-! ### Joined paths -/

/-- A path below a path leads where it leads from there. -/
theorem destination_join (cwd : Place) (p q : Path) :
    destination cwd (p.join q) = destination (destination cwd p) q := by
  by_cases hq : q.isAbsolute = true
  · -- an absolute path starts at the root, wherever it stands
    rw [join, if_pos hq, destination, destination, startOf, startOf, if_pos hq, if_pos hq]
  · have hq : q.isAbsolute = false := by simpa using hq
    have hstart : ∀ cwd, startOf cwd q = cwd := fun cwd => by simp [startOf, hq]
    by_cases hp : p.chars = []
    · obtain rfl := eq_mk_nil hp
      have hjoin : (Path.mk []).join q = q := by simp [join, hq]
      rw [hjoin]
      rfl
    · rw [destination, steps_join hp hq, List.foldl_append, destination, hstart, destination,
        startOf, startOf, isAbsolute_join hp hq]

/-- Going up from the top leads nowhere else. -/
theorem foldl_enter_nil {cs : List Component} (h : ∀ c ∈ cs, c = .parent ∨ c = .current) :
    cs.foldl enter [] = [] := by
  induction cs with
  | nil => rfl
  | cons c cs ih =>
    obtain ⟨hc, hcs⟩ := List.forall_mem_cons.mp h
    have hstay : enter [] c = [] := by rcases hc with rfl | rfl <;> rfl
    rw [List.foldl_cons, hstay, ih hcs]

/-- The start of a path can be normalised first. -/
theorem normalize_join_normalize (p q : Path) :
    (p.normalize.join q).normalize = (p.join q).normalize := by
  rw [normalize_eq, normalize_eq (p.join q), isAbsolute_join_eq, isAbsolute_join_eq,
    isAbsolute_normalize_eq, destination_join, destination_join, destination_normalize]

/-- Whatever goes up from the root stays there. -/
theorem normalize_join_of_root (hp : p.normalize = ⟨['/']⟩)
    (hq : ∀ c ∈ q.components, c = .parent ∨ c = .current) : (p.join q).normalize = ⟨['/']⟩ := by
  have habs : p.isAbsolute = true := by
    rw [← isAbsolute_normalize_eq, hp]
    rfl
  have hplace : destination [] p = [] := by
    rw [← destination_normalize, hp]
    rfl
  rw [normalize_eq, isAbsolute_join_eq, habs, destination_join, hplace, destination_eq,
    foldl_enter_nil hq]
  rfl

/-! ### Normal forms -/

/-- Normalising twice is normalising once. -/
theorem normalize_normalize (p : Path) : p.normalize.normalize = p.normalize := by
  rw [normalize_eq p.normalize, isAbsolute_normalize_eq, destination_normalize, ← normalize_eq]

/-- No component of a normalised path is `.` or `..`. -/
theorem mem_components_normalize (hc : c ∈ p.normalize.components) :
    c ≠ .current ∧ c ≠ .parent := by
  rw [components_normalize_eq] at hc
  rcases List.mem_append.mp hc with hc | hc
  · split at hc
    · obtain rfl := List.mem_singleton.mp hc
      simp
    · exact absurd hc (by simp)
  · obtain ⟨n, -, rfl⟩ := List.mem_map.mp hc
    simp

/-- The pieces between slashes are looked at as well, because most `.` are no components. -/
theorem mem_segments_normalize {s : List Char} (hs : s ∈ p.normalize.segments) :
    s ≠ ['.'] ∧ s ≠ ['.', '.'] := by
  rw [normalize_eq] at hs
  by_cases hne : destination [] p = []
  · -- the root and the empty path have one empty segment
    rw [hne] at hs
    cases h : p.isAbsolute
    all_goals
      rw [h] at hs
      obtain rfl := List.mem_singleton.mp hs
      simp
  · rw [segments_ofSegments _ (spelled_destination p) hne] at hs
    obtain ⟨-, hname⟩ := spelled_destination p s hs
    constructor
    all_goals
      rintro rfl
      exact absurd hname (by decide)

/-- **Normal forms.**  `p.normalize` has no `.` and no `..`, neither as a component nor as a piece
    between slashes, and is its own normal form.  It is absolute just when `p` is, and has the
    `destination` of `p` from a place with nothing above it.  It can be put in the place of a `p`
    that `q` is joined to.  However often `q` goes up, `p.join q` stays at the root if `p` is
    there. -/
theorem normalize_resolves (p q : Path) :
    (∀ c ∈ p.normalize.components, c ≠ .current ∧ c ≠ .parent) ∧
    (∀ s ∈ p.normalize.segments, s ≠ ['.'] ∧ s ≠ ['.', '.']) ∧
    p.normalize.normalize = p.normalize ∧
    p.normalize.isAbsolute = p.isAbsolute ∧
    destination [] p.normalize = destination [] p ∧
    (p.normalize.join q).normalize = (p.join q).normalize ∧
    (p.normalize = ⟨['/']⟩ → (∀ c ∈ q.components, c = .parent ∨ c = .current) →
      (p.join q).normalize = ⟨['/']⟩) :=
  ⟨fun _ => mem_components_normalize, fun _ => mem_segments_normalize, normalize_normalize p,
    isAbsolute_normalize_eq p, destination_normalize p, normalize_join_normalize p q,
    normalize_join_of_root⟩

/-- A path that goes up and comes to the root, and goes up from there. -/
theorem normalize_resolves_upwards :
    (Path.mk "/work/.././".toList).normalize = ⟨['/']⟩ ∧
    (∀ c ∈ (Path.mk "./..//../.".toList).components, c = .parent ∨ c = .current) ∧
    ((Path.mk "/work/.././".toList).join ⟨"./..//../.".toList⟩).normalize = ⟨['/']⟩ := by
  have hroot : (Path.mk "/work/.././".toList).normalize = ⟨['/']⟩ := by decide
  have hup : ∀ c ∈ (Path.mk "./..//../.".toList).components, c = .parent ∨ c = .current := by
    decide
  obtain ⟨-, -, -, -, -, -, hstays⟩ :=
    normalize_resolves ⟨"/work/.././".toList⟩ ⟨"./..//../.".toList⟩
  exact ⟨hroot, hup, hstays hroot hup⟩

end DeclarationDocs.Path
