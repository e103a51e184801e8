import DeclarationDocs.Path
import DeclarationDocs.Text.WhiteSpace
import Mathlib.Data.List.Induction
import Mathlib.Data.List.TakeWhile

namespace DeclarationDocs

/-!
# Segments of joined paths

Splitting at slashes and writing slashes between are `List.splitOn` and `List.intercalate`, so
the library's laws hold for them.  A path with one name below it has the segments and components
of the path, and that name.

* `Text.splitAt_eq_splitOn`, `Path.joinSegments_eq_intercalate` — the library's operations;
* `Path.steps` — the segments that lead somewhere or stay; `Path.steps_join` — a segment below a
  path is one more step;
* `Path.components_eq_of_steps` — paths with the same steps have the same components.
-/

namespace Text

/-- The splitting of this library is that of `List.splitOn`. -/
theorem splitAt_eq_splitOn (sep : Char) (s : List Char) : splitAt sep s = s.splitOn sep := by
  induction s with
  | nil => rfl
  | cons c r ih =>
    rw [List.splitOn_cons_eq_if_modifyHead, splitAt, ih]
    by_cases hc : c = sep
    · simp [hc]
    · have hne := List.splitOn_ne_nil sep r
      cases hs : r.splitOn sep with
      | nil => exact absurd hs hne
      | cons p ps => simp [hc]

/-- There is always a piece. -/
theorem splitAt_ne_nil (sep : Char) (s : List Char) : splitAt sep s ≠ [] := by
  rw [splitAt_eq_splitOn]
  exact List.splitOn_ne_nil sep s

/-- Texts with a separator between them are split apart there. -/
theorem splitAt_append_cons (sep : Char) (s r : List Char) :
    splitAt sep (s ++ sep :: r) = splitAt sep s ++ splitAt sep r := by
  simp only [splitAt_eq_splitOn]
  exact List.splitOn_append_cons_self s r

/-- Without the separator there is one piece, the whole. -/
theorem splitAt_of_not_mem {sep : Char} {s : List Char} (h : sep ∉ s) : splitAt sep s = [s] := by
  rw [splitAt_eq_splitOn]
  exact List.splitOn_eq_singleton h

/-- No piece contains the separator. -/
theorem not_mem_of_mem_splitAt {sep : Char} {s piece : List Char} (h : piece ∈ splitAt sep s) :
    sep ∉ piece := by
  induction s generalizing piece with
  | nil =>
    obtain rfl := List.mem_singleton.mp h
    simp
  | cons c r ih =>
    unfold splitAt at h
    split at h
    · rcases List.mem_cons.mp h with rfl | h
      · simp
      · exact ih h
    · rename_i hc
      split at h
      · obtain rfl := List.mem_singleton.mp h
        simpa using Ne.symm hc
      · rename_i p ps hs
        rcases List.mem_cons.mp h with rfl | h
        · have hp := ih (hs ▸ List.mem_cons_self)
          simp [Ne.symm hc, hp]
        · exact ih (hs ▸ List.mem_cons_of_mem p h)

/-- A character of a piece is one of the whole. -/
theorem mem_of_mem_splitAt {sep c : Char} {s piece : List Char} (h : piece ∈ splitAt sep s)
    (hc : c ∈ piece) : c ∈ s := by
  induction s generalizing piece with
  | nil =>
    obtain rfl := List.mem_singleton.mp h
    simp at hc
  | cons d r ih =>
    unfold splitAt at h
    split at h
    · rcases List.mem_cons.mp h with rfl | h
      · simp at hc
      · exact List.mem_cons_of_mem d (ih h hc)
    · split at h
      · obtain rfl := List.mem_singleton.mp h
        exact List.mem_singleton.mp hc ▸ List.mem_cons_self
      · rename_i p ps hs
        rcases List.mem_cons.mp h with rfl | h
        · rcases List.mem_cons.mp hc with rfl | hc
          · exact List.mem_cons_self
          · exact List.mem_cons_of_mem d (ih (hs ▸ List.mem_cons_self) hc)
        · exact List.mem_cons_of_mem d (ih (hs ▸ List.mem_cons_of_mem p h) hc)

/-! ### Dropping an end -/

/-- Whether something is dropped from the end is seen from the last character. -/
theorem dropEndWhile_concat (f : Char → Bool) (s : List Char) (c : Char) :
    dropEndWhile f (s ++ [c]) = if f c then dropEndWhile f s else s ++ [c] := by
  unfold dropEndWhile
  rw [List.reverse_append, List.reverse_singleton, List.singleton_append]
  by_cases hc : f c = true
  · rw [List.dropWhile_cons_of_pos hc, if_pos hc]
  · rw [List.dropWhile_cons_of_neg hc, if_neg hc]
    simp

/-- Nothing is left only if all is dropped. -/
theorem forall_of_dropEndWhile_eq_nil {p : Char → Bool} {s : List Char}
    (h : dropEndWhile p s = []) : ∀ c ∈ s, p c = true := by
  intro c hc
  have hdrop : s.reverse.dropWhile p = [] := List.reverse_eq_nil_iff.mp h
  exact List.dropWhile_eq_nil_iff.mp hdrop c (List.mem_reverse.mpr hc)

/-- What is left when the end is dropped is the start. -/
theorem dropEndWhile_prefix (f : Char → Bool) (s : List Char) : dropEndWhile f s <+: s := by
  unfold dropEndWhile
  rw [← List.reverse_suffix, List.reverse_reverse]
  exact List.dropWhile_suffix f

/-- What is dropped at the end is of the kind that is dropped. -/
theorem exists_append_dropEndWhile (p : Char → Bool) (s : List Char) :
    ∃ ending, s = dropEndWhile p s ++ ending ∧ ∀ c ∈ ending, p c = true := by
  refine ⟨(s.reverse.takeWhile p).reverse, ?_, fun c hc => ?_⟩
  · rw [dropEndWhile, ← List.reverse_append, List.takeWhile_append_dropWhile, List.reverse_reverse]
  · exact List.mem_takeWhile_imp (List.mem_reverse.mp hc)

/-- Separators at the end only give empty pieces. -/
theorem splitAt_dropEndWhile (sep : Char) (s : List Char) :
    ∃ k, splitAt sep s = splitAt sep (dropEndWhile (· == sep) s) ++ List.replicate k [] := by
  induction s using List.reverseRecOn with
  | nil => exact ⟨0, rfl⟩
  | append_singleton s c ih =>
    rw [dropEndWhile_concat]
    by_cases hc : c = sep
    · subst hc
      obtain ⟨k, hk⟩ := ih
      refine ⟨k + 1, ?_⟩
      rw [splitAt_append_cons, hk, List.replicate_succ']
      simp [splitAt]
    · exact ⟨0, by simp [hc]⟩

/-- So they do not count where empty pieces are left out, be it of all pieces or of those behind
    the first one. -/
theorem filter_drop_splitAt_dropEndWhile (sep : Char) (s : List Char) {i : Nat} (hi : i ≤ 1) :
    ((splitAt sep (dropEndWhile (· == sep) s)).drop i).filter (· != []) =
      ((splitAt sep s).drop i).filter (· != []) := by
  obtain ⟨k, hk⟩ := splitAt_dropEndWhile sep s
  have hlength : i ≤ (splitAt sep (dropEndWhile (· == sep) s)).length :=
    hi.trans (List.length_pos_iff.mpr (splitAt_ne_nil _ _))
  rw [hk, List.drop_append_of_le_length hlength, List.filter_append]
  simp

end Text

namespace Path

variable {p q : Path} {n : List Char}

/-- Segments are joined with a slash between two of them. -/
theorem joinSegments_eq_intercalate (segs : List (List Char)) :
    joinSegments segs = List.intercalate ['/'] segs := by
  induction segs with
  | nil => rfl
  | cons s r ih =>
    cases r with
    | nil => simp [joinSegments]
    | cons s' r => simp [joinSegments, ih]

/-- Names with slashes between them are split into the names. -/
theorem splitAt_joinSegments {segs : List (List Char)} (hne : segs ≠ [])
    (h : ∀ s ∈ segs, '/' ∉ s) : Text.splitAt '/' (joinSegments segs) = segs := by
  rw [Text.splitAt_eq_splitOn, joinSegments_eq_intercalate]
  exact List.splitOn_intercalate '/' h hne

/-- Splitting at slashes is undone by joining. -/
theorem joinSegments_splitAt (s : List Char) : joinSegments (Text.splitAt '/' s) = s := by
  rw [Text.splitAt_eq_splitOn, joinSegments_eq_intercalate]
  exact List.intercalate_splitOn '/'

/-- A character of the joined segments is a slash or one of theirs. -/
theorem mem_joinSegments {segs : List (List Char)} {c : Char} (h : c ∈ joinSegments segs) :
    c = '/' ∨ ∃ s ∈ segs, c ∈ s := by
  induction segs with
  | nil => simp [joinSegments] at h
  | cons s r ih =>
    cases r with
    | nil => exact .inr ⟨s, List.mem_cons_self, h⟩
    | cons s' r =>
      rcases List.mem_append.mp h with h | h
      · exact .inr ⟨s, List.mem_cons_self, h⟩
      · rcases List.mem_cons.mp h with rfl | h
        · exact .inl rfl
        · exact (ih h).imp_right fun ⟨s, hs, hc⟩ => ⟨s, List.mem_cons_of_mem _ hs, hc⟩

/-- A slash stands between the segments of `a` and those of `b`. -/
theorem joinSegments_append {a b : List (List Char)} (ha : a ≠ []) (hb : b ≠ []) :
    joinSegments (a ++ b) = joinSegments a ++ '/' :: joinSegments b := by
  induction a with
  | nil => exact absurd rfl ha
  | cons s r ih =>
    obtain ⟨s', b', rfl⟩ := List.exists_cons_of_ne_nil hb
    cases r with
    | nil => rfl
    | cons s'' r =>
      show s ++ '/' :: joinSegments (s'' :: r ++ s' :: b') = _
      rw [ih (by simp), ← List.cons_append, ← List.append_assoc]
      rfl

/-! ### A path below a path -/

theorem eq_mk_nil (hp : p.chars = []) : p = ⟨[]⟩ := by
  cases p
  exact congrArg Path.mk hp

/-- The empty path has no components. -/
theorem components_of_chars_eq_nil (hp : p.chars = []) : p.components = [] := by
  rw [eq_mk_nil hp]
  rfl

/-- A path is absolute if it begins with a slash. -/
theorem isAbsolute_iff : p.isAbsolute = true ↔ ∃ r, p.chars = '/' :: r := by
  unfold isAbsolute
  split
  · rename_i r h
    simp [h]
  · rename_i h
    simp only [Bool.false_eq_true, false_iff, not_exists]
    exact h

/-- Without a slash it is not. -/
theorem not_isAbsolute_of_not_mem (h : '/' ∉ n) : (Path.mk n).isAbsolute = false := by
  rw [Bool.eq_false_iff]
  intro habs
  obtain ⟨r, rfl⟩ : ∃ r, n = '/' :: r := isAbsolute_iff.mp habs
  exact h List.mem_cons_self

/-- A relative path below a path is written behind one slash. -/
theorem chars_join (hp : p.chars ≠ []) (hq : q.isAbsolute = false) :
    (p.join q).chars =
      if p.chars.getLast? = some '/' then p.chars ++ q.chars else p.chars ++ '/' :: q.chars := by
  unfold join
  simp only [hq, Bool.false_eq_true, if_false, hp, false_or]
  split <;> rfl

/-- A relative path joined to one with characters has characters. -/
theorem join_chars_ne_nil (hp : p.chars ≠ []) (hq : q.isAbsolute = false) :
    (p.join q).chars ≠ [] := by
  rw [chars_join hp hq]
  split <;> simp [hp]

/-- Joining a relative path to `p` leaves `p.isAbsolute` as it was. -/
theorem isAbsolute_join (hp : p.chars ≠ []) (hq : q.isAbsolute = false) :
    (p.join q).isAbsolute = p.isAbsolute := by
  have hchars := chars_join hp hq
  obtain ⟨c, r, hc⟩ := List.exists_cons_of_ne_nil hp
  -- joining does not touch the first character
  have hhead : ∃ r', (p.join q).chars = c :: r' := by
    rw [hchars, hc]
    split
    · exact ⟨r ++ q.chars, rfl⟩
    · exact ⟨r ++ '/' :: q.chars, rfl⟩
  obtain ⟨r', hr'⟩ := hhead
  unfold isAbsolute
  rw [hr', hc]
  by_cases h : c = '/' <;> simp [h]

/-- The segments of a relative path are the pieces between its slashes. -/
theorem segments_of_relative (hq : q.isAbsolute = false) :
    q.segments = Text.splitAt '/' q.chars := by
  unfold segments
  simp [hq]

/-- The slash of an absolute path cuts off an empty piece, which is no segment. -/
theorem segments_eq_drop (p : Path) :
    p.segments = (Text.splitAt '/' p.chars).drop (if p.isAbsolute then 1 else 0) := by
  unfold segments
  split
  · rfl
  · rw [List.drop_zero]

/-- The segments of a path and those behind it; a slash at the end of the path gives no segment of
    its own any more. -/
theorem segments_join (hp : p.chars ≠ []) (hq : q.isAbsolute = false) :
    ∃ segs, (p.join q).segments = segs ++ q.segments ∧
      (p.segments = segs ∨ p.segments = segs ++ [[]] ∧ p.chars.getLast? = some '/') := by
  -- every text has a piece before the slash of an absolute path
  have hdrop : ∀ s, (if p.isAbsolute then 1 else 0) ≤ (Text.splitAt '/' s).length := by
    intro s
    have hpos : 0 < (Text.splitAt '/' s).length :=
      List.length_pos_iff.mpr (Text.splitAt_ne_nil _ _)
    split <;> omega
  rw [segments_of_relative hq, segments_eq_drop, segments_eq_drop p, isAbsolute_join hp hq,
    chars_join hp hq]
  by_cases hlast : p.chars.getLast? = some '/'
  · obtain ⟨s, hs⟩ : ∃ s, p.chars = s ++ ['/'] := List.getLast?_eq_some_iff.mp hlast
    have hself : Text.splitAt '/' (s ++ ['/']) = Text.splitAt '/' s ++ [[]] := by
      rw [Text.splitAt_append_cons]
      rfl
    rw [if_pos hlast, hs, List.append_assoc, List.singleton_append, Text.splitAt_append_cons,
      hself, List.drop_append_of_le_length (hdrop s), List.drop_append_of_le_length (hdrop s)]
    exact ⟨_, rfl, .inr ⟨rfl, by simp⟩⟩
  · rw [if_neg hlast, Text.splitAt_append_cons, List.drop_append_of_le_length (hdrop p.chars)]
    exact ⟨_, rfl, .inl rfl⟩

/-! ### Steps -/

/-- The segments of a path that are followed: all but the empty ones. -/
def steps (p : Path) : List (List Char) := p.segments.filter (· != [])

/-- The steps of a joined path are those of its two parts. -/
theorem steps_join (hp : p.chars ≠ []) (hq : q.isAbsolute = false) :
    (p.join q).steps = p.steps ++ q.steps := by
  obtain ⟨segs, hjoin, hp⟩ := segments_join hp hq
  unfold steps
  rw [hjoin, List.filter_append]
  rcases hp with hp | ⟨hp, -⟩
  · rw [hp]
  · simp [hp]

/-- A path without a slash has at most one step. -/
theorem steps_of_not_mem (hn : '/' ∉ n) : (Path.mk n).steps = [n].filter (· != []) := by
  unfold steps
  rw [segments_of_relative (not_isAbsolute_of_not_mem hn), Text.splitAt_of_not_mem hn]

/-- Segments that are left out do not count as components. -/
theorem filterMap_componentOf_filter (segs : List (List Char)) :
    (segs.filter (· != [])).filterMap componentOf = segs.filterMap componentOf := by
  induction segs with
  | nil => rfl
  | cons s r ih =>
    by_cases hs : s = []
    · simp [hs, ih, componentOf, isVoid]
    · rw [List.filter_cons_of_pos (by simpa using hs), List.filterMap_cons, List.filterMap_cons, ih]

/-- A relative path has a segment. -/
theorem segments_ne_nil_of_not_isAbsolute (h : p.isAbsolute = false) : p.segments ≠ [] := by
  unfold segments
  simp only [h, Bool.false_eq_true, if_false]
  exact Text.splitAt_ne_nil _ _

/-- The first segment of a relative path is empty only if the path is. -/
theorem head_segments_ne_nil (hp : p.chars ≠ []) (h : p.isAbsolute = false) :
    p.segments.head? ≠ some [] := by
  obtain ⟨c, r, hc⟩ := List.exists_cons_of_ne_nil hp
  have hslash : c ≠ '/' := by
    rintro rfl
    rw [isAbsolute_iff.mpr ⟨r, hc⟩] at h
    exact absurd h (by simp)
  unfold segments
  simp only [h, Bool.false_eq_true, if_false, hc, Text.splitAt, hslash]
  cases Text.splitAt '/' r <;> simp

/-- So the first segment of a relative path is its first step. -/
theorem exists_segments_eq_cons (hp : p.chars ≠ []) (h : p.isAbsolute = false) :
    ∃ s r, p.segments = s :: r ∧ p.steps = s :: r.filter (· != []) ∧ s ≠ [] := by
  obtain ⟨s, r, hs⟩ := List.exists_cons_of_ne_nil (segments_ne_nil_of_not_isAbsolute h)
  have hne : s ≠ [] := by
    rintro rfl
    exact head_segments_ne_nil hp h (by rw [hs]; rfl)
  refine ⟨s, r, hs, ?_, hne⟩
  rw [steps, hs, List.filter_cons_of_pos (by simpa using hne)]

/-- Only a `.` at the start makes relative segments special. -/
theorem relativeComponents_of_head {segs : List (List Char)} (h : segs.head? ≠ some ['.']) :
    relativeComponents segs = segs.filterMap componentOf := by
  unfold relativeComponents
  split
  · exact absurd rfl h
  · rfl

/-- **Components and steps.**  The components of a path are decided by its steps. -/
theorem components_eq_of_steps (hp : p.chars ≠ []) :
    p.components =
      if p.isAbsolute then .root :: p.steps.filterMap componentOf
      else relativeComponents p.steps := by
  unfold components
  by_cases h : p.isAbsolute = true
  · simp only [h, if_true, steps, filterMap_componentOf_filter]
  · have h : p.isAbsolute = false := by simpa using h
    simp only [h, Bool.false_eq_true, if_false]
    -- leaving out the empty segments keeps the first one, which decides about a `.`
    obtain ⟨s, r, hs, hsteps, -⟩ := exists_segments_eq_cons hp h
    rw [hs, hsteps]
    by_cases hdot : s = ['.']
    · rw [hdot]
      simp only [relativeComponents, filterMap_componentOf_filter]
    · rw [relativeComponents_of_head (by simpa using hdot),
        relativeComponents_of_head (by simpa using hdot), List.filterMap_cons,
        List.filterMap_cons, filterMap_componentOf_filter]

/-- A segment that is a name is a component of its own at the end. -/
theorem relativeComponents_concat (segs : List (List Char)) (hn : componentOf n = some (.name n)) :
    relativeComponents (segs ++ [n]) = relativeComponents segs ++ [.name n] := by
  have hdot : n ≠ ['.'] := by
    rintro rfl
    exact absurd hn (by decide)
  cases segs with
  | nil =>
    rw [List.nil_append, relativeComponents_of_head (by simpa using hdot)]
    simp [relativeComponents, hn]
  | cons s r =>
    by_cases hs : s = ['.']
    · subst hs
      simp [relativeComponents, hn]
    · rw [List.cons_append, relativeComponents_of_head (by simpa using hs),
        relativeComponents_of_head (by simpa using hs), ← List.cons_append, List.filterMap_append]
      simp [hn]

/-- A name below a path is one more component. -/
theorem components_join (hp : p.chars ≠ []) (hslash : '/' ∉ n)
    (hn : componentOf n = some (.name n)) :
    (p.join ⟨n⟩).components = p.components ++ [.name n] := by
  have hne : n ≠ [] := by
    rintro rfl
    exact absurd hn (by decide)
  have hrelative : (Path.mk n).isAbsolute = false := not_isAbsolute_of_not_mem hslash
  rw [components_eq_of_steps (join_chars_ne_nil hp hrelative), components_eq_of_steps hp,
    isAbsolute_join hp hrelative, steps_join hp hrelative, steps_of_not_mem hslash,
    List.filter_cons_of_pos (by simpa using hne)]
  split
  · simp [hn]
  · exact relativeComponents_concat _ hn

/-- The file name is the last component, if that is a name. -/
theorem fileName_eq_some_iff : p.fileName = some n ↔ p.components.getLast? = some (.name n) := by
  unfold fileName
  split
  · rename_i m hlast
    simp [hlast]
  · rename_i hnone
    simpa using hnone n

/-- Segments that are names are the components of these names. -/
theorem filterMap_componentOf_names {names : List (List Char)}
    (hnames : ∀ n ∈ names, componentOf n = some (.name n)) :
    names.filterMap componentOf = names.map .name := by
  induction names with
  | nil => rfl
  | cons n r ih =>
    obtain ⟨hn, hr⟩ := List.forall_mem_cons.mp hnames
    rw [List.filterMap_cons_some hn, List.map_cons, ih hr]

/-- What begins with a name does not begin with a slash. -/
theorem not_isAbsolute_joinSegments {r : List (List Char)} (hn : n ≠ []) (hslash : '/' ∉ n) :
    (Path.mk (joinSegments (n :: r))).isAbsolute = false := by
  obtain ⟨c, s, rfl⟩ := List.exists_cons_of_ne_nil hn
  have hc : c ≠ '/' := by
    rintro rfl
    exact hslash List.mem_cons_self
  have hhead : ∃ s', joinSegments ((c :: s) :: r) = c :: s' := by
    cases r with
    | nil => exact ⟨s, rfl⟩
    | cons n' r => exact ⟨_, rfl⟩
  obtain ⟨s', hs'⟩ := hhead
  unfold isAbsolute
  simp [hs', hc]

/-- Names with slashes between them are the components of what they spell. -/
theorem components_joinSegments {names : List (List Char)} (hne : names ≠ [])
    (hslash : ∀ n ∈ names, '/' ∉ n) (hnames : ∀ n ∈ names, componentOf n = some (.name n)) :
    (Path.mk (joinSegments names)).components = names.map .name := by
  obtain ⟨n, r, rfl⟩ := List.exists_cons_of_ne_nil hne
  -- neither of these is a name
  have hfirst : n ≠ [] ∧ n ≠ ['.'] := by
    constructor
    all_goals
      rintro rfl
      exact absurd (hnames _ List.mem_cons_self) (by decide)
  have habs : (Path.mk (joinSegments (n :: r))).isAbsolute = false :=
    not_isAbsolute_joinSegments hfirst.1 (hslash n List.mem_cons_self)
  have hsegments : (Path.mk (joinSegments (n :: r))).segments = n :: r := by
    unfold segments
    rw [habs]
    exact splitAt_joinSegments hne hslash
  unfold components
  rw [habs, hsegments]
  simp only [Bool.false_eq_true, if_false]
  rw [relativeComponents_of_head (by simpa using hfirst.2), filterMap_componentOf_names hnames]

end Path

end DeclarationDocs
