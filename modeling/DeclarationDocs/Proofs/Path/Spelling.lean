import DeclarationDocs.Proofs.Path.Relative
import Mathlib.Data.List.Basic

namespace DeclarationDocs.Path

/-!
# Paths that are made of names

Names with one slash between them, with or without a slash in front, make a path that can be taken
apart and put together name by name.

* `Spelled names` — the names that a path can be made of;
* `segments_ofSegments`, `components_ofSegments` — they are what such a path consists of;
* `parent_ofSegments`, `join_ofSegments` — its directory, and a name below it.
-/

variable {names : List (List Char)} {n : List Char}

/-- Names that are one segment of a path each, and components of their own. -/
def Spelled (names : List (List Char)) : Prop :=
  ∀ n ∈ names, '/' ∉ n ∧ componentOf n = some (.name n)

/-- One more name may be put behind names that are spelled. -/
theorem Spelled.concat (h : Spelled names) (hslash : '/' ∉ n)
    (hn : componentOf n = some (.name n)) : Spelled (names ++ [n]) := by
  intro m hm
  rcases List.mem_append.mp hm with hm | hm
  · exact h m hm
  · obtain rfl := List.mem_singleton.mp hm
    exact ⟨hslash, hn⟩

/-- The last one may be left out. -/
theorem Spelled.dropLast (h : Spelled names) : Spelled names.dropLast :=
  fun n hn => h n (List.dropLast_subset names hn)

/-- None of them is void. -/
theorem Spelled.not_isVoid (h : Spelled names) (hn : n ∈ names) : isVoid n = false :=
  not_isVoid_of_name (h n hn).2

/-- They are tidy. -/
theorem Spelled.tidy (h : Spelled names) : TidySegments names where
  slash n hn := (h n hn).1
  head _ hn := h.not_isVoid (List.mem_of_mem_head? hn)
  last _ hn := h.not_isVoid (List.mem_of_getLast? hn)

/-- Whether a path from spelled names is absolute is up to the flag. -/
theorem isAbsolute_ofSegments (absolute : Bool) (h : Spelled names) :
    (ofSegments absolute names).isAbsolute = absolute := by
  cases absolute with
  | true => rfl
  | false => exact h.tidy.isAbsolute

/-- The slash in front cuts off an empty piece, which is no segment. -/
theorem segments_ofSegments_true (segs : List (List Char)) :
    (ofSegments true segs).segments = Text.splitAt '/' (joinSegments segs) := by
  simp [segments, ofSegments, isAbsolute, Text.splitAt]

/-- Its segments are the names. -/
theorem segments_ofSegments (absolute : Bool) (h : Spelled names) (hne : names ≠ []) :
    (ofSegments absolute names).segments = names := by
  cases absolute with
  | true => rw [segments_ofSegments_true, splitAt_joinSegments hne fun n hn => (h n hn).1]
  | false => exact h.tidy.segments hne

/-- Its components are the names, behind the root if it is absolute. -/
theorem components_ofSegments (absolute : Bool) (h : Spelled names) :
    (ofSegments absolute names).components =
      (if absolute then [.root] else []) ++ names.map .name := by
  have hnames := filterMap_componentOf_names fun n hn => (h n hn).2
  cases absolute with
  | false => exact h.tidy.components.trans hnames
  | true =>
    rw [components_of_isAbsolute rfl]
    by_cases hne : names = []
    · subst hne
      rfl
    · rw [segments_ofSegments _ h hne, hnames]
      rfl

/-- Such a path ends with its last name. -/
theorem getLast?_ofSegments_concat (absolute : Bool) (h : Spelled (names ++ [n])) :
    (ofSegments absolute (names ++ [n])).chars.getLast? = n.getLast? ∧ n.getLast? ≠ none ∧
      n.getLast? ≠ some '/' := by
  have hn : n ∈ names ++ [n] := by simp
  have hne : n ≠ [] := by
    rintro rfl
    exact absurd (h.not_isVoid hn) (by decide)
  have hends : ∃ s, (ofSegments absolute (names ++ [n])).chars = s ++ n := by
    have hjoin : ∃ s, joinSegments (names ++ [n]) = s ++ n := by
      by_cases hnames : names = []
      · exact ⟨[], by rw [hnames]; rfl⟩
      · refine ⟨joinSegments names ++ ['/'], ?_⟩
        rw [joinSegments_append hnames (by simp), List.append_assoc]
        rfl
    obtain ⟨s, hs⟩ := hjoin
    cases absolute with
    | true => exact ⟨'/' :: s, congrArg ('/' :: ·) hs⟩
    | false => exact ⟨s, hs⟩
  obtain ⟨s, hs⟩ := hends
  refine ⟨by rw [hs, List.getLast?_append_of_ne_nil _ hne], ?_, fun hslash => ?_⟩
  · rw [ne_eq, List.getLast?_eq_none_iff]
    exact hne
  · exact (h n hn).1 (List.mem_of_getLast? hslash)

/-! ### Directories and names below -/

/-- The directory of such a path has one name less. -/
theorem parent_ofSegments (absolute : Bool) (h : Spelled names) :
    (ofSegments absolute names).parent =
      if names = [] then none else some (ofSegments absolute names.dropLast) := by
  by_cases hne : names = []
  · subst hne
    cases absolute <;> rfl
  · obtain ⟨n, r, rfl⟩ := List.exists_cons_of_ne_nil hne
    rw [if_neg hne, parent, isAbsolute_ofSegments _ h, segments_ofSegments _ h hne]
    cases absolute with
    | true => simp only [if_true, h.tidy.trimVoidEnd_eq, h.dropLast.tidy.trimVoidEnd_eq]
    | false =>
      simp only [Bool.false_eq_true, if_false, h.tidy.trimRelativeEnd_eq,
        h.dropLast.tidy.trimRelativeEnd_eq]

/-- A name below such a path is written behind one slash, if something is written in front of it. -/
theorem join_ofSegments (absolute : Bool) (h : Spelled names) (hslash : '/' ∉ n) :
    (ofSegments absolute names).join ⟨n⟩ = ofSegments absolute (names ++ [n]) := by
  have hrelative : (Path.mk n).isAbsolute = false := not_isAbsolute_of_not_mem hslash
  rcases List.eq_nil_or_concat names with rfl | ⟨init, m, rfl⟩
  · unfold join
    cases absolute <;> simp [hrelative, ofSegments, joinSegments]
  · rw [List.concat_eq_append] at h ⊢
    obtain ⟨hlast, hnone, hends⟩ := getLast?_ofSegments_concat absolute h
    have hchars : (ofSegments absolute (init ++ [m])).chars ≠ [] := by
      rw [ne_eq, ← List.getLast?_eq_none_iff, hlast]
      exact hnone
    have hjoin : ((ofSegments absolute (init ++ [m])).join ⟨n⟩).chars =
        (ofSegments absolute (init ++ [m])).chars ++ '/' :: n := by
      rw [chars_join hchars hrelative, if_neg (hlast ▸ hends)]
    have hgoesOn : joinSegments (init ++ [m] ++ [n]) = joinSegments (init ++ [m]) ++ '/' :: n :=
      joinSegments_append (by simp) (by simp)
    refine congrArg Path.mk (hjoin.trans ?_)
    cases absolute with
    | true => exact congrArg ('/' :: ·) hgoesOn.symm
    | false => exact hgoesOn.symm

end DeclarationDocs.Path
