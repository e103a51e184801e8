import DeclarationDocs.Proofs.FileTree.Writing
import Mathlib.Data.List.Induction

namespace DeclarationDocs.FileTree

/-!
# Trees as a disk holds them

A tree value may list entries that no disk has, such as a file without a directory around it.  The
trees that a program meets are those in which every entry has a name that can be written and stands
in a directory.

* `ValidName`, `Proper` — what names and trees have to satisfy;
* `Proper.directory_of_append` — what leads to an entry are directories;
* `mem_namesIn_iff` — a directory lists the names of its entries;
* `locate_join_eq_ok_iff` — a name below a directory leads where that name is followed.
-/

/-- A name that a directory can hold. -/
def ValidName (n : List Char) : Prop :=
  n ≠ [] ∧ n ≠ ['.'] ∧ n ≠ ['.', '.'] ∧ '/' ∉ n ∧ '\x00' ∉ n ∧ Text.byteLength n ≤ nameLimit

instance (n : List Char) : Decidable (ValidName n) :=
  inferInstanceAs (Decidable (_ ∧ _ ∧ _ ∧ _ ∧ _ ∧ _))

/-- Every entry has a valid name and stands in a directory. -/
structure Proper (t : FileTree) : Prop where
  valid : ∀ x ∈ t.entries, ∀ n ∈ x.1, ValidName n
  parent : ∀ x ∈ t.entries, t.entry? x.1.dropLast = some .directory

variable {t : FileTree} {cwd q q' : Place} {n : List Char} {ns : List (List Char)} {e : Option Entry}
  {p : Path}

/-! ### Entries -/

/-- An entry of a place other than the root is listed. -/
theorem exists_mem_entries_iff (hq : q ≠ []) :
    (∃ x ∈ t.entries, x.1 = q) ↔ t.entry? q ≠ none := by
  rw [entry?_of_ne_nil t hq, ne_eq, List.lookup_eq_none_iff]
  simp only [not_forall]
  constructor
  · rintro ⟨x, hx, rfl⟩
    exact ⟨x, hx, by simp⟩
  · rintro ⟨x, hx, h⟩
    have heq : q = x.1 := by simpa using h
    exact ⟨x, hx, heq.symm⟩

/-- A directory lists the names of its entries. -/
theorem mem_namesIn_iff : n ∈ t.namesIn q ↔ t.entry? (q ++ [n]) ≠ none := by
  rw [← exists_mem_entries_iff (by simp), namesIn, List.mem_filterMap]
  refine exists_congr fun x => and_congr_right fun _ => ?_
  rcases List.eq_nil_or_concat x.1 with hx | ⟨above, m, hx⟩
  · simp [hx]
  · simp only [hx, List.concat_eq_append, List.reverse_append, List.reverse_cons, List.reverse_nil,
      List.nil_append, List.singleton_append, List.reverse_reverse, beq_iff_eq]
    by_cases habove : above = q <;> simp [habove]

/-- The number of names on the longest way to an entry. -/
def depth (t : FileTree) : Nat := (t.entries.map fun x => x.1.length).foldl max 0

/-- No entry lies deeper than the tree is. -/
theorem length_le_depth (h : t.entry? q ≠ none) : q.length ≤ t.depth := by
  by_cases hq : q = []
  · simp [hq]
  obtain ⟨x, hx, rfl⟩ := (exists_mem_entries_iff hq).mpr h
  -- the fold is above what it starts with and above what it meets
  have hle : ∀ (ls : List Nat) (m k : Nat), (k ≤ m ∨ k ∈ ls) → k ≤ ls.foldl max m := by
    intro ls
    induction ls with
    | nil => simp
    | cons l r ih =>
      intro m k hk
      refine ih (max m l) k ?_
      rcases hk with hk | hk
      · exact .inl (Nat.le_trans hk (Nat.le_max_left m l))
      · rcases List.mem_cons.mp hk with rfl | hk
        · exact .inl (Nat.le_max_right m k)
        · exact .inr hk
  exact hle _ 0 _ (.inr (List.mem_map.mpr ⟨x, hx, rfl⟩))

/-- A valid name is a component of its own. -/
theorem ValidName.componentOf (h : ValidName n) : Path.componentOf n = some (.name n) := by
  simp [Path.componentOf, Path.isVoid, h.1, h.2.1, h.2.2.1]

namespace Proper

/-- The names on the way to an entry are valid. -/
theorem validName (h : t.Proper) (hq : t.entry? q ≠ none) (hn : n ∈ q) : ValidName n := by
  have hne : q ≠ [] := List.ne_nil_of_mem hn
  obtain ⟨x, hx, rfl⟩ := (exists_mem_entries_iff hne).mpr hq
  exact h.valid x hx n hn

/-- An entry stands in a directory. -/
theorem directory_of_concat (h : t.Proper) (hq : t.entry? (q ++ [n]) ≠ none) :
    t.entry? q = some .directory := by
  obtain ⟨x, hx, hxq⟩ := (exists_mem_entries_iff (by simp)).mpr hq
  simpa [hxq] using h.parent x hx

/-- What leads to an entry are directories. -/
theorem directory_of_append (h : t.Proper) (hne : ns ≠ []) (hq : t.entry? (q ++ ns) ≠ none) :
    t.entry? q = some .directory := by
  induction ns using List.reverseRecOn with
  | nil => exact absurd rfl hne
  | append_singleton ns n ih =>
    rw [← List.append_assoc] at hq
    have hdir := h.directory_of_concat hq
    by_cases hns : ns = []
    · simpa [hns] using hdir
    · exact ih hns (by simp [hdir])

end Proper

/-! ### Following names -/

/-- A valid name is followed from every directory. -/
theorem follow_of_validName (hq : t.entry? q = some .directory) (hn : ValidName n) :
    t.follow q n = .ok (q ++ [n]) := by
  obtain ⟨-, hdot, hdots, -, -, hlength⟩ := hn
  unfold follow
  simp [hq, hdot, hdots, Nat.not_lt.mpr hlength]

/-- The names of an entry are followed from every directory on the way to it. -/
theorem foldlM_follow_names (h : t.Proper) (he : t.entry? (q ++ ns) ≠ none) :
    ns.foldlM t.follow q = .ok (q ++ ns) := by
  induction ns generalizing q with
  | nil => exact foldlM_nil_eq_ok_iff.mpr (List.append_nil q).symm
  | cons n ns ih =>
    have hdir := h.directory_of_append (List.cons_ne_nil n ns) he
    have hn : ValidName n := h.validName he (by simp)
    rw [List.append_cons q n ns] at he ⊢
    exact foldlM_cons_eq_ok_iff.mpr ⟨_, follow_of_validName hdir hn, ih he⟩

/-- A name behind a path is followed from where the path leads. -/
theorem locate_join_eq_ok_iff {e' : Option Entry} (hp : t.locate cwd p = .ok (q, e'))
    (hne : n ≠ []) (hslash : '/' ∉ n) (hnul : '\x00' ∉ n) :
    t.locate cwd (p.join ⟨n⟩) = .ok (q', e) ↔ t.follow q n = .ok q' ∧ t.entry? q' = e := by
  obtain ⟨⟨hchars, hnulp⟩, hfollow, -, -⟩ := locate_eq_ok_iff.mp hp
  have hrelative : (Path.mk n).isAbsolute = false := Path.not_isAbsolute_of_not_mem hslash
  have hjoin : (p.join ⟨n⟩).chars =
      if p.chars.getLast? = some '/' then p.chars ++ n else p.chars ++ '/' :: n :=
    Path.chars_join hchars hrelative
  have husable : Usable (p.join ⟨n⟩) := by
    refine ⟨Path.join_chars_ne_nil hchars hrelative, ?_⟩
    rw [hjoin]
    split <;> simp [hnulp, hnul]
  -- a name brings no slash of its own to the end
  have hlast : (p.join ⟨n⟩).chars.getLast? ≠ some '/' := by
    obtain ⟨r, c, rfl⟩ := (List.eq_nil_or_concat n).resolve_left hne
    have hc : c ≠ '/' := by rintro rfl; simp at hslash
    rw [hjoin]
    split
    · simp [List.getLast?_append, hc]
    · simp [List.getLast?_append, List.getLast?_cons, hc]
  have hsteps : (p.join ⟨n⟩).steps = p.steps ++ [n] := by
    rw [Path.steps_join hchars hrelative, Path.steps_of_not_mem hslash,
      List.filter_cons_of_pos (by simpa using hne)]
    rfl
  -- so the steps are those of `p` and then `n`
  rw [locate_eq_ok_iff, hsteps, List.foldlM_append, startOf, Path.isAbsolute_join hchars hrelative]
  rw [startOf] at hfollow
  rw [hfollow]
  simp only [husable, true_and, bind, Except.bind, List.foldlM_cons, List.foldlM_nil]
  cases t.follow q n with
  | error f => simp
  | ok place => simp [hlast, pure, Except.pure]

end DeclarationDocs.FileTree
