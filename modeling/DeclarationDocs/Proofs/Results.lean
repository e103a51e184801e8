import Mathlib.Data.List.Forall2

namespace DeclarationDocs

/-!
# Computations that may fail

A computation that may fail succeeds just when each of its steps does.  The lemmas say so for the
ways in which steps are put together, so that no proof has to go through the failures.

* `bind_eq_ok_iff`, `bind_eq_error_iff` — when `x >>= f` is `.ok b`, and when it is `.error e`;
* `map_eq_ok_iff`, `map_eq_error_iff` — the same for `x.map f`;
* `Ends P Q x` — `x` gives what satisfies `P`, or fails with what satisfies `Q`.
-/

variable {ε α β : Type}

/-- What a computation gives can be read off without the failures. -/
theorem toOption_eq_some_iff {x : Except ε α} {a : α} : x.toOption = some a ↔ x = .ok a := by
  cases x with
  | error e => simp [Except.toOption]
  | ok b => simp [Except.toOption]

/-- `P` holds of what a computation gives, and `Q` of how it fails. -/
def Ends (P : α → Prop) (Q : ε → Prop) : Except ε α → Prop
  | .ok a => P a
  | .error e => Q e

/-- Two steps end well if the second one does behind every end of the first one. -/
theorem Ends.bind {P : α → Prop} {P' : β → Prop} {Q : ε → Prop} {x : Except ε α}
    {f : α → Except ε β} (hx : Ends P Q x) (hf : ∀ a, P a → Ends P' Q (f a)) :
    Ends P' Q (x >>= f) := by
  cases x with
  | error e => exact hx
  | ok a => exact hf a hx

/-- Two steps succeed when both of them do. -/
theorem bind_eq_ok_iff {x : Except ε α} {f : α → Except ε β} {b : β} :
    (x >>= f) = .ok b ↔ ∃ a, x = .ok a ∧ f a = .ok b := by
  cases x with
  | error e => simp [bind, Except.bind]
  | ok a => simp [bind, Except.bind]

/-- Two steps fail if the first one does, or the second one behind it. -/
theorem bind_eq_error_iff {x : Except ε α} {f : α → Except ε β} {e : ε} :
    (x >>= f) = .error e ↔ x = .error e ∨ ∃ a, x = .ok a ∧ f a = .error e := by
  cases x with
  | error e' => simp [bind, Except.bind]
  | ok a => simp [bind, Except.bind]

/-- A mapped result is the image of a result. -/
theorem map_eq_ok_iff {x : Except ε α} {f : α → β} {b : β} :
    x.map f = .ok b ↔ ∃ a, x = .ok a ∧ f a = b := by
  cases x with
  | error e => simp [Except.map]
  | ok a => simp [Except.map]

/-- Mapping a result leaves its failures. -/
theorem map_eq_error_iff {x : Except ε α} {f : α → β} {e : ε} :
    x.map f = .error e ↔ x = .error e := by
  cases x with
  | error e => simp [Except.map]
  | ok a => simp [Except.map]

/-- A mapped failure is the image of a failure. -/
theorem mapError_eq_error_iff {ε' : Type} {x : Except ε α} {f : ε → ε'} {e' : ε'} :
    x.mapError f = .error e' ↔ ∃ e, x = .error e ∧ f e = e' := by
  cases x with
  | error e => simp [Except.mapError]
  | ok a => simp [Except.mapError]

theorem foldlM_nil_eq_ok_iff {f : β → α → Except ε β} {b b' : β} :
    [].foldlM f b = .ok b' ↔ b = b' := by
  simp [pure, Except.pure]

/-- A loop succeeds when its first step does and the loop from there. -/
theorem foldlM_cons_eq_ok_iff {f : β → α → Except ε β} {x : α} {xs : List α} {b b' : β} :
    (x :: xs).foldlM f b = .ok b' ↔ ∃ m, f b x = .ok m ∧ xs.foldlM f m = .ok b' := by
  rw [List.foldlM_cons, bind_eq_ok_iff]

/-- A loop fails in one of its steps. -/
theorem exists_of_foldlM_eq_error {f : β → α → Except ε β} {xs : List α} {b : β} {e : ε}
    (h : xs.foldlM f b = .error e) : ∃ m, ∃ x ∈ xs, f m x = .error e := by
  induction xs generalizing b with
  | nil => exact absurd h (by simp [pure, Except.pure])
  | cons x xs ih =>
    rw [List.foldlM_cons] at h
    rcases bind_eq_error_iff.mp h with hx | ⟨m, -, hxs⟩
    · exact ⟨b, x, List.mem_cons_self, hx⟩
    · obtain ⟨m', y, hy, he⟩ := ih hxs
      exact ⟨m', y, List.mem_cons_of_mem x hy, he⟩

/-- A computation for every item of a list succeeds if each of them does. -/
theorem mapM_eq_ok_iff {f : α → Except ε β} {xs : List α} {ys : List β} :
    xs.mapM f = .ok ys ↔ List.Forall₂ (fun x y => f x = .ok y) xs ys := by
  induction xs generalizing ys with
  | nil => cases ys <;> simp [pure, Except.pure]
  | cons x xs ih =>
    rw [List.mapM_cons, bind_eq_ok_iff]
    constructor
    · rintro ⟨y, hy, hys⟩
      obtain ⟨l, hl, hret⟩ := bind_eq_ok_iff.mp hys
      obtain rfl := Except.ok.inj hret
      exact .cons hy (ih.mp hl)
    · intro h
      cases h with
      | cons hy hys => exact ⟨_, hy, bind_eq_ok_iff.mpr ⟨_, ih.mpr hys, rfl⟩⟩

/-- All steps succeed just when each of them does, with these results. -/
theorem mapM_eq_ok_iff_map {f : α → Except ε β} {xs : List α} {ys : List β} :
    xs.mapM f = .ok ys ↔ xs.map f = ys.map .ok := by
  rw [mapM_eq_ok_iff, ← List.forall₂_eq_eq_eq, List.forall₂_map_left_iff,
    List.forall₂_map_right_iff]

/-- Results can be taken together if each of them is one. -/
theorem mapM_id_eq_ok_iff {xs : List (Except ε α)} {ys : List α} :
    xs.mapM id = .ok ys ↔ xs = ys.map .ok := by
  rw [mapM_eq_ok_iff_map, List.map_id]

/-- What is computed for the items is computed for one of them. -/
theorem exists_of_mem_mapM {f : α → Except ε β} {xs : List α} {ys : List β} {y : β}
    (h : xs.mapM f = .ok ys) (hy : y ∈ ys) : ∃ x ∈ xs, f x = .ok y := by
  have hmem : Except.ok y ∈ xs.map f := mapM_eq_ok_iff_map.mp h ▸ List.mem_map_of_mem hy
  exact List.mem_map.mp hmem

/-- Something is computed for each of the items. -/
theorem exists_of_mapM {f : α → Except ε β} {xs : List α} {ys : List β} {x : α}
    (h : xs.mapM f = .ok ys) (hx : x ∈ xs) : ∃ y, f x = .ok y := by
  have hmem : f x ∈ ys.map Except.ok := mapM_eq_ok_iff_map.mp h ▸ List.mem_map_of_mem hx
  obtain ⟨y, -, hy⟩ := List.mem_map.mp hmem
  exact ⟨y, hy.symm⟩

/-- If each step succeeds, all do. -/
theorem exists_mapM_eq_ok {f : α → Except ε β} {xs : List α}
    (h : ∀ x ∈ xs, ∃ y, f x = .ok y) : ∃ ys, xs.mapM f = .ok ys := by
  induction xs with
  | nil => exact ⟨[], rfl⟩
  | cons x xs ih =>
    obtain ⟨⟨y, hy⟩, hxs⟩ := List.forall_mem_cons.mp h
    obtain ⟨ys, hys⟩ := ih hxs
    exact ⟨y :: ys, mapM_eq_ok_iff.mpr (.cons hy (mapM_eq_ok_iff.mp hys))⟩

end DeclarationDocs
