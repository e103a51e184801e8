import Mathlib.Data.List.Nodup

namespace DeclarationDocs

/-!
# Members by their keys

A table is a list of members, each of which has a key.  Two things happen to it: a key that is not
there is added at the end, and the value of a key that is there is replaced.

* `DistinctKeys` — a list of members in which no key occurs twice;
* `DistinctKeys.concat`, `distinctKeys_replaced` — both changes keep it so;
* `lookup_replaced` — what is found after a replacement.
-/

variable {α : Type} {ms : List (String × α)} {k k' : String} {v : α}

/-- No key occurs twice. -/
def DistinctKeys (ms : List (String × α)) : Prop := (ms.map Prod.fst).Nodup

theorem distinctKeys_nil : DistinctKeys ([] : List (String × α)) := List.nodup_nil

/-- A key is looked up in vain just when it is none of the keys. -/
theorem lookup_eq_none_iff_notMem_keys : ms.lookup k = none ↔ k ∉ ms.map Prod.fst := by
  rw [List.lookup_eq_none_iff]
  constructor
  · rintro h hmem
    obtain ⟨m, hm, rfl⟩ := List.mem_map.mp hmem
    simpa using h m hm
  · rintro h m hm
    simp only [bne_iff_ne, ne_eq]
    rintro rfl
    exact h (List.mem_map_of_mem hm)

/-- Another key in front makes no difference. -/
theorem lookup_cons_of_ne (h : k' ≠ k) : ((k, v) :: ms).lookup k' = ms.lookup k' := by
  have hne : (k' == k) = false := by simpa using h
  rw [List.lookup_cons, hne]

/-- What is looked up is there. -/
theorem mem_of_lookup (h : ms.lookup k = some v) : (k, v) ∈ ms := by
  obtain ⟨before, after, rfl, -⟩ := List.lookup_eq_some_iff.mp h
  simp

/-- A key that is not there can be added. -/
theorem DistinctKeys.concat (h : DistinctKeys ms) (hk : ms.lookup k = none) (v : α) :
    DistinctKeys (ms ++ [(k, v)]) := by
  have hnew := lookup_eq_none_iff_notMem_keys.mp hk
  unfold DistinctKeys
  rw [List.map_append, List.map_singleton]
  refine List.nodup_append.mpr ⟨h, List.nodup_singleton k, ?_⟩
  rintro a ha b hb rfl
  obtain rfl := List.mem_singleton.mp hb
  exact hnew ha

/-- A key that is not there can be added in front. -/
theorem DistinctKeys.cons (h : DistinctKeys ms) (hk : ms.lookup k = none) (v : α) :
    DistinctKeys ((k, v) :: ms) :=
  List.nodup_cons.mpr ⟨lookup_eq_none_iff_notMem_keys.mp hk, h⟩

/-- Replacing a value changes no key. -/
theorem keys_replaced (ms : List (String × α)) (k : String) (v : α) :
    (ms.map fun m => if m.1 == k then (k, v) else m).map Prod.fst = ms.map Prod.fst := by
  rw [List.map_map]
  refine List.map_congr_left fun m _ => ?_
  by_cases hm : m.1 = k
  · simp [hm]
  · simp [hm]

/-- Replacing the value of a key keeps the keys distinct. -/
theorem distinctKeys_replaced (h : DistinctKeys ms) (k : String) (v : α) :
    DistinctKeys (ms.map fun m => if m.1 == k then (k, v) else m) := by
  unfold DistinctKeys
  rw [keys_replaced]
  exact h

/-- After a replacement the new value is found, and every other key has what it had. -/
theorem lookup_replaced (ms : List (String × α)) (k k' : String) (v : α) :
    (ms.map fun m => if m.1 == k then (k, v) else m).lookup k' =
      if k' = k then (ms.lookup k').map fun _ => v else ms.lookup k' := by
  induction ms with
  | nil => simp
  | cons m ms ih =>
    obtain ⟨j, w⟩ := m
    by_cases hj : j = k
    · subst hj
      rw [List.map_cons, if_pos (beq_self_eq_true j)]
      by_cases hk : k' = j
      · subst hk
        rw [List.lookup_cons_self, List.lookup_cons_self, if_pos rfl, Option.map_some]
      · rw [lookup_cons_of_ne hk, lookup_cons_of_ne hk, ih]
    · have hjk : ¬ ((j, w).1 == k) = true := by simpa using hj
      rw [List.map_cons, if_neg hjk]
      by_cases hk : k' = j
      · subst hk
        rw [List.lookup_cons_self, List.lookup_cons_self, if_neg hj]
      · rw [lookup_cons_of_ne hk, lookup_cons_of_ne hk, ih]

/-- The first answer of what is made of items is an answer made of one of them. -/
theorem findSome?_filterMap {β γ : Type} (f : α → Option β) (g : β → Option γ) (xs : List α) :
    (xs.filterMap f).findSome? g = xs.findSome? fun x => (f x).bind g := by
  induction xs with
  | nil => rfl
  | cons x xs ih =>
    rw [List.findSome?_cons, ← ih]
    cases hx : f x with
    | none => rw [List.filterMap_cons_none hx]; rfl
    | some y => rw [List.filterMap_cons_some hx, List.findSome?_cons]; rfl

/-- What is listed by key is found by key. -/
theorem lookup_map_keys (ks : List String) (f : String → α) (k : String) :
    (ks.map fun k => (k, f k)).lookup k = if k ∈ ks then some (f k) else none := by
  induction ks with
  | nil => rfl
  | cons j ks ih =>
    rw [List.map_cons]
    by_cases hk : k = j
    · subst hk
      rw [List.lookup_cons_self, if_pos List.mem_cons_self]
    · rw [lookup_cons_of_ne hk, ih]
      simp only [List.mem_cons, hk, false_or]

end DeclarationDocs
