import Mathlib.Data.List.Pairwise
import Mathlib.Data.List.Nodup
import Mathlib.Data.Nat.Find
import Mathlib.Order.Lattice

namespace DeclarationDocs.SourceScan

/-!
# The order of what is collected

Sorted lists are collected one after the other, and what is there already is not taken again.  So
everything stands where it is found first, and in order among what is found there.

* `insertNew`, `foldl_insertNew` — taking what is new;
* `FirstMatch entries i b`, `Before entries a b` — the entry that `b` matches first, and the order
  that follows from it;
* `Collected` — what holds after some of the entries; `Collected.step` — what one more entry
  preserves, and `Collected.run` — what all of them do.
-/

variable {α β : Type} {M : α → β → Prop} {E : β → Prop} {entries done : List α} {xs ys : List β}
  {a b : β} {i : Nat}

/-! ### Taking what is new -/

section

variable [DecidableEq β]

/-- Add an element behind others unless it is among them. -/
def insertNew (xs : List β) (a : β) : List β := if a ∈ xs then xs else xs ++ [a]

/-- What is taken from a list are its elements that are new, each once and in order. -/
theorem foldl_insertNew (xs ys : List β) :
    ∃ new, ys.foldl insertNew xs = xs ++ new ∧ new.Sublist ys ∧ new.Nodup ∧
      ∀ a, a ∈ new ↔ a ∈ ys ∧ a ∉ xs := by
  induction ys generalizing xs with
  | nil => exact ⟨[], by simp, by simp, by simp, by simp⟩
  | cons y ys ih =>
    rw [List.foldl_cons, insertNew]
    by_cases hy : y ∈ xs
    · rw [if_pos hy]
      obtain ⟨new, heq, hsub, hnodup, hmem⟩ := ih xs
      refine ⟨new, heq, hsub.cons y, hnodup, fun a => ?_⟩
      rw [hmem, List.mem_cons]
      constructor
      · rintro ⟨ha, hxs⟩
        exact ⟨.inr ha, hxs⟩
      · rintro ⟨rfl | ha, hxs⟩
        · exact absurd hy hxs
        · exact ⟨ha, hxs⟩
    · rw [if_neg hy]
      obtain ⟨new, heq, hsub, hnodup, hmem⟩ := ih (xs ++ [y])
      refine ⟨y :: new, by rw [heq, List.append_assoc, List.singleton_append], hsub.cons_cons y,
        List.nodup_cons.mpr ⟨fun hnew => ?_, hnodup⟩, fun a => ?_⟩
      · exact ((hmem y).mp hnew).2 (by simp)
      · rw [List.mem_cons, List.mem_cons, hmem, List.mem_append, List.mem_singleton]
        constructor
        · rintro (rfl | ⟨ha, hxs⟩)
          · exact ⟨.inl rfl, hy⟩
          · exact ⟨.inr ha, fun h => hxs (.inl h)⟩
        · rintro ⟨rfl | ha, hxs⟩
          · exact .inl rfl
          · by_cases hay : a = y
            · exact .inl hay
            · exact .inr ⟨ha, fun h => h.elim hxs hay⟩

end

/-! ### The first entry that matches -/

/-- The entry with the index `i` is the first that `b` matches. -/
def FirstMatch (M : α → β → Prop) (entries : List α) (i : Nat) (b : β) : Prop :=
  (∃ e, entries[i]? = some e ∧ M e b) ∧ ∀ j < i, ∀ e, entries[j]? = some e → ¬ M e b

/-- What some entry matches has a first entry that matches it. -/
theorem exists_firstMatch (h : ∃ e ∈ entries, M e b) :
    ∃ i, i < entries.length ∧ FirstMatch M entries i b := by
  classical
  have hindex : ∃ i : Nat, ∃ e, entries[i]? = some e ∧ M e b := by
    obtain ⟨e, he, hb⟩ := h
    obtain ⟨i, hi⟩ := List.getElem?_of_mem he
    exact ⟨i, e, hi, hb⟩
  obtain ⟨e, he, hb⟩ := Nat.find_spec hindex
  refine ⟨Nat.find hindex, (List.getElem?_eq_some_iff.mp he).1, ⟨e, he, hb⟩, fun j hj e he hb => ?_⟩
  exact Nat.find_min hindex hj ⟨e, he, hb⟩

/-- There is only one first entry. -/
theorem FirstMatch.unique {j : Nat} (h : FirstMatch M entries i b)
    (h' : FirstMatch M entries j b) : i = j := by
  obtain ⟨⟨e, he, hb⟩, hmin⟩ := h
  obtain ⟨⟨e', he', hb'⟩, hmin'⟩ := h'
  rcases Nat.lt_trichotomy i j with hij | hij | hij
  · exact absurd hb (hmin' i hij e he)
  · exact hij
  · exact absurd hb' (hmin j hij e' he')

/-- More entries do not change which one is matched first. -/
theorem FirstMatch.append (h : FirstMatch M entries i b) (more : List α) :
    FirstMatch M (entries ++ more) i b := by
  obtain ⟨⟨e, he, hb⟩, hmin⟩ := h
  have hi : i < entries.length := (List.getElem?_eq_some_iff.mp he).1
  refine ⟨⟨e, by rw [List.getElem?_append_left hi, he], hb⟩, fun j hj e' he' => ?_⟩
  rw [List.getElem?_append_left (Nat.lt_trans hj hi)] at he'
  exact hmin j hj e' he'

/-- What matches none of the entries matches the next one first. -/
theorem firstMatch_length {e : α} (hnone : ∀ e ∈ entries, ¬ M e b) (hb : M e b) :
    FirstMatch M (entries ++ [e]) entries.length b := by
  refine ⟨⟨e, by simp, hb⟩, fun j hj e' he' => ?_⟩
  rw [List.getElem?_append_left hj] at he'
  exact hnone e' (List.mem_of_getElem? he')

variable [LinearOrder β]

/-- `a` matches an earlier entry first than `b` does, or the same one and is smaller. -/
def Before (M : α → β → Prop) (entries : List α) (a b : β) : Prop :=
  ∃ i j, FirstMatch M entries i a ∧ FirstMatch M entries j b ∧ (i < j ∨ i = j ∧ a < b)

/-- Further entries do not change the order of what earlier ones match. -/
theorem Before.append (h : Before M entries a b) (more : List α) :
    Before M (entries ++ more) a b := by
  obtain ⟨i, j, hi, hj, hij⟩ := h
  exact ⟨i, j, hi.append more, hj.append more, hij⟩

/-- Nothing stands before itself. -/
theorem Before.irrefl (a : β) : ¬ Before M entries a a := by
  rintro ⟨i, j, hi, hj, hij | ⟨-, haa⟩⟩
  · exact Nat.lt_irrefl i (hi.unique hj ▸ hij)
  · exact lt_irrefl a haa

/-! ### Collecting -/

/-- What holds of the elements collected from some entries: they are those that match one of
    the entries and count, in the order of their first entries. -/
structure Collected (M : α → β → Prop) (E : β → Prop) (entries : List α) (xs : List β) : Prop where
  mem_iff : ∀ a, a ∈ xs ↔ (∃ e ∈ entries, M e a) ∧ E a
  ordered : xs.Pairwise (Before M entries)

/-- What an entry contributes: in order, what matches it and counts. -/
structure Contributes (M : α → β → Prop) (E : β → Prop) (e : α) (ys : List β) : Prop where
  mem_iff : ∀ a, a ∈ ys ↔ M e a ∧ E a
  sorted : ys.Pairwise (· ≤ ·)

theorem Collected.nil : Collected M E ([] : List α) [] := ⟨by simp, .nil⟩

/-- Everything is collected once. -/
theorem Collected.nodup (h : Collected M E entries xs) : xs.Nodup :=
  h.ordered.imp fun hab => by
    rintro rfl
    exact Before.irrefl _ hab

variable [DecidableEq β]

/-- **One entry.**  What is new matches no earlier entry, so that it belongs behind the rest. -/
theorem Collected.step {e : α} (h : Collected M E done xs) (hys : Contributes M E e ys) :
    Collected M E (done ++ [e]) (ys.foldl insertNew xs) := by
  obtain ⟨new, heq, hsub, hnodup, hmem⟩ := foldl_insertNew xs ys
  rw [heq]
  -- had an earlier entry matched it, it would have been collected
  have hfirst : ∀ a ∈ new, FirstMatch M (done ++ [e]) done.length a := by
    intro a ha
    obtain ⟨hya, hxa⟩ := (hmem a).mp ha
    obtain ⟨hea, hE⟩ := (hys.mem_iff a).mp hya
    exact firstMatch_length (fun e' he' hM => hxa ((h.mem_iff a).mpr ⟨⟨e', he', hM⟩, hE⟩)) hea
  constructor
  · intro a
    rw [List.mem_append, hmem, h.mem_iff, hys.mem_iff]
    simp only [List.mem_append, List.mem_singleton]
    constructor
    · rintro (⟨⟨e', he', hM⟩, hE⟩ | ⟨⟨hM, hE⟩, -⟩)
      · exact ⟨⟨e', .inl he', hM⟩, hE⟩
      · exact ⟨⟨e, .inr rfl, hM⟩, hE⟩
    · rintro ⟨⟨e', he' | rfl, hM⟩, hE⟩
      · exact .inl ⟨⟨e', he', hM⟩, hE⟩
      · by_cases hearlier : ∃ e'' ∈ done, M e'' a
        · exact .inl ⟨hearlier, hE⟩
        · exact .inr ⟨⟨hM, hE⟩, fun hxa => hearlier hxa.1⟩
  · refine List.pairwise_append.mpr ⟨h.ordered.imp fun hab => hab.append [e], ?_, ?_⟩
    · have hlt : new.Pairwise (· < ·) :=
        ((hys.sorted.sublist hsub).and hnodup).imp fun ⟨hle, hne⟩ => lt_of_le_of_ne hle hne
      refine hlt.imp_of_mem fun ha hb hab => ?_
      exact ⟨_, _, hfirst _ ha, hfirst _ hb, .inr ⟨rfl, hab⟩⟩
    · intro a ha b hb
      -- the old ones match an entry before `e` first, and the new ones match `e` first
      obtain ⟨i, hi, hai⟩ := exists_firstMatch ((h.mem_iff a).mp ha).1
      exact ⟨i, _, hai.append [e], hfirst b hb, .inl hi⟩

/-- **All entries.**  Collecting what the entries contribute, one after the other. -/
theorem Collected.run {lists : List (List β)} (h : Collected M E done xs)
    (hlists : List.Forall₂ (Contributes M E) entries lists) :
    Collected M E (done ++ entries) (lists.flatten.foldl insertNew xs) := by
  induction hlists generalizing done xs with
  | nil => simpa using h
  | @cons e ys entries lists hys _ ih =>
    rw [List.flatten_cons, List.foldl_append, List.append_cons]
    exact ih (h.step hys)

end DeclarationDocs.SourceScan
