import DeclarationDocs.Declaration
import Mathlib.Data.List.Basic
import Mathlib.Data.List.Perm.Basic

namespace DeclarationDocs

/-!
# Grouping by kind

Grouping puts the kinds in their order and touches nothing else: nothing gets lost or comes twice,
and what is of one kind stays in the order in which it was.

* `byKind_perm` — the same things;
* `pairwise_byKind` — by kind, and by the order they had within a kind;
* `map_byKind`, `filter_byKind`, `byKind_of_forall` — grouping commutes with maps and filters, and
  does nothing where there is one kind only.
-/

namespace Declaration.Kind

theorem mem_all (k : Declaration.Kind) : k ∈ all := by cases k <;> decide

theorem nodup_all : all.Nodup := by decide

/-- The kinds are listed by their rank. -/
theorem pairwise_all : all.Pairwise fun k l => k.rank < l.rank := by decide

end Declaration.Kind

variable {α β : Type} {kind : α → Declaration.Kind} {xs : List α} {R : α → α → Prop}

/-- What is sorted out by some kinds is what has one of them.  By induction on the kinds: what has
    the first one is sorted out of the rest. -/
theorem flatMap_filter_perm {ks : List Declaration.Kind} (hks : ks.Nodup)
    (hxs : ∀ x ∈ xs, kind x ∈ ks) :
    (ks.flatMap fun k => xs.filter fun x => kind x == k).Perm xs := by
  induction ks generalizing xs with
  | nil =>
    have hnil : xs = [] := List.eq_nil_iff_forall_not_mem.mpr fun x hx =>
      absurd (hxs x hx) List.not_mem_nil
    rw [hnil]
    exact .nil
  | cons k ks ih =>
    obtain ⟨hk, hks⟩ := List.nodup_cons.mp hks
    have hothers := ih hks fun x (hx : x ∈ xs.filter fun x => !(kind x == k)) => by
      obtain ⟨hx, hne⟩ := List.mem_filter.mp hx
      exact (List.mem_cons.mp (hxs x hx)).resolve_left (by simpa using hne)
    -- the other kinds are not among what has the first one
    have hrest :
        (ks.flatMap fun l => (xs.filter fun x => !(kind x == k)).filter fun x => kind x == l) =
          ks.flatMap fun l => xs.filter fun x => kind x == l := by
      refine List.flatMap_congr fun l hl => ?_
      rw [List.filter_filter]
      refine List.filter_congr fun x _ => ?_
      have hlk : l ≠ k := fun h => hk (h ▸ hl)
      by_cases hx : kind x = l
      · simp [hx, hlk]
      · simp [hx]
    rw [hrest] at hothers
    rw [List.flatMap_cons]
    exact (hothers.append_left _).trans (List.filter_append_perm _ xs)

/-- **Nothing is lost or comes twice.** -/
theorem byKind_perm (kind : α → Declaration.Kind) (xs : List α) : (byKind kind xs).Perm xs :=
  flatMap_filter_perm Declaration.Kind.nodup_all fun x _ => Declaration.Kind.mem_all (kind x)

/-- Nothing gets lost and nothing is added: `x ∈ byKind kind xs ↔ x ∈ xs`. -/
@[simp] theorem mem_byKind {x : α} : x ∈ byKind kind xs ↔ x ∈ xs := (byKind_perm kind xs).mem_iff

/-- **Order.**  Kinds stand in their order; within a kind the order stays. -/
theorem pairwise_byKind (h : xs.Pairwise R) :
    (byKind kind xs).Pairwise fun x y =>
      (kind x).rank < (kind y).rank ∨ kind x = kind y ∧ R x y := by
  refine List.pairwise_flatMap.mpr ⟨fun k _ => ?_, ?_⟩
  · refine (h.filter _).imp_of_mem fun {x y} hx hy hR => .inr ⟨?_, hR⟩
    have hkx : kind x = k := by simpa using (List.mem_filter.mp hx).2
    have hky : kind y = k := by simpa using (List.mem_filter.mp hy).2
    rw [hkx, hky]
  · refine Declaration.Kind.pairwise_all.imp fun {k l} hkl x hx y hy => .inl ?_
    have hkx : kind x = k := by simpa using (List.mem_filter.mp hx).2
    have hly : kind y = l := by simpa using (List.mem_filter.mp hy).2
    rwa [hkx, hly]

/-- Grouping commutes with a map `f` that the kinds are looked up behind. -/
theorem map_byKind (kind : β → Declaration.Kind) (f : α → β) (xs : List α) :
    (byKind (fun x => kind (f x)) xs).map f = byKind kind (xs.map f) := by
  unfold byKind
  rw [List.map_flatMap]
  refine List.flatMap_congr fun k _ => ?_
  rw [List.filter_map]
  rfl

/-- Grouping commutes with filters. -/
theorem filter_byKind (p : α → Bool) (kind : α → Declaration.Kind) (xs : List α) :
    (byKind kind xs).filter p = byKind kind (xs.filter p) := by
  unfold byKind
  rw [List.filter_flatMap]
  refine List.flatMap_congr fun k _ => ?_
  rw [List.filter_filter, List.filter_filter]
  exact List.filter_congr fun x _ => Bool.and_comm ..

/-- Where there is one kind only, grouping changes nothing. -/
theorem byKind_of_forall {k : Declaration.Kind} (h : ∀ x ∈ xs, kind x = k) :
    byKind kind xs = xs := by
  have hpart : ∀ l : Declaration.Kind,
      (xs.filter fun x => kind x == l) = if l = k then xs else [] := by
    intro l
    split
    · rename_i hl
      exact List.filter_eq_self.mpr fun x hx => by simp [h x hx, hl]
    · rename_i hl
      exact List.filter_eq_nil_iff.mpr fun x hx => by simpa [h x hx] using Ne.symm hl
  unfold byKind
  simp only [hpart]
  cases k <;> simp [Declaration.Kind.all]

end DeclarationDocs
