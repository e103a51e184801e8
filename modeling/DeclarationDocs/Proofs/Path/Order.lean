import DeclarationDocs.Path
import Mathlib.Data.Char
import Mathlib.Data.List.Lex

namespace DeclarationDocs.Path

/-!
# The order of paths

Paths are sorted by their components, which are compared one after the other; names are compared
character by character.  Both are lexicographic orders, and so the order is total.

* `nameLt_iff` — names are in the order of `List Char`;
* `componentsLt_iff_lex` — lists of components are in the lexicographic order;
* `le_trans`, `le_total` — what sorting asks for;
* `componentsLt_append_names` — below one path, paths are in the order of the names below it.
-/

variable {p q r : Path}

/-- Names are ordered by their characters, the first that differ deciding. -/
theorem nameLt_iff {a b : List Char} : nameLt a b = true ↔ a < b := by
  induction a generalizing b with
  | nil => cases b <;> simp [nameLt]
  | cons x s ih =>
    cases b with
    | nil => simp [nameLt]
    | cons y t =>
      unfold nameLt
      by_cases h : x = y
      · rw [if_pos h, ih, List.cons_lt_cons_iff]
        simp [h]
      · rw [if_neg h, List.cons_lt_cons_iff, decide_eq_true_iff]
        simp only [h, false_and, or_false]
        exact Iff.rfl

/-- Components compare by kind, and names among each other by name. -/
instance componentLt_strictTotal :
    IsStrictTotalOrder Component (fun a b => componentLt a b = true) where
  trichotomous := by
    intro a b
    cases a <;> cases b <;> simp [componentLt, componentLt.rank, nameLt_iff]
    intro h h'
    exact le_antisymm h' h
  irrefl := by
    intro a
    cases a <;> simp [componentLt, componentLt.rank, nameLt_iff]
  trans := by
    intro a b c
    cases a <;> cases b <;> cases c <;> simp [componentLt, componentLt.rank, nameLt_iff]
    exact lt_trans

/-- Paths are ordered by their components, the first that differ deciding. -/
theorem componentsLt_iff_lex {a b : List Component} :
    componentsLt a b = true ↔ List.Lex (fun x y => componentLt x y = true) a b := by
  induction a generalizing b with
  | nil =>
    cases b with
    | nil => simp [componentsLt]
    | cons y t => simp [componentsLt]
  | cons x s ih =>
    cases b with
    | nil => simp [componentsLt]
    | cons y t =>
      unfold componentsLt
      by_cases h : x = y
      · subst h
        rw [if_pos rfl, ih, List.lex_cons_iff]
      · rw [if_neg h]
        constructor
        · intro hxy
          exact .rel hxy
        · intro hlex
          cases hlex with
          | rel hxy => exact hxy
          | cons _ => exact absurd rfl h

/-- The lexicographic order of a total order is total. -/
instance lex_strictTotal {α : Type} {r : α → α → Prop} [IsStrictTotalOrder α r] :
    IsStrictTotalOrder (List α) (List.Lex r) :=
  { isStrictWeakOrder_of_isOrderConnected with }

/-! ### Sorting -/

/-- A path is at most another one if that is not less. -/
theorem le_iff_not_lex : p.le q = true ↔
    ¬ List.Lex (fun x y => componentLt x y = true) q.components p.components := by
  unfold le
  rw [← componentsLt_iff_lex]
  simp

/-- Of two paths one does not come after the other. -/
theorem le_total (p q : Path) : (p.le q || q.le p) = true := by
  rw [Bool.or_eq_true, le_iff_not_lex, le_iff_not_lex]
  by_contra h
  simp only [not_or, not_not] at h
  exact asymm_of (List.Lex fun x y => componentLt x y = true) h.1 h.2

theorem le_trans (h : p.le q = true) (h' : q.le r = true) : p.le r = true := by
  rw [le_iff_not_lex] at h h' ⊢
  intro hrp
  -- `q` is behind `r`, before `p`, or equal to one of them
  rcases trichotomous_of (List.Lex fun x y => componentLt x y = true) q.components
    p.components with hqp | hqp | hqp
  · exact h hqp
  · exact h' (hqp ▸ hrp)
  · exact h' (trans_of _ hrp hqp)

/-- **Order below a path.**  Below one path, paths come in the order of the names below it. -/
theorem componentsLt_append_names (base : List Component) (x y : List (List Char)) :
    componentsLt (base ++ x.map .name) (base ++ y.map .name) = true ↔ x < y := by
  induction base with
  | cons c r ih => simpa [componentsLt] using ih
  | nil =>
    induction x generalizing y with
    | nil => cases y <;> simp [componentsLt]
    | cons n r ih =>
      cases y with
      | nil => simp [componentsLt]
      | cons m s =>
        rw [List.cons_lt_cons_iff, ← ih s]
        by_cases h : n = m
        · simp [componentsLt, h]
        · simp [componentsLt, h, componentLt, nameLt_iff]

end DeclarationDocs.Path
