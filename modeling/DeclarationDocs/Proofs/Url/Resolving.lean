import DeclarationDocs.Proofs.Path.Segments
import DeclarationDocs.Proofs.Url.Percent
import DeclarationDocs.Url

namespace DeclarationDocs.Url

/-!
# Paths that are read back

The path of a URL has no `.` and `..` left when it was read, and its segments are encoded and hold
no slashes.  Such a path is read back from its text.

* `Resolved segs` — the segments of a path in normal form;
* `resolved_readPath` — every path that is read is in normal form;
* `Resolved.readPath` — a path in normal form is read back.
-/

/-- A segment that stands for no other directory. -/
def IsName (s : List Char) : Prop := isSingleDot s = false ∧ isDoubleDot s = false

/-- The segments of a path in normal form. -/
structure Resolved (segs : List (List Char)) : Prop where
  ne_nil : segs ≠ []
  clean : ∀ s ∈ segs, Clean specialInPath s
  slash : ∀ s ∈ segs, '/' ∉ s
  backslash : ∀ s ∈ segs, '\\' ∉ s
  name : ∀ s ∈ segs, IsName s

variable {s : List Char} {segs done init : List (List Char)}

/-! ### Dot segments -/

theorem isName_nil : IsName [] := ⟨by decide, by decide⟩

/-- Dropping a segment adds none. -/
theorem mem_of_mem_dropSegment (h : s ∈ dropSegment done) : s ∈ done := by
  unfold dropSegment at h
  split at h
  · exact h
  · split at h
    · exact h
    · exact List.mem_cons_of_mem _ h

/-- Resolving segments leaves one. -/
theorem resolve_ne_nil (h : segs ≠ []) : resolve done segs ≠ [] := by
  induction segs generalizing done with
  | nil => exact absurd rfl h
  | cons s r ih =>
    cases r with
    | nil =>
      rw [resolve]
      split
      · simp
      · split <;> simp
    | cons s' r =>
      rw [resolve]
      · split
        · exact ih (by simp)
        · split
          · exact ih (by simp)
          · exact ih (by simp)
      · simp

/-- What is left are names of the path, and empty segments. -/
theorem mem_resolve (hdone : ∀ s ∈ done, s = [] ∨ s ∈ init ∧ IsName s) (hsegs : segs ⊆ init)
    (h : s ∈ resolve done segs) : s = [] ∨ s ∈ init ∧ IsName s := by
  have hdrop : ∀ {done : List (List Char)}, (∀ s ∈ done, s = [] ∨ s ∈ init ∧ IsName s) →
      ∀ s ∈ dropSegment done, s = [] ∨ s ∈ init ∧ IsName s :=
    fun hdone s hs => hdone s (mem_of_mem_dropSegment hs)
  have hcons : ∀ {t : List Char} {done : List (List Char)},
      (∀ s ∈ done, s = [] ∨ s ∈ init ∧ IsName s) → (t = [] ∨ t ∈ init ∧ IsName t) →
      ∀ s ∈ t :: done, s = [] ∨ s ∈ init ∧ IsName s :=
    fun hdone ht => List.forall_mem_cons.mpr ⟨ht, hdone⟩
  have hname : ∀ {t : List Char}, t ∈ init → ¬ isDoubleDot t = true → ¬ isSingleDot t = true →
      t = [] ∨ t ∈ init ∧ IsName t := fun ht hdouble hsingle =>
    .inr ⟨ht, Bool.eq_false_iff.mpr hsingle, Bool.eq_false_iff.mpr hdouble⟩
  fun_induction resolve done segs with
  | case1 done => exact hdone s (List.mem_reverse.mp h)
  | case2 done last _ => exact hcons (hdrop hdone) (.inl rfl) s (List.mem_reverse.mp h)
  | case3 done last _ _ => exact hcons hdone (.inl rfl) s (List.mem_reverse.mp h)
  | case4 done last hdouble hsingle =>
    have hlast := hname (hsegs List.mem_cons_self) hdouble hsingle
    exact hcons hdone hlast s (List.mem_reverse.mp h)
  | case5 done t r _ _ ih => exact ih (hdrop hdone) (List.subset_of_cons_subset hsegs) h
  | case6 done t r _ _ _ ih => exact ih hdone (List.subset_of_cons_subset hsegs) h
  | case7 done t r _ hdouble hsingle ih =>
    have ht := hname (hsegs List.mem_cons_self) hdouble hsingle
    exact ih (hcons hdone ht) (List.subset_of_cons_subset hsegs) h

/-- Names are left alone. -/
theorem resolve_of_isName (h : ∀ s ∈ segs, IsName s) :
    resolve done segs = done.reverse ++ segs := by
  induction segs generalizing done with
  | nil => simp [resolve]
  | cons s r ih =>
    obtain ⟨⟨hsingle, hdouble⟩, hr⟩ := List.forall_mem_cons.mp h
    cases r with
    | nil => simp [resolve, hsingle, hdouble]
    | cons s' r =>
      rw [resolve]
      · simp [hsingle, hdouble, ih hr]
      · simp

/-! ### Paths -/

/-- A path is written with a slash in front of each segment. -/
theorem flatMap_slash (h : segs ≠ []) :
    segs.flatMap ('/' :: ·) = '/' :: Path.joinSegments segs := by
  induction segs with
  | nil => exact absurd rfl h
  | cons s r ih =>
    cases r with
    | nil => simp [Path.joinSegments]
    | cons s' r =>
      rw [List.flatMap_cons, ih (by simp)]
      rfl

/-- **Paths that are read are in normal form.** -/
theorem resolved_readPath (s : List Char) : Resolved (readPath s) := by
  unfold Url.readPath
  simp only
  generalize hslashed : s.map (fun c => if c = '\\' then '/' else c) = slashed
  generalize hbody : (if slashed.head? = some '/' then slashed.drop 1 else slashed) = body
  have hbackslash : '\\' ∉ body := by
    have hnone : '\\' ∉ slashed := by
      rw [← hslashed]
      intro hmem
      obtain ⟨c, -, hc⟩ := List.mem_map.mp hmem
      split at hc
      · exact absurd hc (by decide)
      · rename_i hne
        exact hne hc
    rw [← hbody]
    split
    · exact fun hmem => hnone (List.mem_of_mem_drop hmem)
    · exact hnone
  -- what holds of the encoded segments, and of no segment at all, holds of what is left
  have hall : ∀ P : List Char → Prop, P [] →
      (∀ piece ∈ Text.splitAt '/' body, P (encode specialInPath piece)) →
      ∀ t ∈ resolve [] ((Text.splitAt '/' body).map (encode specialInPath)), P t := by
    intro P hnil hpieces t ht
    rcases mem_resolve (by simp) (List.Subset.refl _) ht with rfl | ⟨hmem, -⟩
    · exact hnil
    · obtain ⟨piece, hpiece, rfl⟩ := List.mem_map.mp hmem
      exact hpieces piece hpiece
  exact
    { ne_nil := resolve_ne_nil (by simpa using Text.splitAt_ne_nil '/' body)
      clean := hall _ (by simp [Clean]) fun piece _ => clean_encode encodes_path piece
      slash := hall _ (by simp) fun piece hpiece =>
        notMem_encode (by decide) (Text.not_mem_of_mem_splitAt hpiece)
      backslash := hall _ (by simp) fun piece hpiece =>
        notMem_encode (by decide) fun hmem => hbackslash (Text.mem_of_mem_splitAt hpiece hmem)
      name := fun t ht => by
        rcases mem_resolve (by simp) (List.Subset.refl _) ht with rfl | ⟨-, hname⟩
        · exact isName_nil
        · exact hname }

theorem backslash_notMem_flatMap (h : ∀ s ∈ segs, '\\' ∉ s) : '\\' ∉ segs.flatMap ('/' :: ·) := by
  intro hmem
  obtain ⟨s, hs, hc⟩ := List.mem_flatMap.mp hmem
  rcases List.mem_cons.mp hc with heq | hc
  · exact absurd heq (by decide)
  · exact h s hs hc

/-- **Paths in normal form are read back.** -/
theorem Resolved.readPath (h : Resolved segs) : readPath (segs.flatMap ('/' :: ·)) = segs := by
  have hslashed : (segs.flatMap ('/' :: ·)).map (fun c => if c = '\\' then '/' else c) =
      segs.flatMap ('/' :: ·) := by
    refine (List.map_congr_left fun c hc => if_neg ?_).trans (List.map_id _)
    rintro rfl
    exact backslash_notMem_flatMap h.backslash hc
  have hclean : segs.map (encode specialInPath) = segs := by
    refine (List.map_congr_left fun s hs => ?_).trans (List.map_id segs)
    exact (h.clean s hs).encode_eq
  rw [Url.readPath, hslashed, flatMap_slash h.ne_nil]
  simp only [List.head?_cons, if_true, List.drop_succ_cons, List.drop_zero]
  rw [Path.splitAt_joinSegments h.ne_nil h.slash, hclean, resolve_of_isName h.name]
  rfl

end DeclarationDocs.Url
