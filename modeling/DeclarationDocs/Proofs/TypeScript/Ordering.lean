import DeclarationDocs.Proofs.TypeScript.Slicing

namespace DeclarationDocs.TypeScript

/-!
# The order of declarations

The declarations of a source are grouped by kind, and that is all that is done to them: within a
kind they stand in the order of the text, and each statement contributes its own declarations,
each once, in the order in which they are written.

* `Laid.pairwise_order` — by kind, then by line and by statement;
* `Laid.filter_placed` — what a statement contributes;
* `declarations_ordered` — the order of the declarations of a source.
-/

variable {s : List Char} {start : Nat} {a b : Site} {sites : List Site}

/-! ### Statements -/

/-- Statements further down stand on lines further down. -/
theorem Site.In.line_le (ha : a.In s) (hb : b.In s) (h : a.start ≤ b.start) :
    a.statement.line ≤ b.statement.line := by
  rw [ha.line, hb.line]
  have hcount := (List.take_prefix_take_left (l := s) h).sublist.count_le '\n'
  exact Nat.add_le_add_left hcount 1

/-- What is found in a statement is all of one kind. -/
theorem Orderly.exists_kind {found : List Finding} (h : Orderly found) :
    ∃ k, ∀ f ∈ found, f.kind = k := by
  cases found with
  | nil => exact ⟨.classDecl, by simp⟩
  | cons f fs =>
    refine ⟨f.kind, List.forall_mem_cons.mpr ⟨rfl, fun f' hf' => ?_⟩⟩
    obtain ⟨hf, hf'⟩ := (List.pairwise_cons.mp h.several).1 f' hf'
    rw [hf, hf']

/-- The names of a statement's declarations stand in it in their order. -/
theorem Site.In.inOrder (h : a.In s) :
    InOrder (a.statement.declarations.map fun x => x.name.toList) a.statement.text := by
  have hnames := h.holds.inOrder
  simpa [Statement.declarations, Function.comp_def] using hnames

/-! ### All declarations -/

/-- **Order.**  Declarations stand in the order of their kinds, and those of one kind in the order
    of their statements and lines. -/
theorem Laid.pairwise_order (h : Laid s start sites) : (placed sites).Pairwise fun p q =>
    p.2.kind.rank < q.2.kind.rank ∨
      p.2.kind = q.2.kind ∧ p.2.line ≤ q.2.line ∧ p.1.start ≤ q.1.start := by
  refine pairwise_byKind (List.pairwise_flatMap.mpr ⟨fun a _ => ?_, ?_⟩)
  · refine List.pairwise_map.mpr (List.pairwise_map.mpr (List.pairwise_of_forall fun f f' => ?_))
    exact ⟨Nat.le_refl _, Nat.le_refl _⟩
  · refine h.pairwise.imp_of_mem fun {a b} ha hb hab p hp q hq => ?_
    obtain ⟨x, hx, rfl⟩ := List.mem_map.mp hp
    obtain ⟨y, hy, rfl⟩ := List.mem_map.mp hq
    obtain ⟨f, -, rfl⟩ := List.mem_map.mp hx
    obtain ⟨f', -, rfl⟩ := List.mem_map.mp hy
    -- an earlier statement ends before the later one begins, so it begins earlier as well
    have hstart : a.start ≤ b.start := (Nat.le_add_right _ _).trans hab
    exact ⟨(h.mem ha).2.line_le (h.mem hb).2 hstart, hstart⟩

theorem Site.filter_placed (a : Site) (n : Nat) :
    a.placed.filter (fun p => p.1.start == n) = if a.start = n then a.placed else [] := by
  split
  · rename_i heq
    refine List.filter_eq_self.mpr fun p hp => ?_
    obtain ⟨x, -, rfl⟩ := List.mem_map.mp hp
    simpa using heq
  · rename_i hne
    refine List.filter_eq_nil_iff.mpr fun p hp => ?_
    obtain ⟨x, -, rfl⟩ := List.mem_map.mp hp
    simpa using hne

/-- **What a statement contributes.**  Of all declarations, those that come from one statement are
    its own, in their order. -/
theorem Laid.filter_placed (h : Laid s start sites) (ha : a ∈ sites) :
    ((placed sites).filter fun p => p.1.start == a.start).map Prod.snd =
      a.statement.declarations := by
  have hin : ∀ b ∈ sites, b.In s := fun b hb => (h.mem hb).2
  -- no other statement begins where this one does
  have hflat : (sites.flatMap Site.placed).filter (fun p => p.1.start == a.start) = a.placed := by
    obtain ⟨before, behind, rfl⟩ := List.append_of_mem ha
    obtain ⟨-, hbehind, hbefore⟩ := List.pairwise_append.mp h.pairwise
    have hnone : ∀ bs : List Site, (∀ b ∈ bs, b.Apart a ∧ b.In s) →
        (bs.flatMap Site.placed).filter (fun p => p.1.start == a.start) = [] := by
      intro bs hbs
      rw [List.filter_flatMap]
      refine List.flatMap_eq_nil_iff.mpr fun b hb => ?_
      obtain ⟨hapart, hb⟩ := hbs b hb
      rw [Site.filter_placed, if_neg (hapart.start_ne hb (hin a ha))]
    rw [List.flatMap_append, List.flatMap_cons, List.filter_append, List.filter_append,
      hnone before fun b hb => ⟨.inl (hbefore b hb a List.mem_cons_self), hin b (by simp [hb])⟩,
      hnone behind fun b hb =>
        ⟨.inr ((List.pairwise_cons.mp hbehind).1 b hb), hin b (by simp [hb])⟩,
      Site.filter_placed, if_pos rfl]
    simp
  obtain ⟨k, hk⟩ := (hin a ha).orderly.exists_kind
  have hkind : ∀ p ∈ a.placed, p.2.kind = k := by
    intro p hp
    obtain ⟨x, hx, rfl⟩ := List.mem_map.mp hp
    obtain ⟨f, hf, rfl⟩ := List.mem_map.mp hx
    exact hk f hf
  rw [placed, filter_byKind, hflat, byKind_of_forall hkind]
  simp [Site.placed, Function.comp_def]

/-- **Traversal order.**  The `declarations` of a source stand by the `rank` of their kind, and
    within a kind by line and by the start of their site.  Each statement contributes its own
    declarations, each once and in the order in which their names are written (`InOrder`), and
    there are no others. -/
theorem declarations_ordered (d : Dialect) (source : String) :
    ∃ sites : List Site,
      sites.map Site.statement = statements d source.toList ∧
      (∀ a ∈ sites, a.In source.toList) ∧ sites.Pairwise (fun a b => a.stop ≤ b.start) ∧
      (placed sites).map Prod.snd = declarations d source ∧
      (placed sites).Pairwise (fun p q => p.2.kind.rank < q.2.kind.rank ∨
        p.2.kind = q.2.kind ∧ p.2.line ≤ q.2.line ∧ p.1.start ≤ q.1.start) ∧
      (∀ a ∈ sites,
        ((placed sites).filter fun p => p.1.start == a.start).map Prod.snd =
          a.statement.declarations ∧
        InOrder (a.statement.declarations.map fun x => x.name.toList) a.statement.text) ∧
      (declarations d source).Perm
        ((statements d source.toList).flatMap Statement.declarations) := by
  obtain ⟨sites, hsites, hlaid⟩ := exists_sites_statements d source.toList
  have hin : ∀ a ∈ sites, a.In source.toList := fun a ha => (hlaid.mem ha).2
  exact ⟨sites, hsites, hin, hlaid.pairwise, map_placed hsites, hlaid.pairwise_order,
    fun a ha => ⟨hlaid.filter_placed ha, (hin a ha).inOrder⟩, byKind_perm _ _⟩

example :
    (declarations .tsx "export const a = 1, b = a; class C {}").map Declaration.name =
      ["C", "a", "b"] := by
  decide +kernel

end DeclarationDocs.TypeScript
