import DeclarationDocs.Proofs.Shape.Reading

namespace DeclarationDocs.Shape

open Json (lexemes)

/-!
# What is found fits the shape

A reader looks for a shape, and whatever it finds has that shape: text where text is wanted, a
number that is small enough, and for a record one value for each of its fields.  A field that is
not written has its default, which has to fit as well.

* `Fits s d` — the datum `d` has the shape `s`;
* `Settled s` — the records in a shape have one name for each field, and defaults that fit;
* `Spells.fits` — whatever is spelt fits.
-/

/-- What has a shape. -/
inductive Fits : Shape → Datum → Prop
  | text {k : String} : Fits .text (.text k)
  | path {k : String} : Fits .path (.text k)
  | natural {bits m : Nat} (hm : m < Nat.pow 2 bits) : Fits (.natural bits) (.natural m)
  | absent {s : Shape} : Fits (.optional s) .absent
  | present {s : Shape} {d : Datum} (h : Fits s d) : Fits (.optional s) (.present d)
  | list {s : Shape} {ds : List Datum} (h : ∀ d ∈ ds, Fits s d) : Fits (.list s) (.list ds)
  | record {name : String} {fs : List Field} {ds : List Datum}
      (h : List.Forall₂ (fun f d => Fits f.2.1 d) fs ds) : Fits (.record name fs) (.record ds)

/-- The fields of each record in a shape have names of their own and defaults that fit. -/
inductive Settled : Shape → Prop
  | text : Settled .text
  | path : Settled .path
  | natural {bits : Nat} : Settled (.natural bits)
  | optional {s : Shape} (h : Settled s) : Settled (.optional s)
  | list {s : Shape} (h : Settled s) : Settled (.list s)
  | record {name : String} {fs : List Field} (h : ∀ f ∈ fs, Settled f.2.1)
      (hnames : (fs.map Prod.fst).Nodup)
      (hdefaults : ∀ f ∈ fs, ∀ d, f.2.2 = some d → Fits f.2.1 d) : Settled (.record name fs)

/-- Every member that was found fits its field. -/
def MembersFit (fs : List Field) (ms : List (String × Datum)) : Prop :=
  ∀ f ∈ fs, ∀ d, ms.lookup f.1 = some d → Fits f.2.1 d

/-- What is found in a part fits what the part is about. -/
def Part.Fits : Part → Prop
  | .value s d => s.Settled → Shape.Fits s d
  | .items _ s ds => s.Settled → ∀ d ∈ ds, Shape.Fits s d
  | .fields _ fs ds => (∀ f ∈ fs, f.2.1.Settled) → ds.length ≤ fs.length ∧
      List.Forall₂ (fun f d => Shape.Fits f.2.1 d) (fs.take ds.length) ds
  | .members _ fs found all => (∀ f ∈ fs, f.2.1.Settled) → (fs.map Prod.fst).Nodup →
      MembersFit fs found → MembersFit fs all

variable {s : Shape} {d : Datum} {ds : List Datum} {fs gs : List Field} {f : Field} {k : String}
  {found all : List (String × Datum)} {n : Nat} {p : Part} {ls : List (List Char)}
  {Other : Nat → List (List Char) → Prop}

/-- The one field of a name is the one that is found by it. -/
theorem find?_name (hnames : (fs.map Prod.fst).Nodup) (hf : f ∈ fs) (hk : f.1 = k) :
    fs.find? (·.1 == k) = some f := by
  induction fs with
  | nil => cases hf
  | cons g fs ih =>
    rw [List.map_cons, List.nodup_cons] at hnames
    rw [List.find?_cons]
    rcases List.mem_cons.mp hf with rfl | hf
    · simp [hk]
    · have hne : (g.1 == k) = false := by
        rw [beq_eq_false_iff_ne]
        rintro heq
        exact hnames.1 (List.mem_map.mpr ⟨f, hf, hk.trans heq.symm⟩)
      rw [hne]
      exact ih hnames.2 hf

theorem membersFit_nil (fs : List Field) : MembersFit fs [] := fun f _ d hd => by simp at hd

theorem MembersFit.cons (h : MembersFit fs found) (hnames : (fs.map Prod.fst).Nodup)
    (hf : fs.find? (·.1 == k) = some f) (hd : Fits f.2.1 d) : MembersFit fs ((k, d) :: found) := by
  intro g hg e he
  rw [List.lookup_cons] at he
  split at he
  · rename_i hk
    obtain rfl : d = e := by simpa using he
    rw [find?_name hnames hg (beq_iff_eq.mp hk)] at hf
    obtain rfl : g = f := by simpa using hf
    exact hd
  · exact h g hg e he

/-- A field that no member mentions has a default that fits. -/
theorem fits_whenMissing (h : f.whenMissing = .ok d)
    (hdefault : ∀ d, f.2.2 = some d → Fits f.2.1 d) : Fits f.2.1 d := by
  unfold Field.whenMissing at h
  split at h
  · rename_i e heq
    obtain rfl : e = d := by simpa using h
    exact hdefault e heq
  · rename_i heq
    obtain rfl : Datum.absent = d := by simpa using h
    rw [heq]
    exact .absent
  · cases h

/-- The fields of a record are gathered one by one. -/
theorem gather_cons_eq_ok_iff : gather all (f :: fs) = .ok ds
    ↔ ∃ d ds', (all.lookup f.1 = some d ∨ all.lookup f.1 = none ∧ f.whenMissing = .ok d)
      ∧ gather all fs = .ok ds' ∧ d :: ds' = ds := by
  rw [gather]
  cases hfound : all.lookup f.1 with
  | none => simp [bind_eq_ok_iff]
  | some d => simp [bind_eq_ok_iff]

theorem fits_gather (h : gather all gs = .ok ds) (hall : MembersFit gs all)
    (hdefaults : ∀ f ∈ gs, ∀ d, f.2.2 = some d → Fits f.2.1 d) :
    List.Forall₂ (fun f d => Fits f.2.1 d) gs ds := by
  induction gs generalizing ds with
  | nil =>
    obtain rfl : [] = ds := by simpa [gather] using h
    exact .nil
  | cons f gs ih =>
    obtain ⟨hdefault, hdefaults⟩ := List.forall_mem_cons.mp hdefaults
    obtain ⟨hfound, hall⟩ := List.forall_mem_cons.mp hall
    obtain ⟨d, ds', hd, hds, rfl⟩ := gather_cons_eq_ok_iff.mp h
    refine .cons ?_ (ih hds hall hdefaults)
    rcases hd with hd | ⟨-, hd⟩
    · exact hfound d hd
    · exact fits_whenMissing hd hdefault

/-- What an array leaves out has defaults that fit. -/
theorem fits_defaults {name : String} (h : defaults name fs n = .ok ds)
    (hdefaults : ∀ f ∈ fs, ∀ d, f.2.2 = some d → Fits f.2.1 d) :
    List.Forall₂ (fun f d => Fits f.2.1 d) (fs.drop n) ds := by
  have hfst : ((fs.drop n).zipIdx).map Prod.fst = fs.drop n := List.zipIdx_map_fst _ _
  have hmem : ∀ x ∈ (fs.drop n).zipIdx, x.1 ∈ fs := by
    intro x hx
    refine List.mem_of_mem_drop (i := n) ?_
    rw [← hfst]
    exact List.mem_map_of_mem hx
  have hpairs := (List.forall₂_and_left _ _).mpr ⟨hmem, mapM_eq_ok_iff.mp h⟩
  rw [← hfst, List.forall₂_map_left_iff]
  refine hpairs.imp ?_
  rintro ⟨f, i⟩ d ⟨hf, hd⟩
  simp only at hd
  split at hd
  · rename_i e heq
    obtain rfl : e = d := by simpa using hd
    exact hdefaults f hf e heq
  · cases hd

/-- **Whatever is spelt fits.** -/
theorem Spells.fits (h : Spells Other n p ls) : p.Fits := by
  induction h with
  | text _ => exact fun _ => .text
  | path _ => exact fun _ => .path
  | natural _ hm => exact fun _ => .natural hm
  | absent => exact fun _ => .absent
  | present _ ih =>
    intro hs
    cases hs with
    | optional hs => exact .present (ih hs)
  | list _ _ ih =>
    intro hs
    cases hs with
    | list hs => exact .list (ih hs)
  | @array _ _ fs ds more _ _ _ hmore ih =>
    intro hs
    cases hs with
    | record hfs _ hdefaults =>
      -- the fields that were read, then those that were left out
      obtain ⟨-, hread⟩ := ih hfs
      have hall : List.Forall₂ (fun f d => Shape.Fits f.2.1 d)
          (fs.take ds.length ++ fs.drop ds.length) (ds ++ more) :=
        List.rel_append hread (fits_defaults hmore hdefaults)
      rw [List.take_append_drop] at hall
      exact .record hall
  | object _ _ hall ih =>
    intro hs
    cases hs with
    | record hfs hnames hdefaults =>
      exact .record (fits_gather hall (ih hfs hnames (membersFit_nil _)) hdefaults)
  | noItem => exact fun _ _ hd => by simp at hd
  | item _ _ ihd ihds => exact fun hs => List.forall_mem_cons.mpr ⟨ihd hs, ihds hs⟩
  | noField => exact fun _ => ⟨Nat.zero_le _, by simp⟩
  | field _ _ ihd ihds =>
    intro hfs
    obtain ⟨hf, hfs⟩ := List.forall_mem_cons.mp hfs
    obtain ⟨hlength, hds⟩ := ihds hfs
    exact ⟨Nat.succ_le_succ hlength, .cons (ihd hf) hds⟩
  | noMember => exact fun _ _ hfound => hfound
  | known _ hf _ _ _ ihd ihms =>
    intro hfs hnames hfound
    exact ihms hfs hnames (hfound.cons hnames hf (ihd (hfs _ (List.mem_of_find?_eq_some hf))))
  | unknown _ _ _ _ ihms => exact ihms

end DeclarationDocs.Shape
