import DeclarationDocs.Project
import DeclarationDocs.Proofs.Shape.Fitting

namespace DeclarationDocs.Project

open Json (lexemes)
open Shape (passedOver)

/-!
# What a project file says

A project file is a record in relaxed JSON, and each of its fields may be left out.  Which texts
are project files, and what is written in them, is said by the grammar of shapes.

* `Written` — what is written in a project file; `Written.file` — what it says, with the defaults;
* `Written.Spelt w ls` — the lexemes `ls` are those of a project file with `w` in it;
* `File.read_eq_ok_iff` — the texts that are read, and what they say.
-/

/-- What is written in a project file.  A source root that is null counts as not written, and so
    does one in options that are not written themselves. -/
structure Written where
  includes : Option (List String)
  excludes : Option (List String)
  rootDir : Option String

/-- What a project file says; a list that is not written is empty. -/
def Written.file (w : Written) : File := ⟨w.includes.getD [], w.excludes.getD [], w.rootDir⟩

/-- The fields of a project file. -/
def fileFields : List Shape.Field :=
  [("include", .list .text, some (.list [])),
   ("exclude", .list .text, some (.list [])),
   ("compilerOptions", compilerOptionsShape, some (.record [.absent]))]

/-- A list of texts, as it is found. -/
def textsOf (ks : List String) : Datum := .list (ks.map .text)

/-- Options with the given source root, as they are found. -/
def optionsOf (dir : Option String) : Datum :=
  .record [dir.elim .absent fun k => .present (.text k)]

/-- The fields of a project file with this written in it. -/
def Written.fields (w : Written) : List Datum :=
  [textsOf (w.includes.getD []), textsOf (w.excludes.getD []), optionsOf w.rootDir]

/-- What was found in the fields of a project file, where it was written. -/
structure Written.Found (w : Written) (includes excludes options : Option Datum) : Prop where
  includes : includes = w.includes.map textsOf
  excludes : excludes = w.excludes.map textsOf
  options : options.getD (optionsOf none) = optionsOf w.rootDir

/-- The lexemes of a project file, which is an object or an array of its first fields. -/
inductive Written.Spelt (w : Written) : List (List Char) → Prop
  | object {all : List (String × Datum)} {ls : List (List Char)}
      (hall : Shape.Spells passedOver (Json.depthLimit - 1) (.members true fileFields [] all) ls)
      (hw : w.Found (all.lookup "include") (all.lookup "exclude") (all.lookup "compilerOptions")) :
      Spelt w (['\x7b'] :: ls)
  | array {ds : List Datum} {ls : List (List Char)}
      (hds : Shape.Spells passedOver (Json.depthLimit - 1) (.fields true fileFields ds) ls)
      (hw : w.Found ds[0]? ds[1]? ds[2]?) : Spelt w (['['] :: ls)

variable {w : Written} {d : Datum} {ds : List Datum} {all : List (String × Datum)}
  {a b c : Option Datum} {f : File} {text : String} {ls : List (List Char)}

/-! ### The shape of a project file -/

theorem plain_fileShape : fileShape.Plain := by
  refine .record (List.forall_mem_cons.mpr ⟨.list .text, List.forall_mem_cons.mpr
    ⟨.list .text, List.forall_mem_singleton.mpr ?_⟩⟩)
  exact .record (List.forall_mem_singleton.mpr (.optional .text (by simp)))

/-- A list of texts is `textsOf` some texts. -/
theorem exists_textsOf (h : (Shape.list .text).Fits d) : ∃ ks, d = textsOf ks := by
  cases h with
  | @list _ ds h =>
    refine ⟨ds.map Datum.asText, congrArg Datum.list ?_⟩
    rw [List.map_map]
    refine (List.map_id ds).symm.trans (List.map_congr_left fun d hd => ?_)
    cases h d hd with
    | text => rfl

/-- Compiler options are `optionsOf` a directory, or of none. -/
theorem exists_optionsOf (h : compilerOptionsShape.Fits d) : ∃ dir, d = optionsOf dir := by
  cases h with
  | record h =>
    obtain ⟨o, os, ho, hos, rfl⟩ := List.forall₂_cons_left_iff.mp h
    obtain rfl := List.forall₂_nil_left_iff.mp hos
    cases ho with
    | absent => exact ⟨none, rfl⟩
    | present ho =>
      cases ho with
      | text => exact ⟨some _, rfl⟩

theorem settled_compilerOptionsShape : compilerOptionsShape.Settled :=
  .record (List.forall_mem_singleton.mpr (.optional .text)) (by decide) (by simp)

theorem settled_of_mem_fileFields : ∀ f ∈ fileFields, f.2.1.Settled :=
  List.forall_mem_cons.mpr ⟨.list .text, List.forall_mem_cons.mpr
    ⟨.list .text, List.forall_mem_singleton.mpr settled_compilerOptionsShape⟩⟩

/-- Whatever fits the fields was written as something. -/
theorem exists_found (ha : ∀ d, a = some d → (Shape.list .text).Fits d)
    (hb : ∀ d, b = some d → (Shape.list .text).Fits d)
    (hc : ∀ d, c = some d → compilerOptionsShape.Fits d) : ∃ w : Written, w.Found a b c := by
  have hlists : ∀ {x : Option Datum}, (∀ d, x = some d → (Shape.list .text).Fits d) →
      ∃ ks : Option (List String), x = ks.map textsOf := by
    intro x hx
    cases x with
    | none => exact ⟨none, rfl⟩
    | some d =>
      obtain ⟨ks, rfl⟩ := exists_textsOf (hx d rfl)
      exact ⟨some ks, rfl⟩
  obtain ⟨is, hi⟩ := hlists ha
  obtain ⟨es, he⟩ := hlists hb
  have hdir : ∃ dir, c.getD (optionsOf none) = optionsOf dir := by
    cases c with
    | none => exact ⟨none, rfl⟩
    | some d => exact exists_optionsOf (hc d rfl)
  obtain ⟨dir, hdir⟩ := hdir
  exact ⟨⟨is, es, dir⟩, hi, he, hdir⟩

/-- What an array of the first fields has in some place fits the field there. -/
theorem fits_getElem? {fs : List Shape.Field} {field : Shape.Field} {n : Nat}
    (h : List.Forall₂ (fun f d => Shape.Fits f.2.1 d) (fs.take n) ds) (i : Nat)
    (hfield : fs[i]? = some field) (hd : ds[i]? = some d) : field.2.1.Fits d := by
  obtain ⟨hlength, hfits⟩ := List.forall₂_iff_get.mp h
  obtain ⟨hi, rfl⟩ := List.getElem?_eq_some_iff.mp hd
  obtain ⟨hi', rfl⟩ := List.getElem?_eq_some_iff.mp hfield
  simpa using hfits i (hlength ▸ hi) hi

/-! ### Fields and their defaults -/

/-- Include entries that are not written are none. -/
theorem Written.Found.getD_includes (h : w.Found a b c) :
    a.getD (textsOf []) = textsOf (w.includes.getD []) := by
  rw [h.includes]
  cases w.includes <;> rfl

/-- Exclude entries that are not written are none. -/
theorem Written.Found.getD_excludes (h : w.Found a b c) :
    b.getD (textsOf []) = textsOf (w.excludes.getD []) := by
  rw [h.excludes]
  cases w.excludes <;> rfl

/-- An object may leave out every field. -/
theorem gather_fileFields (h : w.Found (all.lookup "include") (all.lookup "exclude")
    (all.lookup "compilerOptions")) : Shape.gather all fileFields = .ok w.fields := by
  refine Shape.gather_cons_eq_ok_iff.mpr ⟨_, _, ?_, Shape.gather_cons_eq_ok_iff.mpr ⟨_, _, ?_,
    Shape.gather_cons_eq_ok_iff.mpr ⟨_, _, ?_, rfl, rfl⟩, rfl⟩, rfl⟩
  · rw [← h.getD_includes]
    cases all.lookup "include" <;> simp [Shape.Field.whenMissing, textsOf]
  · rw [← h.getD_excludes]
    cases all.lookup "exclude" <;> simp [Shape.Field.whenMissing, textsOf]
  · rw [← h.options]
    cases all.lookup "compilerOptions" <;> simp [Shape.Field.whenMissing, optionsOf]

/-- An array may leave out the last fields. -/
theorem defaults_fileFields {name : String} (hlength : ds.length ≤ fileFields.length)
    (h : w.Found ds[0]? ds[1]? ds[2]?) :
    ∃ more, Shape.defaults name fileFields ds.length = .ok more ∧ ds ++ more = w.fields := by
  rw [Written.fields, ← h.getD_includes, ← h.getD_excludes, ← h.options]
  match ds, hlength with
  | [], _ => exact ⟨_, rfl, rfl⟩
  | [_], _ => exact ⟨_, rfl, rfl⟩
  | [_, _], _ => exact ⟨_, rfl, rfl⟩
  | [_, _, _], _ => exact ⟨_, rfl, rfl⟩

/-- What is found in a project file are the fields with what is written in it. -/
theorem spells_fileShape_iff : Shape.Spells passedOver Json.depthLimit (.value fileShape d) ls ↔
    ∃ w : Written, w.Spelt ls ∧ d = .record w.fields := by
  constructor
  · intro h
    cases h with
    | @object _ _ _ all _ _ _ hall hgather =>
      have hfit := hall.fits settled_of_mem_fileFields (by decide) (Shape.membersFit_nil _)
      obtain ⟨hi, hfit⟩ := List.forall_mem_cons.mp hfit
      obtain ⟨he, hfit⟩ := List.forall_mem_cons.mp hfit
      obtain ⟨w, hw⟩ := exists_found hi he (List.forall_mem_singleton.mp hfit)
      refine ⟨w, .object hall hw, congrArg _ ?_⟩
      exact Except.ok.inj (hgather.symm.trans (gather_fileFields hw))
    | @array _ _ _ ds _ _ _ hds hmore =>
      obtain ⟨hlength, hfit⟩ := hds.fits settled_of_mem_fileFields
      obtain ⟨w, hw⟩ := exists_found (fun _ => fits_getElem? hfit 0 rfl)
        (fun _ => fits_getElem? hfit 1 rfl) fun _ => fits_getElem? hfit 2 rfl
      obtain ⟨more, hdefaults, hfields⟩ := defaults_fileFields hlength hw
      obtain rfl := Except.ok.inj (hmore.symm.trans hdefaults)
      exact ⟨w, .array hds hw, congrArg _ hfields⟩
  · rintro ⟨w, hw, rfl⟩
    cases hw with
    | object hall hw => exact .object (by decide) hall (gather_fileFields hw)
    | array hds hw =>
      obtain ⟨more, hdefaults, hfields⟩ :=
        defaults_fileFields (hds.fits settled_of_mem_fileFields).1 hw
      exact hfields ▸ .array (by decide) hds hdefaults

/-! ### Texts -/

/-- The fields say what is written. -/
theorem file_fields (w : Written) : (⟨((Datum.record w.fields).field 0).asList.map Datum.asText,
    ((Datum.record w.fields).field 1).asList.map Datum.asText,
    (((Datum.record w.fields).field 2).field 0).asTextOption⟩ : File) = w.file := by
  have htexts : ∀ ks : List String, (textsOf ks).asList.map Datum.asText = ks :=
    fun ks => List.map_map.trans (List.map_id ks)
  have hdir : ∀ dir, ((optionsOf dir).field 0).asTextOption = dir := by
    rintro (_ | dir) <;> rfl
  exact File.mk.injEq .. ▸ ⟨htexts _, htexts _, hdir _⟩

/-- **Reading.**  A text says something just when it is a project file without the comments and the
    trailing commas, and then it says what is written there. -/
theorem File.read_eq_ok_iff : File.read text = .ok f ↔
    ∃ w : Written, w.Spelt (lexemes (Json.Relaxed.strict text.toList)) ∧ f = w.file := by
  unfold File.read
  constructor
  · intro h
    split at h
    · exact absurd h (by simp)
    · rename_i d hd
      obtain ⟨w, hw, rfl⟩ := spells_fileShape_iff.mp ((Shape.read_eq_ok_iff plain_fileShape).mp hd)
      exact ⟨w, hw, (Except.ok.inj h).symm.trans (file_fields w)⟩
  · rintro ⟨w, hw, rfl⟩
    rw [(Shape.read_eq_ok_iff plain_fileShape).mpr (spells_fileShape_iff.mpr ⟨w, hw, rfl⟩)]
    exact congrArg _ (file_fields w)

/-- Every text that is no project file is at fault. -/
theorem File.exists_fault_iff : (∃ e, File.read text = .error e) ↔
    ¬ ∃ w : Written, w.Spelt (lexemes (Json.Relaxed.strict text.toList)) := by
  constructor
  · rintro ⟨e, he⟩ ⟨w, hw⟩
    exact absurd (he.symm.trans (File.read_eq_ok_iff.mpr ⟨w, hw, rfl⟩)) (by simp)
  · intro hnone
    cases h : File.read text with
    | error e => exact ⟨e, rfl⟩
    | ok f =>
      obtain ⟨w, hw, -⟩ := File.read_eq_ok_iff.mp h
      exact (hnone ⟨w, hw⟩).elim

end DeclarationDocs.Project
