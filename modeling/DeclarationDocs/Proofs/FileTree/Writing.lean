import DeclarationDocs.Document
import DeclarationDocs.Proofs.FileTree.Locating
import Mathlib.Logic.Function.Basic
import Mathlib.Logic.Relation

namespace DeclarationDocs

/-!
# What writing does to a tree

The regular files of a tree are a function from places to contents (`fileAt?`), and a document
written below them overwrites that function at one place.

* `FileTree.overwritten cwd files written` — the files after the texts `written` were put at
  their paths, in order; the last text of a path wins;
* `FileTree.Becomes cwd t t' written` — `t'` has the files of `t` overwritten in this way, and
  at most directories beyond that;
* `FileTree.Makes cwd t t'` — `t'` is `t` with one more directory; making directories is a chain of
  such steps (`createDirectories_makes`), so what each step keeps is kept;
* `writeDocument_ok`, `writeDocument_error` — a document that is written overwrites its path,
  and one that fails leaves every file alone, whatever directories were made before.
-/

namespace FileTree

variable {t t' : FileTree} {cwd q place : Place} {p : Path} {e : Entry}

/-! ### Entries of a changed tree -/

theorem entry?_nil (t : FileTree) : t.entry? [] = some .directory := rfl

/-- Below the top the entry of a place is looked up. -/
theorem entry?_of_ne_nil (t : FileTree) (h : q ≠ []) : t.entry? q = t.entries.lookup q := by
  cases q with
  | nil => exact absurd rfl h
  | cons n r => rfl

/-- Taking out the entries of one place leaves the others to be found. -/
theorem lookup_filter_ne {entries : List (Place × Entry)} (h : q ≠ place) :
    (entries.filter fun x => x.1 != place).lookup q = entries.lookup q := by
  induction entries with
  | nil => rfl
  | cons x r ih =>
    obtain ⟨a, e⟩ := x
    by_cases ha : a = place
    · have hq : (q == a) = false := by simpa [ha] using h
      rw [List.filter_cons_of_neg (by simpa using ha), ih, List.lookup_cons, hq]
    · rw [List.filter_cons_of_pos (by simpa using ha), List.lookup_cons, List.lookup_cons, ih]

/-- A place other than the root holds what was put there last. -/
theorem entry?_put (h : place ≠ []) :
    entry? (t.put place e) q = if q = place then some e else t.entry? q := by
  by_cases hq : q = []
  · subst hq
    rw [if_neg (Ne.symm h), entry?_nil, entry?_nil]
  rw [entry?_of_ne_nil _ hq, entry?_of_ne_nil _ hq]
  show ((place, e) :: t.entries.filter fun x => x.1 != place).lookup q = _
  by_cases hp : q = place
  · rw [hp, List.lookup_cons_self, if_pos rfl]
  · have hne : (q == place) = false := by simpa using hp
    rw [List.lookup_cons, hne, if_neg hp]
    exact lookup_filter_ne hp

/-! ### The files of a tree -/

/-- The content of the regular file at a place. -/
def fileAt? (t : FileTree) (q : Place) : Option Content :=
  match t.entry? q with
  | some (.file c) => some c
  | _ => none

/-- The files after texts were put at their paths, in order. -/
def overwritten (cwd : Place) (files : Place → Option Content) (written : List (Path × String)) :
    Place → Option Content :=
  written.foldl
    (fun files x => Function.update files (destination cwd x.1) (some (.text x.2))) files

/-- Overwriting by `w ++ w'` is overwriting by `w` and then by `w'`. -/
theorem overwritten_append (files : Place → Option Content) (w w' : List (Path × String)) :
    overwritten cwd files (w ++ w') = overwritten cwd (overwritten cwd files w) w' :=
  List.foldl_append ..

/-- At a place there is a file just when its entry is that file. -/
theorem fileAt?_eq_some {c : Content} : t.fileAt? q = some c ↔ t.entry? q = some (.file c) := by
  unfold fileAt?
  split <;> simp_all

/-- An entry is a file with its content, or a directory. -/
theorem entry?_eq_of_fileAt? (hfile : t'.fileAt? q = t.fileAt? q)
    (hdirectory : t'.entry? q = some .directory ↔ t.entry? q = some .directory) :
    t'.entry? q = t.entry? q := by
  cases h : t.entry? q with
  | some e =>
    cases e with
    | directory => exact hdirectory.mpr h
    | file c =>
      rw [fileAt?_eq_some.mpr h] at hfile
      exact fileAt?_eq_some.mp hfile
  | none =>
    cases h' : t'.entry? q with
    | none => rfl
    | some e' =>
      cases e' with
      | directory => exact absurd (h.symm.trans (hdirectory.mp h')) (by simp)
      | file c =>
        rw [fileAt?_eq_some.mpr h'] at hfile
        exact absurd (h.symm.trans (fileAt?_eq_some.mp hfile.symm)) (by simp)

/-- A place to which none of the paths leads keeps its file. -/
theorem overwritten_of_forall_ne {files : Place → Option Content}
    {written : List (Path × String)} (h : ∀ x ∈ written, destination cwd x.1 ≠ q) :
    overwritten cwd files written q = files q := by
  induction written generalizing files with
  | nil => rfl
  | cons x r ih =>
    obtain ⟨hx, hr⟩ := List.forall_mem_cons.mp h
    show overwritten cwd (Function.update files _ _) r q = files q
    rw [ih hr, Function.update_of_ne (Ne.symm hx)]

/-- The last text put at a path is the one that stays. -/
theorem overwritten_append_cons {files : Place → Option Content} {text : String}
    {written written' : List (Path × String)}
    (h : ∀ x ∈ written', destination cwd x.1 ≠ destination cwd p) :
    overwritten cwd files (written ++ (p, text) :: written') (destination cwd p)
      = some (.text text) := by
  rw [overwritten_append]
  show overwritten cwd (Function.update _ _ _) written' _ = _
  rw [overwritten_of_forall_ne h, Function.update_self]

/-- Overwriting takes no file away. -/
theorem overwritten_isSome {files : Place → Option Content} {written : List (Path × String)}
    (h : (files q).isSome) : (overwritten cwd files written q).isSome := by
  induction written generalizing files with
  | nil => exact h
  | cons x r ih =>
    apply ih
    show (Function.update files (destination cwd x.1) _ q).isSome
    by_cases hq : q = destination cwd x.1
    · rw [hq, Function.update_self]; rfl
    · rw [Function.update_of_ne hq]; exact h

/-- `t'` is `t` with the texts `written` put at their paths: its files are those of `t`
    overwritten, each of the paths leads to its file, the directories of `t` remain, and beyond
    that only directories may be new. -/
structure Becomes (cwd : Place) (t t' : FileTree) (written : List (Path × String)) : Prop where
  files : t'.fileAt? = overwritten cwd t.fileAt? written
  paths : ∀ x ∈ written, ∃ c, t'.locate cwd x.1 = .ok (destination cwd x.1, some (.file c))
  directories : Retains t t'

namespace Becomes

variable {t₁ t₂ t₃ : FileTree} {w w' : List (Path × String)}

theorem refl (t : FileTree) : Becomes cwd t t [] := ⟨rfl, by simp, .refl t⟩

/-- What was written first is still found by its path, although it may have been overwritten. -/
theorem trans (h : Becomes cwd t₁ t₂ w) (h' : Becomes cwd t₂ t₃ w') :
    Becomes cwd t₁ t₃ (w ++ w') where
  files := by rw [h'.files, h.files, overwritten_append]
  paths := by
    intro x hx
    rcases List.mem_append.mp hx with hx | hx
    · obtain ⟨c, hc⟩ := h.paths x hx
      have hfile : (t₂.fileAt? (destination cwd x.1)).isSome := by
        rw [fileAt?_eq_some.mpr (locate_eq_ok hc).2]; rfl
      have hstill : (t₃.fileAt? (destination cwd x.1)).isSome := by
        rw [h'.files]; exact overwritten_isSome hfile
      obtain ⟨c', hc'⟩ := Option.isSome_iff_exists.mp hstill
      exact ⟨c', locate_of_retains h'.directories hc (fileAt?_eq_some.mp hc')⟩
    · exact h'.paths x hx
  directories := h.directories.trans h'.directories

/-- The text put at a path last is what is read there. -/
theorem readText {text : String} (h : Becomes cwd t t' (w ++ (p, text) :: w'))
    (hlast : ∀ x ∈ w', destination cwd x.1 ≠ destination cwd p) :
    t'.readText cwd p = .ok text := by
  obtain ⟨c, hc⟩ := h.paths (p, text) (by simp)
  have hfile : t'.fileAt? (destination cwd p) = some (.text text) := by
    rw [h.files]; exact overwritten_append_cons hlast
  have hentry := (locate_eq_ok hc).2
  rw [fileAt?_eq_some.mp hfile] at hentry
  unfold FileTree.readText
  rw [hc, ← hentry]

end Becomes

/-! ### Making directories -/

/-- A directory put where nothing was changes no file. -/
theorem becomes_put_directory (h : t.entry? place = none) :
    Becomes cwd t (t.put place .directory) [] := by
  have hne : place ≠ [] := by rintro rfl; exact absurd h (by simp [entry?_nil])
  constructor
  · funext q
    show fileAt? _ q = fileAt? t q
    unfold fileAt?
    rw [entry?_put hne]
    by_cases hq : q = place
    · -- there was no file, and there is none now
      rw [if_pos hq, hq, h]
    · rw [if_neg hq]
  · simp
  · intro q hq
    rw [entry?_put hne]
    by_cases hp : q = place
    · rw [if_pos hp]
    · rw [if_neg hp, hq]

/-- The path by which a directory is made: the slashes at the end do not matter. -/
def trimmed (p : Path) : Path :=
  if Text.dropEndWhile (· == '/') p.chars = [] then p
  else ⟨Text.dropEndWhile (· == '/') p.chars⟩

/-- Whether a directory can be created is seen from the path without slashes at its end. -/
theorem createDirectory_eq (t : FileTree) (cwd : Place) (p : Path) :
    t.createDirectory cwd p =
      match t.locate cwd (trimmed p) with
      | .ok (place, none) => .ok (t.put place .directory)
      | .ok (_, some _) => .error .alreadyExists
      | .error e => .error e := rfl

/-- The steps are the same, and so is where they start. -/
theorem trimmed_spec (cwd : Place) (p : Path) :
    (trimmed p).steps = p.steps ∧ startOf cwd (trimmed p) = startOf cwd p ∧
      (Usable (trimmed p) ↔ Usable p) := by
  unfold trimmed
  split
  · exact ⟨rfl, rfl, Iff.rfl⟩
  · rename_i hne
    obtain ⟨ending, hchars, hending⟩ := Text.exists_append_dropEndWhile (· == '/') p.chars
    have habs : (Path.mk (Text.dropEndWhile (· == '/') p.chars)).isAbsolute = p.isAbsolute := by
      obtain ⟨c, r, hc⟩ := List.exists_cons_of_ne_nil hne
      rw [hc, List.cons_append] at hchars
      unfold Path.isAbsolute
      rw [hc, hchars]
      by_cases hslash : c = '/' <;> simp [hslash]
    refine ⟨?_, by rw [startOf, startOf, habs], ?_⟩
    · rw [Path.steps, Path.steps, Path.segments_eq_drop, Path.segments_eq_drop p, habs]
      exact Text.filter_drop_splitAt_dropEndWhile '/' p.chars (by split <;> omega)
    · have hnul : '\x00' ∉ ending := fun hmem => absurd (hending _ hmem) (by decide)
      have hfull : p.chars ≠ [] := by
        rw [hchars]
        simp [hne]
      constructor
      · intro h
        refine ⟨hfull, ?_⟩
        rw [hchars]
        simp [hnul, h.2]
      · intro h
        refine ⟨hne, fun hmem => h.2 ?_⟩
        rw [hchars]
        exact List.mem_append_left _ hmem

/-- What is no file is found with slashes at the end and without. -/
theorem locate_trimmed_iff {x : Option Entry} (hx : ∀ c, x ≠ some (.file c)) :
    t.locate cwd (trimmed p) = .ok (q, x) ↔ t.locate cwd p = .ok (q, x) := by
  obtain ⟨hsteps, hstart, husable⟩ := trimmed_spec cwd p
  rw [locate_eq_ok_iff, locate_eq_ok_iff, hsteps, hstart, husable]
  simp [hx]

/-- **Making a directory** takes a path that leads to a place where nothing is yet. -/
theorem createDirectory_eq_ok_iff : t.createDirectory cwd p = .ok t' ↔
    ∃ place, t.locate cwd p = .ok (place, none) ∧ t' = t.put place .directory := by
  rw [createDirectory_eq]
  constructor
  · intro h
    split at h
    · rename_i place hl
      exact ⟨place, (locate_trimmed_iff (by simp)).mp hl, (Except.ok.inj h).symm⟩
    · exact absurd h (by simp)
    · exact absurd h (by simp)
  · rintro ⟨place, hl, rfl⟩
    rw [(locate_trimmed_iff (by simp)).mpr hl]

/-- Creating a directory writes nothing. -/
theorem createDirectory_becomes (h : t.createDirectory cwd p = .ok t') : Becomes cwd t t' [] := by
  obtain ⟨place, hl, rfl⟩ := createDirectory_eq_ok_iff.mp h
  exact becomes_put_directory (locate_eq_ok hl).2

/-- One directory was made in the one tree, which gave the other. -/
def Makes (cwd : Place) (t t' : FileTree) : Prop := ∃ p, t.createDirectory cwd p = .ok t'

/-- Missing directories are created one after the other. -/
theorem createDirectoriesIn_makes (n : Nat) (t : FileTree) (p : Path) :
    Relation.ReflTransGen (Makes cwd) t (createDirectoriesIn n t cwd p).1 := by
  induction n generalizing t p with
  | zero => exact .refl
  | succ n ih =>
    unfold createDirectoriesIn
    split
    · rename_i h
      exact .single ⟨p, h⟩
    · -- the directory above is missing
      split
      · exact .refl
      · rename_i above _
        have habove : Relation.ReflTransGen (Makes cwd) t
            (if above.chars = [] then (t, .ok ()) else createDirectoriesIn n t cwd above).1 := by
          split
          · exact .refl
          · exact ih t above
        split
        · rename_i h
          rw [h] at habove
          exact habove
        · rename_i t₁ h
          rw [h] at habove
          split
          · rename_i h₂
            exact habove.tail ⟨p, h₂⟩
          · split <;> exact habove
    · split <;> exact .refl

/-- **Making directories** is making one after the other, also when it fails half-way. -/
theorem createDirectories_makes (t : FileTree) (p : Path) :
    Relation.ReflTransGen (Makes cwd) t (t.createDirectories cwd p).1 := by
  unfold createDirectories
  split
  · exact .refl
  · exact createDirectoriesIn_makes _ t p

/-- Creating any number of directories writes nothing. -/
theorem becomes_of_makes (h : Relation.ReflTransGen (Makes cwd) t t') : Becomes cwd t t' [] := by
  induction h with
  | refl => exact .refl t
  | tail _ hone ih =>
    obtain ⟨_, hmade⟩ := hone
    exact ih.trans (createDirectory_becomes hmade)

/-- Making directories changes no file. -/
theorem createDirectories_becomes (t : FileTree) (p : Path) :
    Becomes cwd t (t.createDirectories cwd p).1 [] :=
  becomes_of_makes (createDirectories_makes t p)

/-! ### Writing files -/

/-- A write that succeeds found no directory at the destination and put the text there. -/
theorem write_eq_ok {text : String} (h : t.write cwd p text = .ok t') :
    t' = t.put (destination cwd p) (.file (.text text)) ∧
      t.entry? (destination cwd p) ≠ some .directory ∧ Usable p ∧
      p.steps.foldlM t.follow (startOf cwd p) = .ok (destination cwd p) ∧
      p.chars.getLast? ≠ some '/' := by
  unfold write at h
  split at h
  · exact absurd h (by simp)
  · -- there is a file at the destination
    rename_i c hl
    obtain ⟨rfl, he⟩ := locate_eq_ok hl
    obtain ⟨husable, hfollow, _, hslash⟩ := locate_eq_ok_iff.mp hl
    exact ⟨(Except.ok.inj h).symm, by simp [he], husable, hfollow, hslash c rfl⟩
  · -- there is nothing at the destination
    rename_i hl
    obtain ⟨rfl, he⟩ := locate_eq_ok hl
    obtain ⟨husable, hfollow, _, _⟩ := locate_eq_ok_iff.mp hl
    split at h
    · exact absurd h (by simp)
    · rename_i hslash
      exact ⟨(Except.ok.inj h).symm, by simp [he], husable, hfollow, hslash⟩
  · exact absurd h (by simp)

/-- Writing overwrites the file that the path leads to from then on. -/
theorem write_becomes {text : String} (h : t.write cwd p text = .ok t') :
    Becomes cwd t t' [(p, text)] := by
  obtain ⟨rfl, he, husable, hfollow, hslash⟩ := write_eq_ok h
  have hne : destination cwd p ≠ [] := by intro hnil; rw [hnil] at he; exact he rfl
  -- what is overwritten is no directory
  have hretains : Retains t (t.put (destination cwd p) (.file (.text text))) := by
    intro q hq
    rw [entry?_put hne, if_neg (by rintro rfl; exact he hq), hq]
  constructor
  · funext q
    show _ = Function.update t.fileAt? (destination cwd p) (some (.text text)) q
    unfold fileAt?
    rw [entry?_put hne]
    by_cases hq : q = destination cwd p
    · rw [if_pos hq, hq, Function.update_self]
    · rw [if_neg hq, Function.update_of_ne hq]
  · intro x hx
    obtain rfl := List.mem_singleton.mp hx
    refine ⟨.text text, locate_eq_ok_iff.mpr
      ⟨husable, foldlM_follow_of_retains hretains hfollow, ?_, fun _ _ => hslash⟩⟩
    rw [entry?_put hne, if_pos rfl]
  · exact hretains

end FileTree

/-! ### Documents -/

open FileTree

variable {t t' : FileTree} {cwd : Place} {dir p : Path} {fileName text : String}

/-- A document is written if its directory can be made and the file can be written there. -/
theorem writeDocument_eq_ok_iff : writeDocument t cwd dir fileName text = (t', .ok p) ↔
    p = dir.join (Path.ofString fileName) ∧
      ∃ t₁, t.createDirectories cwd dir = (t₁, .ok ()) ∧ t₁.write cwd p text = .ok t' := by
  unfold writeDocument
  constructor
  · intro h
    split at h
    · exact absurd h (by simp)
    · rename_i t₁ hd
      simp only at h
      split at h
      · rename_i hw
        obtain ⟨rfl, hp⟩ := Prod.mk.inj h
        obtain rfl := Except.ok.inj hp
        exact ⟨rfl, t₁, hd, hw⟩
      · exact absurd h (by simp)
  · rintro ⟨rfl, t₁, hd, hw⟩
    simp only [hd, hw]

/-- If it is not written, directories are all that was made. -/
theorem writeDocument_eq_error {f : IoFault}
    (h : writeDocument t cwd dir fileName text = (t', .error f)) :
    t' = (t.createDirectories cwd dir).1 := by
  unfold writeDocument at h
  split at h
  · rename_i t₁ e hd
    rw [hd]
    exact (Prod.mk.inj h).1.symm
  · rename_i t₁ hd
    rw [hd]
    simp only at h
    split at h
    · exact absurd h (by simp)
    · exact (Prod.mk.inj h).1.symm

/-- A document that is written stands at the path it is said to have, and no other file has
    changed. -/
theorem writeDocument_ok (h : writeDocument t cwd dir fileName text = (t', .ok p)) :
    p = dir.join (Path.ofString fileName) ∧ Becomes cwd t t' [(p, text)] := by
  obtain ⟨hp, t₁, hd, hw⟩ := writeDocument_eq_ok_iff.mp h
  have hdirs : Becomes cwd t (t.createDirectories cwd dir).1 [] := createDirectories_becomes t dir
  rw [hd] at hdirs
  exact ⟨hp, hdirs.trans (write_becomes hw)⟩

/-- A document that is not written has changed no file, although directories may have been
    made for it. -/
theorem writeDocument_error {f : IoFault}
    (h : writeDocument t cwd dir fileName text = (t', .error f)) : Becomes cwd t t' [] := by
  rw [writeDocument_eq_error h]
  exact createDirectories_becomes t dir

end DeclarationDocs
