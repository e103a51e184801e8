import DeclarationDocs.Proofs.FileTree.Proper
import Mathlib.Data.List.Nodup

namespace DeclarationDocs

open FileTree

/-!
# Trees that are written to

Whatever is written to a tree as a disk holds it leaves one, and what was there before is still
there, of the same kind.

* `FileTree.Stored` — a proper tree with one entry for each place;
* `FileTree.Stored.put` — what one new entry preserves; `stored_writeDocument` — what a document
  preserves, with the directories that are made for it;
* `FileTree.Grows` — every directory and every file of the one tree is one of the other;
* `FileTree.Grows.locate` — so a path that leads somewhere still does, and
  `FileTree.Grows.foldlM_follow` — one that leads to what was there has done so before.
-/

namespace FileTree

variable {t t' t₁ t₂ t₃ : FileTree} {cwd q : Place} {p : Path} {n : List Char} {e : Entry}
  {x : Option Entry} {written : List (Path × String)}

/-! ### Stored trees -/

/-- A tree as a disk holds it, listed without repetition. -/
structure Stored (t : FileTree) : Prop where
  proper : t.Proper
  distinct : (t.entries.map Prod.fst).Nodup

/-- The name that a place gives to what it holds, if the place lies directly in the directory. -/
def nameIn (q place : Place) : Option (List Char) :=
  match place.reverse with
  | n :: above => if above.reverse == q then some n else none
  | [] => none

/-- A name in a directory is the last one of its place. -/
theorem eq_append_of_nameIn {place : Place} (h : nameIn q place = some n) : place = q ++ [n] := by
  rcases List.eq_nil_or_concat place with rfl | ⟨above, m, rfl⟩
  · exact absurd h (by simp [nameIn])
  · simp only [nameIn, List.concat_eq_append, List.reverse_append, List.reverse_cons,
      List.reverse_nil, List.nil_append, List.singleton_append, List.reverse_reverse, beq_iff_eq,
      Option.ite_none_right_eq_some, Option.some.injEq] at h
    rw [List.concat_eq_append, h.1, h.2]

/-- A directory lists no name twice. -/
theorem Stored.nodup_namesIn (h : t.Stored) (q : Place) : (t.namesIn q).Nodup := by
  -- the names are read off the places alone
  have hplaces : t.namesIn q = (t.entries.map Prod.fst).filterMap (nameIn q) := by
    rw [List.filterMap_map]
    rfl
  rw [hplaces]
  refine List.Nodup.filterMap (fun a b n ha hb => ?_) h.distinct
  exact (eq_append_of_nameIn ha).trans (eq_append_of_nameIn hb).symm

/-- **A new entry.**  It has to stand in a directory under a valid name, and takes the place of no
    directory. -/
theorem Stored.put (h : t.Stored) (hdir : t.entry? q = some .directory) (hn : ValidName n)
    (hfree : t.entry? (q ++ [n]) = some .directory → e = .directory) :
    (t.put (q ++ [n]) e).Stored := by
  have hne : q ++ [n] ≠ [] := by simp
  have hkeep : ∀ {place}, t.entry? place = some .directory →
      entry? (t.put (q ++ [n]) e) place = some .directory := by
    intro place hplace
    rw [entry?_put hne]
    split
    · rename_i heq
      rw [hfree (heq ▸ hplace)]
    · exact hplace
  refine ⟨⟨fun x hx => ?_, fun x hx => ?_⟩, ?_⟩
  · rcases List.mem_cons.mp hx with rfl | hx
    · intro m hm
      rcases List.mem_append.mp hm with hm | hm
      · exact h.proper.validName (by simp [hdir]) hm
      · exact List.mem_singleton.mp hm ▸ hn
    · exact h.proper.valid x (List.mem_of_mem_filter hx)
  · rcases List.mem_cons.mp hx with rfl | hx
    · exact hkeep (by rw [List.dropLast_concat]; exact hdir)
    · exact hkeep (h.proper.parent x (List.mem_of_mem_filter hx))
  · show (_ :: (t.entries.filter _).map Prod.fst).Nodup
    refine List.nodup_cons.mpr ⟨?_, h.distinct.sublist (List.filter_sublist.map _)⟩
    rintro hmem
    obtain ⟨x, hx, hplace⟩ := List.mem_map.mp hmem
    simp [hplace] at hx

/-- The directory around an entry, and that of the root. -/
theorem Stored.dropLast (h : t.Stored) (hq : t.entry? q ≠ none) :
    t.entry? q.dropLast = some .directory := by
  rcases List.eq_nil_or_concat q with rfl | ⟨above, n, rfl⟩
  · rfl
  · rw [List.concat_eq_append] at hq ⊢
    rw [List.dropLast_concat]
    exact h.proper.directory_of_concat hq

/-- Only a name leads to something that is no directory: a `.` leads to the directory itself, a
    `..` to the one above. -/
theorem Stored.follow_eq_ok {m : Place} (h : t.Stored) (hs : t.follow m n = .ok q)
    (hq : t.entry? q ≠ some .directory) :
    t.entry? m = some .directory ∧ q = m ++ [n] ∧ n ≠ ['.'] ∧ n ≠ ['.', '.'] ∧
      Text.byteLength n ≤ nameLimit := by
  obtain ⟨hdir, hstep⟩ := FileTree.follow_eq_ok hs
  unfold step at hstep
  simp only [follow, hdir] at hs
  by_cases hdot : n = ['.']
  · rw [if_pos hdot] at hstep
    exact absurd (hstep ▸ hdir) hq
  · by_cases hdots : n = ['.', '.']
    · rw [if_neg hdot, if_pos hdots] at hstep
      exact absurd (hstep ▸ h.dropLast (by simp [hdir])) hq
    · rw [if_neg hdot, if_neg hdots] at hs hstep
      refine ⟨hdir, hstep, hdot, hdots, Nat.le_of_not_lt fun hlong => ?_⟩
      rw [if_pos hlong] at hs
      exact absurd hs (by simp)

/-- A path that leads to no directory ends in a name that is looked up in one. -/
theorem Stored.exists_concat (h : t.Stored) (hl : t.locate cwd p = .ok (q, x))
    (hx : x ≠ some .directory) :
    ∃ above n, q = above ++ [n] ∧ t.entry? above = some .directory ∧ ValidName n := by
  obtain ⟨⟨hchars, hnul⟩, hfollow, hentry, -⟩ := locate_eq_ok_iff.mp hl
  rcases List.eq_nil_or_concat p.steps with hsteps | ⟨init, s, hsteps⟩
  · -- only slashes, so the path leads to the root
    have habs : p.isAbsolute = true := by
      by_contra hrelative
      obtain ⟨s, r, -, hs, -⟩ := Path.exists_segments_eq_cons hchars (by simpa using hrelative)
      exact absurd (hs.symm.trans hsteps) (by simp)
    rw [hsteps, startOf, if_pos habs] at hfollow
    obtain rfl := foldlM_nil_eq_ok_iff.mp hfollow
    exact absurd hentry.symm hx
  · rw [List.concat_eq_append] at hsteps
    rw [hsteps, List.foldlM_append] at hfollow
    obtain ⟨m, -, hlast⟩ := bind_eq_ok_iff.mp hfollow
    obtain ⟨q', hs, hq'⟩ := foldlM_cons_eq_ok_iff.mp hlast
    obtain rfl := foldlM_nil_eq_ok_iff.mp hq'
    obtain ⟨hdir, hplace, hdot, hdots, hlength⟩ := h.follow_eq_ok hs (by rwa [hentry])
    have hmem : s ∈ p.segments.filter (· != []) := by
      show s ∈ p.steps
      rw [hsteps]
      exact List.mem_concat_self
    obtain ⟨hsegment, hne⟩ := List.mem_filter.mp hmem
    have hsplit : s ∈ Text.splitAt '/' p.chars := by
      rw [Path.segments_eq_drop] at hsegment
      exact List.mem_of_mem_drop hsegment
    exact ⟨m, s, hplace, hdir, by simpa using hne, hdot, hdots,
      Text.not_mem_of_mem_splitAt hsplit,
      fun hmem => hnul (Text.mem_of_mem_splitAt hsplit hmem), hlength⟩

/-! ### Stored trees are left -/

/-- Creating a directory keeps a tree as a disk holds it. -/
theorem Stored.createDirectory (h : t.Stored) (hmade : t.createDirectory cwd p = .ok t') :
    t'.Stored := by
  obtain ⟨place, hl, rfl⟩ := createDirectory_eq_ok_iff.mp hmade
  obtain ⟨above, n, rfl, hdir, hn⟩ := h.exists_concat hl (by simp)
  exact h.put hdir hn fun _ => rfl

/-- So does creating any number of them. -/
theorem Stored.makes (h : t.Stored) (hmakes : Relation.ReflTransGen (Makes cwd) t t') :
    t'.Stored := by
  induction hmakes with
  | refl => exact h
  | tail _ hone ih =>
    obtain ⟨_, hmade⟩ := hone
    exact ih.createDirectory hmade

/-- So does creating all that are missing on the way. -/
theorem Stored.createDirectories (h : t.Stored) (p : Path) :
    (t.createDirectories cwd p).1.Stored :=
  h.makes (createDirectories_makes t p)

/-- So does writing a file. -/
theorem Stored.write {text : String} (h : t.Stored) (hw : t.write cwd p text = .ok t') :
    t'.Stored := by
  obtain ⟨rfl, hnot, husable, hfollow, hslash⟩ := write_eq_ok hw
  have hl : t.locate cwd p = .ok (destination cwd p, t.entry? (destination cwd p)) :=
    locate_eq_ok_iff.mpr ⟨husable, hfollow, rfl, fun _ _ => hslash⟩
  obtain ⟨above, n, heq, hdir, hn⟩ := h.exists_concat hl hnot
  rw [heq] at hnot ⊢
  exact h.put hdir hn fun hfull => absurd hfull hnot

end FileTree

/-- **A document.**  However the attempt to write it ends, the tree stays as a disk holds it. -/
theorem stored_writeDocument {t : FileTree} (h : t.Stored) (cwd : Place) (dir : Path)
    (fileName text : String) : (writeDocument t cwd dir fileName text).1.Stored := by
  have hdirs : (t.createDirectories cwd dir).1.Stored := h.createDirectories dir
  cases hwritten : writeDocument t cwd dir fileName text with
  | mk t' result =>
    cases result with
    | ok p =>
      obtain ⟨-, t₁, hmade, hw⟩ := writeDocument_eq_ok_iff.mp hwritten
      rw [hmade] at hdirs
      exact hdirs.write hw
    | error f =>
      rw [writeDocument_eq_error hwritten]
      exact hdirs

/-! ### Trees with more in them -/

namespace FileTree

variable {t t' t₁ t₂ t₃ : FileTree} {cwd q : Place} {p : Path} {e : Entry}
  {written : List (Path × String)}

/-- Every directory of `t` is a directory of `t'`, and every file a file. -/
structure Grows (t t' : FileTree) : Prop where
  directories : Retains t t'
  files : ∀ q, (t.fileAt? q).isSome → (t'.fileAt? q).isSome

/-- A tree that becomes another one by writing grows. -/
theorem Becomes.grows (h : Becomes cwd t t' written) : Grows t t' where
  directories := h.directories
  files q hq := by
    rw [h.files]
    exact overwritten_isSome hq

namespace Grows

theorem trans (h : Grows t₁ t₂) (h' : Grows t₂ t₃) : Grows t₁ t₃ where
  directories := h.directories.trans h'.directories
  files q hq := h'.files q (h.files q hq)

/-- What is there is there later, of the same kind. -/
theorem entry? (h : Grows t t') (hq : t.entry? q = some e) :
    ∃ e', t'.entry? q = some e' ∧ (e' = .directory ↔ e = .directory) := by
  cases e with
  | directory => exact ⟨.directory, h.directories q hq, Iff.rfl⟩
  | file c =>
    have hfile := h.files q (by rw [fileAt?_eq_some.mpr hq]; rfl)
    obtain ⟨c', hc'⟩ := Option.isSome_iff_exists.mp hfile
    exact ⟨.file c', fileAt?_eq_some.mp hc', by simp⟩

/-- **Paths.**  What leads somewhere leads to the same place later, and to an entry of the same
    kind. -/
theorem locate (h : Grows t t') (hl : t.locate cwd p = .ok (q, some e)) :
    ∃ e', t'.locate cwd p = .ok (q, some e') ∧ (e' = .directory ↔ e = .directory) := by
  obtain ⟨husable, hfollow, hentry, hslash⟩ := locate_eq_ok_iff.mp hl
  obtain ⟨e', he', hkind⟩ := h.entry? hentry
  refine ⟨e', locate_eq_ok_iff.mpr
    ⟨husable, foldlM_follow_of_retains h.directories hfollow, he', ?_⟩, hkind⟩
  rintro c hc
  -- a file there was a file before, and then the path was not refused
  cases e with
  | directory => exact absurd (hkind.mpr rfl) (by simp [Option.some.inj hc])
  | file c₀ => exact hslash c₀ rfl

/-- What leads somewhere leads to a directory just when it did before. -/
theorem isDirectory_iff {e : Entry} (h : Grows t t') (hl : t.locate cwd p = .ok (q, some e)) :
    t'.isDirectory cwd p = true ↔ t.isDirectory cwd p = true := by
  obtain ⟨e', hl', hkind⟩ := h.locate hl
  rw [isDirectory_of_locate hl', isDirectory_of_locate hl, hkind]

/-- **The way to what was there.**  If no step goes up, it leads through directories that were there
    as well: by induction from its end, where the entry is. -/
theorem foldlM_follow (h : Grows t t') (hproper : t.Proper) {start : Place}
    {segments : List (List Char)} (hup : ['.', '.'] ∉ segments)
    (hfollow : segments.foldlM t'.follow start = .ok q) (hq : t.entry? q ≠ none) :
    segments.foldlM t.follow start = .ok q := by
  induction segments using List.reverseRecOn generalizing q with
  | nil => exact hfollow
  | append_singleton segments s ih =>
    rw [List.foldlM_append] at hfollow ⊢
    obtain ⟨m, hsegments, hlast⟩ := bind_eq_ok_iff.mp hfollow
    obtain ⟨q', hs, hq'⟩ := foldlM_cons_eq_ok_iff.mp hlast
    obtain rfl := foldlM_nil_eq_ok_iff.mp hq'
    obtain ⟨hdir', hstep⟩ := follow_eq_ok hs
    have hdir : t.entry? m = some .directory := by
      unfold step at hstep
      split at hstep
      · -- a `.` stays in the directory, which was no file before
        obtain ⟨e, he⟩ := Option.ne_none_iff_exists'.mp hq
        rw [hstep] at he
        obtain ⟨e', he', hkind⟩ := h.entry? he
        rw [he, hkind.mp (Option.some.inj (he'.symm.trans hdir'))]
      · split at hstep
        · rename_i hdots
          exact absurd (by simp [hdots]) hup
        · exact hproper.directory_of_concat (hstep ▸ hq)
    have hmade : t.follow m s = .ok q' := by
      unfold follow at hs ⊢
      rw [hdir'] at hs
      rw [hdir]
      exact hs
    refine bind_eq_ok_iff.mpr ⟨m, ?_, foldlM_cons_eq_ok_iff.mpr ⟨q', hmade, rfl⟩⟩
    exact ih (fun hmem => hup (List.mem_append_left _ hmem)) hsegments (by simp [hdir])

/-- A file is found again. -/
theorem isFile (h : Grows t t') (hfile : t.isFile cwd p = true) : t'.isFile cwd p = true := by
  obtain ⟨q, c, hl⟩ := exists_locate_of_isFile hfile
  obtain ⟨e', hl', hkind⟩ := h.locate hl
  exact (isFile_of_locate hl').mpr (by simp [hkind])

end Grows

end FileTree

end DeclarationDocs
