import DeclarationDocs.Proofs.FileTree.Storing
import DeclarationDocs.Proofs.Glob.Finding
import DeclarationDocs.Proofs.Path.Order
import Mathlib.Data.List.Sort

namespace DeclarationDocs

open FileTree

/-!
# Walking through a tree that has grown

When a tree has got more entries, a walk through it finds more paths.  It finds the old files again,
in the order in which they were found before: a walk only goes to files through directories, and
those that are new lead to nothing that was a file.

* `Glob.Walk.Beyond` — a path behind another one; `Glob.Walk.beyond_of_mem_expand` — a walk only
  goes on;
* `FileTree.filter_orderedNames` — the old names of a directory that has got more of them;
* `Glob.Walk.filter_expand` — a whole walk, with steps enough in both trees;
* `Glob.filter_find` — what a pattern leads to.
-/

namespace Glob

namespace Walk

variable {w : Walk} {t t' : FileTree} {cwd : Place} {p q r c : Path} {n : List Char}
  {ts us : List Token} {rest : List (List Token)} {k : Nat}

/-! ### Paths behind a path -/

/-- A path that goes on from `p`, by further segments or at least by a slash at its end. -/
structure Beyond (p r : Path) : Prop where
  isAbsolute : r.isAbsolute = p.isAbsolute
  chars : p.chars ⊆ r.chars
  steps : ∃ segs, r.steps = p.steps ++ segs ∧ (segs = [] → r.chars.getLast? = some '/')

/-- What is beyond something beyond `p` is beyond `p`. -/
theorem Beyond.trans (h : Beyond p q) (h' : Beyond q r) : Beyond p r := by
  obtain ⟨segs, hsegs, -⟩ := h.steps
  obtain ⟨segs', hsegs', hslash⟩ := h'.steps
  refine ⟨h'.isAbsolute.trans h.isAbsolute, List.Subset.trans h.chars h'.chars,
    segs ++ segs', ?_, ?_⟩
  · rw [hsegs', hsegs, List.append_assoc]
  · intro hnil
    exact hslash (List.append_eq_nil_iff.mp hnil).2

theorem chars_of_isAbsolute (h : p.isAbsolute = true) : p.chars ≠ [] ∧ p.chars ≠ ['.'] := by
  obtain ⟨s, hs⟩ := Path.isAbsolute_iff.mp h
  simp [hs]

/-- Below an absolute path names are joined. -/
theorem below_of_isAbsolute (h : p.isAbsolute = true) (n : List Char) : below p n = p.join ⟨n⟩ := by
  rw [below, if_neg (chars_of_isAbsolute h).2]

/-- A segment leads on, even an empty one: then a slash stands at the end. -/
theorem beyond_join (h : p.isAbsolute = true) (hslash : '/' ∉ n) : Beyond p (p.join ⟨n⟩) := by
  have hp := (chars_of_isAbsolute h).1
  have hextends := extends_join hp hslash
  have hchars := Path.chars_join hp (Path.not_isAbsolute_of_not_mem hslash)
  refine ⟨hextends.isAbsolute, ?_, _, hextends.steps, ?_⟩
  · rw [hchars]
    split
    · exact List.subset_append_left ..
    · exact List.subset_append_left ..
  · intro hnil
    obtain rfl : n = [] := by simpa using hnil
    rw [hchars]
    split
    · rename_i hlast
      simpa using hlast
    · simp

/-- **What leads to a file.**  A path from which one goes on to a file leads to a directory. -/
theorem Beyond.isDirectory (h : Beyond p r) (habs : p.isAbsolute = true)
    (hfile : t.isFile cwd r = true) : t.isDirectory cwd p = true := by
  obtain ⟨place, content, hl⟩ := exists_locate_of_isFile hfile
  obtain ⟨⟨-, hnul⟩, hfollow, -, hslash⟩ := locate_eq_ok_iff.mp hl
  obtain ⟨segs, hsegs, hnil⟩ := h.steps
  -- a slash at the end leads to no file, so there is a further segment
  obtain ⟨s, more, rfl⟩ := List.exists_cons_of_ne_nil
    fun hempty => hslash content rfl (hnil hempty)
  have hstart : startOf cwd r = startOf cwd p := by rw [startOf, startOf, h.isAbsolute]
  rw [hsegs, hstart, List.foldlM_append] at hfollow
  obtain ⟨q, hp, hmore⟩ := bind_eq_ok_iff.mp hfollow
  obtain ⟨_, hs, -⟩ := foldlM_cons_eq_ok_iff.mp hmore
  have hdir := (follow_eq_ok hs).1
  have hl' : t.locate cwd p = .ok (q, some .directory) :=
    locate_eq_ok_iff.mpr ⟨⟨(chars_of_isAbsolute habs).1, fun hmem => hnul (h.chars hmem)⟩, hp,
      hdir, by simp⟩
  exact (isDirectory_of_locate hl').mpr rfl

/-- A path that leads to a file, or from which one goes on to one, leads somewhere. -/
theorem exists_locate_of_beyond (h : r = p ∨ Beyond p r) (habs : p.isAbsolute = true)
    (hfile : t.isFile cwd r = true) : ∃ q e, t.locate cwd p = .ok (q, some e) := by
  rcases h with rfl | h
  · obtain ⟨q, c, hl⟩ := exists_locate_of_isFile hfile
    exact ⟨q, _, hl⟩
  · obtain ⟨q, hl⟩ := exists_locate_of_isDirectory (h.isDirectory habs hfile)
    exact ⟨q, _, hl⟩

/-! ### The branches of a walk -/

/-- Components whose literal names have no slash. -/
def Flat (rest : List (List Token)) : Prop :=
  ∀ ts ∈ rest, ∀ name, literal? ts = some name → '/' ∉ name

theorem Flat.dropWhile (h : Flat rest) : Flat (rest.dropWhile isRecursive) :=
  fun ts hts => h ts ((List.dropWhile_suffix _).subset hts)

/-- Go on behind a name that a component accepts. -/
def offer (w : Walk) (k : Nat) (ts : List Token) (rest : List (List Token)) (c : Path) :
    List Path :=
  if Glob.accepts ts (c.fileName.getD []) then w.proceed k rest c else []

/-- A child is offered if its name is accepted, and the walk proceeds from it. -/
theorem mem_offer_iff : r ∈ w.offer k ts rest c ↔
    Glob.accepts ts (c.fileName.getD []) = true ∧ r ∈ w.proceed k rest c := by
  unfold offer
  split <;> simp_all

/-- Go on from what a directory holds: a `**` offers it to the component behind, or takes it if
    there is none, and goes into it. -/
def branch (w : Walk) (k : Nat) (ts : List Token) (rest : List (List Token)) (c : Path) :
    List Path :=
  if isRecursive ts then
    (match rest.dropWhile isRecursive with
      | [] => if w.tree.isDirectory w.cwd c then [c] else []
      | us :: rest' => w.offer k us rest' c) ++
      if w.tree.isDirectory w.cwd c then w.expand k (ts :: rest.dropWhile isRecursive) c else []
  else w.offer k ts rest c

/-- A literal component is taken as it is if it leads somewhere. -/
theorem expand_eq_literal (hts : literal? ts = some n) :
    w.expand (k + 1) (ts :: rest) p =
      if (n = ['.'] ∨ n = ['.', '.']) ∧ w.tree.isDirectory w.cwd p = true ∨
          ¬ (n = ['.'] ∨ n = ['.', '.']) ∧ w.leadsSomewhere (below p n) = true then
        w.proceed k rest (below p n)
      else [] := by
  rw [expand, hts]
  rfl

/-- For any other component a directory is listed, the special names first. -/
theorem expand_eq_listing (hts : literal? ts = none) :
    w.expand (k + 1) (ts :: rest) p =
      if w.tree.isDirectory w.cwd p = true then
        ((specialNames ts).flatMap fun n => w.proceed k rest (p.join ⟨n⟩)) ++
          (w.children p).flatMap (w.branch k ts rest)
      else [] := by
  rw [expand, hts]
  simp only
  split
  · refine congrArg (_ ++ ·) (List.flatMap_congr fun c _ => ?_)
    unfold branch
    split
    · cases rest.dropWhile isRecursive with
      | nil => by_cases hdir : w.tree.isDirectory w.cwd c = true <;> simp [hdir]
      | cons us rest' => rfl
    · rfl
  · rfl

/-- What a walk has arrived at, and what it goes on to. -/
theorem beyond_of_mem_proceed (hexpand : r ∈ w.expand k rest q → Beyond q r)
    (hr : r ∈ w.proceed k rest q) : r = q ∨ Beyond q r := by
  rcases mem_proceed_cases hr with ⟨-, heq⟩ | ⟨-, hr⟩
  · exact .inl heq
  · exact .inr (hexpand hr)

/-- What comes of a child is that child, or beyond it. -/
theorem beyond_of_mem_branch
    (hexpand : ∀ {rest}, Flat rest → r ∈ w.expand k rest c → Beyond c r) (hflat : Flat (ts :: rest))
    (hr : r ∈ w.branch k ts rest c) : r = c ∨ Beyond c r := by
  obtain ⟨-, hrest⟩ := List.forall_mem_cons.mp hflat
  have hoffer : ∀ {us rest'}, Flat rest' → r ∈ w.offer k us rest' c → r = c ∨ Beyond c r :=
    fun hflat' hmem => beyond_of_mem_proceed (hexpand hflat') (mem_offer_iff.mp hmem).2
  have hdrop : Flat (rest.dropWhile isRecursive) := Flat.dropWhile hrest
  unfold branch at hr
  split at hr
  · rcases List.mem_append.mp hr with hr | hr
    · split at hr
      · split at hr
        · exact .inl (List.mem_singleton.mp hr)
        · exact absurd hr (by simp)
      · rename_i us rest' heq
        rw [heq] at hdrop
        exact hoffer (List.forall_mem_cons.mp hdrop).2 hr
    · split at hr
      · exact .inr (hexpand (List.forall_mem_cons.mpr ⟨hflat ts List.mem_cons_self, hdrop⟩) hr)
      · exact absurd hr (by simp)
  · exact hoffer hrest hr

/-- What a directory holds lies behind it. -/
theorem beyond_of_mem_children (hproper : w.tree.Proper) (habs : p.isAbsolute = true)
    (hc : c ∈ w.children p) : Beyond p c := by
  obtain ⟨place, n, he, rfl⟩ := exists_of_mem_children hc
  rw [below_of_isAbsolute habs]
  exact beyond_join habs (hproper.validName he (by simp)).2.2.2.1

/-- **A walk only goes on.**  By induction on the steps: whatever is found below a path lies
    behind it. -/
theorem beyond_of_mem_expand (hproper : w.tree.Proper) (hflat : Flat rest)
    (habs : p.isAbsolute = true) (hr : r ∈ w.expand k rest p) : Beyond p r := by
  induction k generalizing rest p with
  | zero => exact absurd hr (by simp [expand])
  | succ k ih =>
    cases rest with
    | nil => exact absurd hr (by simp [expand])
    | cons ts rest =>
      obtain ⟨hts, hrest⟩ := List.forall_mem_cons.mp hflat
      -- a path behind `p`, and whatever is found from there
      have hgo : ∀ {q}, Beyond p q → r = q ∨ Beyond q r → Beyond p r := by
        intro q hq hr
        rcases hr with rfl | hr
        · exact hq
        · exact hq.trans hr
      have hproceed : ∀ {q}, Beyond p q → r ∈ w.proceed k rest q → Beyond p r := fun hq hr =>
        hgo hq (beyond_of_mem_proceed (ih hrest (hq.isAbsolute.trans habs)) hr)
      cases hliteral : literal? ts with
      | some name =>
        rw [expand_eq_literal hliteral] at hr
        split at hr
        · rw [below_of_isAbsolute habs] at hr
          exact hproceed (beyond_join habs (hts name hliteral)) hr
        · exact absurd hr (by simp)
      | none =>
        rw [expand_eq_listing hliteral] at hr
        split at hr
        · rcases List.mem_append.mp hr with hr | hr
          · obtain ⟨n, hn, hr⟩ := List.mem_flatMap.mp hr
            have hslash : '/' ∉ n := by
              rcases (accepts_of_mem_specialNames hn).1 with rfl | rfl <;> decide
            exact hproceed (beyond_join habs hslash) hr
          · obtain ⟨c, hc, hr⟩ := List.mem_flatMap.mp hr
            have hbeyond := beyond_of_mem_children hproper habs hc
            have hcabs := hbeyond.isAbsolute.trans habs
            exact hgo hbeyond (beyond_of_mem_branch (fun hflat' => ih hflat' hcabs) hflat hr)
        · exact absurd hr (by simp)

/-! ### Files that are not there -/

/-- Below what is no directory no file of a tree is found, whatever tree the walk is through. -/
theorem filter_expand_eq_nil (hproper : w.tree.Proper) (hflat : Flat rest)
    (habs : p.isAbsolute = true) (hnot : t.isDirectory cwd p = false) :
    (w.expand k rest p).filter (t.isFile cwd) = [] := by
  rw [List.filter_eq_nil_iff]
  intro r hr hfile
  have hdir := (beyond_of_mem_expand hproper hflat habs hr).isDirectory habs hfile
  exact absurd (hdir.symm.trans hnot) (by simp)

/-- Where a path leads nowhere the walk finds no file. -/
theorem filter_proceed_eq_nil (hproper : w.tree.Proper) (hflat : Flat rest)
    (habs : p.isAbsolute = true) (hnot : ∀ q e, t.locate cwd p ≠ .ok (q, some e)) :
    (w.proceed k rest p).filter (t.isFile cwd) = [] := by
  rw [List.filter_eq_nil_iff]
  intro r hr hfile
  obtain ⟨q, e, hl⟩ := exists_locate_of_beyond
    (beyond_of_mem_proceed (beyond_of_mem_expand hproper hflat habs) hr) habs hfile
  exact hnot q e hl

/-- Nor does it below a child that leads nowhere. -/
theorem filter_branch_eq_nil (hproper : w.tree.Proper) (hflat : Flat (ts :: rest))
    (habs : c.isAbsolute = true) (hnot : ∀ q e, t.locate cwd c ≠ .ok (q, some e)) :
    (w.branch k ts rest c).filter (t.isFile cwd) = [] := by
  rw [List.filter_eq_nil_iff]
  intro r hr hfile
  obtain ⟨q, e, hl⟩ := exists_locate_of_beyond (beyond_of_mem_branch
    (fun hflat' => beyond_of_mem_expand hproper hflat' habs) hflat hr) habs hfile
  exact hnot q e hl

end Walk

end Glob

/-! ### Names that were there before -/

namespace FileTree

variable {t t' : FileTree} {cwd q : Place} {p : Path}

/-- The names in a directory, in order. -/
def orderedNames (t : FileTree) (q : Place) : List (List Char) :=
  (t.namesIn q).mergeSort fun a b => !Path.nameLt b a

/-- The names in a directory are those with an entry. -/
theorem mem_orderedNames_iff {n : List Char} :
    n ∈ t.orderedNames q ↔ t.entry? (q ++ [n]) ≠ none := by
  rw [orderedNames, List.mem_mergeSort, mem_namesIn_iff]

/-- They are in order. -/
theorem pairwise_orderedNames (t : FileTree) (q : Place) : (t.orderedNames q).Pairwise (· ≤ ·) := by
  have hle : ∀ a b : List Char, (!Path.nameLt b a) = true ↔ a ≤ b := fun a b => by
    rw [Bool.not_eq_true', ← Bool.not_eq_true, Path.nameLt_iff, not_lt]
  refine (List.pairwise_mergeSort (fun a b c hab hbc => ?_) (fun a b => ?_) (t.namesIn q)).imp
    fun h => (hle _ _).mp h
  · exact (hle a c).mpr (((hle a b).mp hab).trans ((hle b c).mp hbc))
  · rw [Bool.or_eq_true, hle, hle]
    exact le_total a b

/-- **Old names.**  Those of the names in a directory that were there before are in the order in
    which they were listed then. -/
theorem filter_orderedNames (h : t.Stored) (h' : t'.Stored) (hgrows : Grows t t') (q : Place) :
    (t'.orderedNames q).filter (fun n => (t.entry? (q ++ [n])).isSome) = t.orderedNames q := by
  have hnodup : ∀ {t : FileTree}, t.Stored → (t.orderedNames q).Nodup := fun h =>
    (List.mergeSort_perm _ _).nodup_iff.mpr (h.nodup_namesIn q)
  have hperm := List.perm_ext_iff_of_nodup
    ((hnodup h').filter fun n => (t.entry? (q ++ [n])).isSome) (hnodup h)
  refine List.Perm.eq_of_pairwise' ((pairwise_orderedNames t' q).filter _)
    (pairwise_orderedNames t q) (hperm.mpr fun n => ?_)
  rw [List.mem_filter, mem_orderedNames_iff, mem_orderedNames_iff, Option.isSome_iff_ne_none]
  refine and_iff_right_of_imp fun hn => ?_
  obtain ⟨e, he⟩ := Option.ne_none_iff_exists'.mp hn
  obtain ⟨e', he', -⟩ := hgrows.entry? he
  simp [he']

/-- There is no less room in a tree that has grown. -/
theorem Grows.depth_le (h : Grows t t') : t.depth ≤ t'.depth := by
  have hle : ∀ (ls : List Nat) (m : Nat), m ≤ t'.depth → (∀ l ∈ ls, l ≤ t'.depth) →
      ls.foldl max m ≤ t'.depth := by
    intro ls
    induction ls with
    | nil => exact fun m hm _ => hm
    | cons l ls ih =>
      intro m hm hls
      obtain ⟨hl, hls⟩ := List.forall_mem_cons.mp hls
      exact ih _ (Nat.max_le.mpr ⟨hm, hl⟩) hls
  refine hle _ 0 (Nat.zero_le _) fun l hl => ?_
  obtain ⟨x, hx, rfl⟩ := List.mem_map.mp hl
  by_cases hroot : x.1 = []
  · simp [hroot]
  · obtain ⟨e, he⟩ := Option.ne_none_iff_exists'.mp ((exists_mem_entries_iff hroot).mp ⟨x, hx, rfl⟩)
    obtain ⟨e', he', -⟩ := h.entry? he
    exact length_le_depth (by simp [he'])

end FileTree

/-! ### Old files -/

namespace Glob.Walk

variable {t t' : FileTree} {cwd : Place} {d : Bool} {p c : Path} {q : Place} {ts us : List Token}
  {rest : List (List Token)} {k k' : Nat}

/-- A list whose other members contribute nothing. -/
theorem flatMap_filter_of_forall {α β : Type} {l : List α} {keep : α → Bool} {f : α → List β}
    (h : ∀ a ∈ l, keep a = false → f a = []) : (l.filter keep).flatMap f = l.flatMap f := by
  induction l with
  | nil => rfl
  | cons a l ih =>
    obtain ⟨ha, hl⟩ := List.forall_mem_cons.mp h
    by_cases hkeep : keep a = true
    · rw [List.filter_cons_of_pos hkeep, List.flatMap_cons, List.flatMap_cons, ih hl]
    · rw [List.filter_cons_of_neg hkeep, List.flatMap_cons, ih hl, ha (by simpa using hkeep),
        List.nil_append]

/-- The children of a path are its names in order. -/
theorem children_eq_map (hl : t.locate cwd p = .ok (q, some .directory)) :
    (Walk.mk t cwd d).children p = (t.orderedNames q).map (below p) := by
  unfold children
  rw [hl]
  rfl

/-- **What a directory holds.**  Of what is found from the paths of its names, the old files are
    those that were found before, as long as new names lead to none. -/
theorem filter_flatMap_children {f f' : Path → List Path} (h : t.Stored) (h' : t'.Stored)
    (hgrows : Grows t t') (hl : t.locate cwd p = .ok (q, some .directory))
    (hold : ∀ n, t.entry? (q ++ [n]) ≠ none →
      (f' (below p n)).filter (t.isFile cwd) = (f (below p n)).filter (t.isFile cwd))
    (hnew : ∀ n, t'.entry? (q ++ [n]) ≠ none → t.entry? (q ++ [n]) = none →
      (f' (below p n)).filter (t.isFile cwd) = []) :
    (((Walk.mk t' cwd d).children p).flatMap f').filter (t.isFile cwd) =
      (((Walk.mk t cwd d).children p).flatMap f).filter (t.isFile cwd) := by
  obtain ⟨e', hl', hkind⟩ := hgrows.locate hl
  obtain rfl := hkind.mpr rfl
  rw [children_eq_map hl, children_eq_map hl', List.flatMap_map, List.flatMap_map,
    List.filter_flatMap, List.filter_flatMap]
  calc (t'.orderedNames q).flatMap (fun n => (f' (below p n)).filter (t.isFile cwd))
      = ((t'.orderedNames q).filter fun n => (t.entry? (q ++ [n])).isSome).flatMap
          (fun n => (f' (below p n)).filter (t.isFile cwd)) := by
        refine (flatMap_filter_of_forall fun n hn hnone => ?_).symm
        exact hnew n (mem_orderedNames_iff.mp hn) (by simpa using hnone)
    _ = (t.orderedNames q).flatMap (fun n => (f' (below p n)).filter (t.isFile cwd)) := by
        rw [filter_orderedNames h h' hgrows]
    _ = (t.orderedNames q).flatMap (fun n => (f (below p n)).filter (t.isFile cwd)) :=
        List.flatMap_congr fun n hn => hold n (mem_orderedNames_iff.mp hn)

/-- A path that is complete is an old file in both trees, or in none. -/
theorem filter_arrive (hgrows : Grows t t') (p : Path) :
    ((Walk.mk t' cwd d).arrive p).filter (t.isFile cwd) =
      ((Walk.mk t cwd d).arrive p).filter (t.isFile cwd) := by
  by_cases hfile : t.isFile cwd p = true
  · obtain ⟨q, e, hl⟩ := exists_locate_of_isFile hfile
    have hsame : t'.isDirectory cwd p = t.isDirectory cwd p :=
      Bool.eq_iff_iff.mpr (hgrows.isDirectory_iff hl)
    simp only [arrive, hsame]
  · have hnone : ∀ {t₁ : FileTree}, ((Walk.mk t₁ cwd d).arrive p).filter (t.isFile cwd) = [] := by
      intro t₁
      unfold arrive
      split
      · rfl
      · rw [List.filter_cons_of_neg hfile, List.filter_nil]
    rw [hnone, hnone]

theorem expand_nil (w : Walk) (k : Nat) (p : Path) : w.expand k [] p = [] := by
  cases k <;> simp [expand]

/-- Behind a path, what is found again is decided by what is found again below the directory that it
    leads to. -/
theorem filter_proceed (h : t.Stored) (h' : t'.Stored) (hgrows : Grows t t') (hflat : Flat rest)
    (habs : p.isAbsolute = true)
    (hexpand : ∀ q, t.locate cwd p = .ok (q, some .directory) →
      ((Walk.mk t' cwd d).expand k' rest p).filter (t.isFile cwd) =
        ((Walk.mk t cwd d).expand k rest p).filter (t.isFile cwd)) :
    ((Walk.mk t' cwd d).proceed k' rest p).filter (t.isFile cwd) =
      ((Walk.mk t cwd d).proceed k rest p).filter (t.isFile cwd) := by
  unfold proceed
  split
  · exact filter_arrive hgrows p
  · by_cases hdir : t.isDirectory cwd p = true
    · obtain ⟨q, hl⟩ := exists_locate_of_isDirectory hdir
      exact hexpand q hl
    · have hnot : t.isDirectory cwd p = false := by simpa using hdir
      rw [filter_expand_eq_nil h'.proper hflat habs hnot,
        filter_expand_eq_nil h.proper hflat habs hnot]

/-- From what a directory has held before, the same is found again. -/
theorem filter_branch {e : Entry} (hgrows : Grows t t') (hflat : Flat rest)
    (hl : t.locate cwd c = .ok (q, some e))
    (hproceed : ∀ rest', Flat rest' → rest'.length ≤ rest.length →
      ((Walk.mk t' cwd d).proceed k' rest' c).filter (t.isFile cwd) =
        ((Walk.mk t cwd d).proceed k rest' c).filter (t.isFile cwd))
    (hdeeper : e = .directory →
      ((Walk.mk t' cwd d).expand k' (ts :: rest.dropWhile isRecursive) c).filter (t.isFile cwd) =
        ((Walk.mk t cwd d).expand k (ts :: rest.dropWhile isRecursive) c).filter (t.isFile cwd)) :
    ((Walk.mk t' cwd d).branch k' ts rest c).filter (t.isFile cwd) =
      ((Walk.mk t cwd d).branch k ts rest c).filter (t.isFile cwd) := by
  have hdir : t'.isDirectory cwd c = t.isDirectory cwd c :=
    Bool.eq_iff_iff.mpr (hgrows.isDirectory_iff hl)
  have hoffer : ∀ us rest', Flat rest' → rest'.length ≤ rest.length →
      ((Walk.mk t' cwd d).offer k' us rest' c).filter (t.isFile cwd) =
        ((Walk.mk t cwd d).offer k us rest' c).filter (t.isFile cwd) := by
    intro us rest' hflat' hlength
    unfold offer
    split
    · exact hproceed rest' hflat' hlength
    · rfl
  have hdrop : Flat (rest.dropWhile isRecursive) := Flat.dropWhile hflat
  have hshort := (List.dropWhile_suffix isRecursive (l := rest)).length_le
  unfold branch
  simp only [hdir]
  split
  · rw [List.filter_append, List.filter_append]
    congr 1
    · cases heq : rest.dropWhile isRecursive with
      | nil => rfl
      | cons us rest' =>
        rw [heq] at hdrop hshort
        exact hoffer us rest' (List.forall_mem_cons.mp hdrop).2 ((Nat.le_succ _).trans hshort)
    · split
      · rename_i hisdir
        exact hdeeper ((isDirectory_of_locate hl).mp hisdir)
      · rfl
  · exact hoffer ts rest hflat le_rfl

/-- The path of an entry is absolute as the one of its directory is. -/
theorem isAbsolute_below {n : List Char} (h : t.Stored) (habs : p.isAbsolute = true)
    (hn : t.entry? (q ++ [n]) ≠ none) : (below p n).isAbsolute = true := by
  rw [below_of_isAbsolute habs]
  have hslash := (h.proper.validName hn (n := n) (by simp)).2.2.2.1
  exact (beyond_join habs hslash).isAbsolute.trans habs

/-- Through a literal name: a new entry may have it, but that leads to no old file. -/
theorem filter_expand_literal {name : List Char} (h' : t'.Stored) (hgrows : Grows t t')
    (hliteral : literal? ts = some name) (hflat : Flat rest)
    (hl : t.locate cwd p = .ok (q, some .directory)) (hbelow : (below p name).isAbsolute = true)
    (hproceed : ((Walk.mk t' cwd d).proceed k' rest (below p name)).filter (t.isFile cwd) =
      ((Walk.mk t cwd d).proceed k rest (below p name)).filter (t.isFile cwd)) :
    ((Walk.mk t' cwd d).expand (k' + 1) (ts :: rest) p).filter (t.isFile cwd) =
      ((Walk.mk t cwd d).expand (k + 1) (ts :: rest) p).filter (t.isFile cwd) := by
  have hdir : t.isDirectory cwd p = true := (isDirectory_of_locate hl).mpr rfl
  have hdir' : t'.isDirectory cwd p = true := (hgrows.isDirectory_iff hl).mpr hdir
  rw [expand_eq_literal hliteral, expand_eq_literal hliteral]
  simp only [hdir, hdir', and_true]
  by_cases hspecial : name = ['.'] ∨ name = ['.', '.']
  · rw [if_pos (.inl hspecial), if_pos (.inl hspecial), hproceed]
  · simp only [hspecial, not_false_eq_true, true_and, false_or]
    by_cases hsome : ∃ q e, t.locate cwd (below p name) = .ok (q, some e)
    · obtain ⟨place, e, hplace⟩ := hsome
      obtain ⟨e', hplace', -⟩ := hgrows.locate hplace
      rw [if_pos (leadsSomewhere_iff.mpr ⟨place, e', hplace'⟩),
        if_pos (leadsSomewhere_iff.mpr ⟨place, e, hplace⟩), hproceed]
    · have hlost : ¬ (Walk.mk t cwd d).leadsSomewhere (below p name) = true :=
        fun hleads => hsome (leadsSomewhere_iff.mp hleads)
      rw [if_neg hlost]
      split
      · refine filter_proceed_eq_nil h'.proper hflat hbelow fun place e hplace => ?_
        exact hsome ⟨place, e, hplace⟩
      · rfl

/-- Through the names of a directory, the new ones of which lead to no old file. -/
theorem filter_expand_listing (h : t.Stored) (h' : t'.Stored) (hgrows : Grows t t')
    (hliteral : literal? ts = none) (hflat : Flat (ts :: rest)) (habs : p.isAbsolute = true)
    (hl : t.locate cwd p = .ok (q, some .directory))
    (hproceed : ∀ rest' c, Flat rest' → c.isAbsolute = true → rest'.length ≤ rest.length →
      ((Walk.mk t' cwd d).proceed k' rest' c).filter (t.isFile cwd) =
        ((Walk.mk t cwd d).proceed k rest' c).filter (t.isFile cwd))
    (hdeeper : ∀ n, t.entry? (q ++ [n]) ≠ none →
      t.locate cwd (below p n) = .ok (q ++ [n], some .directory) →
      ((Walk.mk t' cwd d).expand k' (ts :: rest.dropWhile isRecursive) (below p n)).filter
          (t.isFile cwd) =
        ((Walk.mk t cwd d).expand k (ts :: rest.dropWhile isRecursive) (below p n)).filter
          (t.isFile cwd)) :
    ((Walk.mk t' cwd d).expand (k' + 1) (ts :: rest) p).filter (t.isFile cwd) =
      ((Walk.mk t cwd d).expand (k + 1) (ts :: rest) p).filter (t.isFile cwd) := by
  have hrest : Flat rest := (List.forall_mem_cons.mp hflat).2
  have hdir : t.isDirectory cwd p = true := (isDirectory_of_locate hl).mpr rfl
  rw [expand_eq_listing hliteral, expand_eq_listing hliteral, if_pos hdir,
    if_pos ((hgrows.isDirectory_iff hl).mpr hdir), List.filter_append, List.filter_append]
  congr 1
  · rw [List.filter_flatMap, List.filter_flatMap]
    refine List.flatMap_congr fun n hn => hproceed rest _ hrest ?_ le_rfl
    have hslash : '/' ∉ n := by
      rcases (accepts_of_mem_specialNames hn).1 with rfl | rfl <;> decide
    exact (beyond_join habs hslash).isAbsolute.trans habs
  · refine filter_flatMap_children h h' hgrows hl (fun n hn => ?_) fun n hn' hn => ?_
    · obtain ⟨e, hplace⟩ := LeadsTo.below (w := ⟨t, cwd, d⟩) ⟨_, hl⟩ h.proper hn
      refine filter_branch hgrows hrest hplace
        (fun rest' hflat' hlength =>
          hproceed rest' _ hflat' (isAbsolute_below h habs hn) hlength) ?_
      rintro rfl
      exact hdeeper n hn hplace
    · have hvalid : ValidName n := h'.proper.validName hn' (by simp)
      refine filter_branch_eq_nil h'.proper hflat (isAbsolute_below h' habs hn')
        fun place e hplace => ?_
      have hleads := (leadsSomewhere_below_iff (w := ⟨t, cwd, d⟩) ⟨_, hl⟩ h.proper hvalid.1
        hvalid.2.1 hvalid.2.2.1 hvalid.2.2.2.1).mp (leadsSomewhere_iff.mpr ⟨place, e, hplace⟩)
      exact hleads hn

/-- **Walking again.**  With steps enough in both trees, a walk through the tree that has grown
    finds the old files that it has found before, in the same order.  By induction on the steps; a
    `**` uses up a level of the old tree, every other component is used up itself. -/
theorem filter_expand (h : t.Stored) (h' : t'.Stored) (hgrows : Grows t t') (hflat : Flat rest)
    (habs : p.isAbsolute = true) (hl : t.locate cwd p = .ok (q, some .directory))
    (hk : rest.length * (t.depth + 2) + (t.depth - q.length) ≤ k)
    (hk' : rest.length * (t.depth + 2) + (t.depth - q.length) ≤ k') :
    ((Walk.mk t' cwd d).expand k' rest p).filter (t.isFile cwd) =
      ((Walk.mk t cwd d).expand k rest p).filter (t.isFile cwd) := by
  induction k generalizing k' rest p q with
  | zero =>
    cases rest with
    | nil => rw [expand_nil, expand_nil]
    | cons ts rest => simp [Nat.add_mul] at hk
  | succ k ih =>
    cases rest with
    | nil => rw [expand_nil, expand_nil]
    | cons ts rest =>
      obtain ⟨k', rfl⟩ : ∃ m, k' = m + 1 := by
        cases k' with
        | zero => simp [Nat.add_mul] at hk'
        | succ k' => exact ⟨k', rfl⟩
      obtain ⟨hts, hrest⟩ := List.forall_mem_cons.mp hflat
      rw [List.length_cons, Nat.succ_mul] at hk hk'
      -- behind a component there are steps enough wherever one is
      have hproceed : ∀ rest' c, Flat rest' → c.isAbsolute = true → rest'.length ≤ rest.length →
          ((Walk.mk t' cwd d).proceed k' rest' c).filter (t.isFile cwd) =
            ((Walk.mk t cwd d).proceed k rest' c).filter (t.isFile cwd) := by
        intro rest' c hflat' hcabs hlength
        have hsteps := Nat.mul_le_mul_right (t.depth + 2) hlength
        exact filter_proceed h h' hgrows hflat' hcabs fun place hplace =>
          ih hflat' hcabs hplace (by omega) (by omega)
      cases hliteral : literal? ts with
      | some name =>
        have hbelow : (below p name).isAbsolute = true := by
          rw [below_of_isAbsolute habs]
          exact (beyond_join habs (hts name hliteral)).isAbsolute.trans habs
        exact filter_expand_literal h' hgrows hliteral hrest hl hbelow
          (hproceed rest _ hrest hbelow le_rfl)
      | none =>
        refine filter_expand_listing h h' hgrows hliteral hflat habs hl hproceed
          fun n hn hplace => ?_
        have hlength := length_le_depth hn
        rw [List.length_append, List.length_singleton] at hlength
        have hsteps := Nat.mul_le_mul_right (t.depth + 2)
          (List.dropWhile_suffix isRecursive (l := rest)).length_le
        have hagain : Flat (ts :: rest.dropWhile isRecursive) :=
          List.forall_mem_cons.mpr ⟨hts, Flat.dropWhile hrest⟩
        -- the `**` goes down by one level of the old tree
        refine ih hagain (isAbsolute_below h habs hn) hplace ?_ ?_
        all_goals
          rw [List.length_cons, Nat.succ_mul, List.length_append, List.length_singleton]
          omega

end Glob.Walk

/-! ### Patterns -/

namespace Glob

open Walk

variable {t t' : FileTree} {cwd : Place} {pattern : List Char} {paths : List Path}

/-- The components of a pattern are texts between slashes. -/
theorem flat_of_mapM {parts : List (List Char)} {patterns : List (List Token)}
    (hslash : ∀ s ∈ parts, '/' ∉ s) (h : parts.mapM parse = .ok patterns) : Flat patterns := by
  intro ts hts name hname
  obtain ⟨s, hs, hread⟩ := exists_of_mem_mapM h hts
  exact eq_of_literal? hread hname ▸ hslash s hs

/-- The components of a pattern have no slashes. -/
theorem slash_not_mem_of_mem_componentsOf {s part : List Char} (h : part ∈ componentsOf s) :
    '/' ∉ part := by
  unfold componentsOf at h
  simp only at h
  split at h
  · exact Text.not_mem_of_mem_splitAt (List.dropLast_subset _ h)
  · exact Text.not_mem_of_mem_splitAt h

/-- **Finding again.**  An absolute pattern finds the old files that it has found before, in the
    same order. -/
theorem filter_find (h : t.Stored) (h' : t'.Stored) (hgrows : Grows t t')
    (habs : pattern.head? = some '/') (hfind : find t cwd pattern = .ok paths) :
    ∃ paths', find t' cwd pattern = .ok paths' ∧
      paths'.filter (t.isFile cwd) = paths.filter (t.isFile cwd) := by
  have habs : (pattern.head? == some '/') = true := by simpa using habs
  obtain ⟨whole, hwhole, hfind⟩ := bind_eq_ok_iff.mp hfind
  obtain ⟨patterns, hpatterns, hfind⟩ := bind_eq_ok_iff.mp hfind
  obtain rfl := Except.ok.inj hfind
  refine ⟨_, bind_eq_ok_iff.mpr ⟨whole, hwhole, bind_eq_ok_iff.mpr ⟨patterns, hpatterns, rfl⟩⟩, ?_⟩
  simp only [habs, Bool.true_and, if_true]
  simp only [habs, if_true] at hpatterns
  generalize hwalked : (if (pattern.drop 1).isEmpty = true then [[]] else patterns) = walked
  have hflat : Flat walked := by
    rw [← hwalked]
    split
    · intro ts hts name hname
      obtain rfl := List.mem_singleton.mp hts
      obtain rfl : [] = name := Option.some.inj hname
      simp
    · exact flat_of_mapM (fun s => slash_not_mem_of_mem_componentsOf) hpatterns
  -- both walks may go as deep as the older tree is, wherever a pattern crosses directories
  have hsteps : ∀ {t₁ : FileTree}, t.depth ≤ t₁.depth →
      walked.length * (t.depth + 2) + (t.depth - List.length ([] : Place)) ≤
        stepsFor t₁ walked.length := by
    intro t₁ hdepth
    have hmul : walked.length * (t.depth + 2) ≤ walked.length * (t₁.depth + 2) :=
      Nat.mul_le_mul_left _ (by omega)
    show _ ≤ (walked.length + 1) * (t₁.depth + 2)
    rw [Nat.succ_mul, List.length_nil]
    omega
  exact filter_expand h h' hgrows hflat rfl rfl (hsteps le_rfl) (hsteps hgrows.depth_le)

end Glob

end DeclarationDocs
