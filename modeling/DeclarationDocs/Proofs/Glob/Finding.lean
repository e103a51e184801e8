import DeclarationDocs.Proofs.Glob.Walking
import DeclarationDocs.Proofs.Results
import DeclarationDocs.Text.WhiteSpace
import Mathlib.Tactic.Ring

namespace DeclarationDocs

open FileTree

/-!
# Finding paths below an escaped path

A pattern is often written behind a path that is escaped, so that the path stands for itself.
The walk first goes along that path, component by component, and then does what the pattern
describes.

* `Walk.mem_expand_escaped_iff` — one escaped component leads where the segment does;
* `Walk.mem_expand_append_iff` — a whole escaped path leads where the path does;
* `Retraceable root` — the paths `root` that can be told from what is found behind them: all but those
  such as `./src`, which a walk writes as `src`;
* `find_behind_eq_ok` — the paths found by a pattern that is written behind an escaped path.
-/

namespace Glob

open Walk

namespace Walk

variable {w : Walk} {p r : Path} {q q' base : Place} {s : List Char} {rest : List (List Token)}
  {k : Nat}

/-! ### One escaped component -/

/-- The special names of a pattern are `.` and `..`, where it accepts them. -/
theorem accepts_of_mem_specialNames {ts : List Token} {n : List Char}
    (h : n ∈ specialNames ts) : (n = ['.'] ∨ n = ['.', '.']) ∧ Glob.accepts ts n = true := by
  unfold specialNames at h
  split at h
  · obtain ⟨hmem, haccepts⟩ := List.mem_filter.mp h
    refine ⟨?_, haccepts⟩
    rcases List.mem_cons.mp hmem with rfl | hmem
    · exact .inr rfl
    · exact .inl (List.mem_singleton.mp hmem)
  · exact absurd h (by simp)

/-- An escaped text has no `**`. -/
theorem directories_not_mem_escapedTokens (s : List Char) :
    Token.directories ∉ escapedTokens s := by
  simpa [isRecursive] using isRecursive_escapedTokens s

/-- An escaped text that is no literal leads to no `.` and no `..`. -/
theorem specialNames_escapedTokens (hslash : '/' ∉ s) (hnone : literal? (escapedTokens s) = none) :
    specialNames (escapedTokens s) = [] := by
  rw [List.eq_nil_iff_forall_not_mem]
  intro n hn
  obtain ⟨hdots, haccepts⟩ := accepts_of_mem_specialNames hn
  have hn : '/' ∉ n := by rcases hdots with rfl | rfl <;> decide
  rw [accepts_iff_fits (directories_not_mem_escapedTokens s) hn, fits_escapedTokens hslash]
    at haccepts
  subst haccepts
  rcases hdots with rfl | rfl <;> exact absurd hnone (by decide)

/-- Where a segment of a path leads: an empty one nowhere else. -/
def SegmentLeads (w : Walk) (q : Place) (s : List Char) (q' : Place) : Prop :=
  if s = [] then q' = q else w.tree.follow q s = .ok q'

/-- An empty segment behind a directory leads to the directory. -/
theorem locate_join_nil (hp : w.tree.locate w.cwd p = .ok (q, some .directory)) :
    w.tree.locate w.cwd (p.join ⟨[]⟩) = .ok (q, some .directory) := by
  obtain ⟨⟨hchars, hnul⟩, hfollow, he, -⟩ := locate_eq_ok_iff.mp hp
  have hrelative : (Path.mk []).isAbsolute = false := rfl
  refine locate_eq_ok_iff.mpr ⟨⟨Path.join_chars_ne_nil hchars hrelative, ?_⟩, ?_, he, by simp⟩
  · rw [Path.chars_join hchars hrelative]
    split <;> simp [hnul]
  · rw [startOf] at hfollow
    rw [Path.steps_join hchars hrelative, startOf, Path.isAbsolute_join hchars hrelative]
    simpa [Path.steps_of_not_mem] using hfollow

/-- A segment leads to a directory: so does the path with the segment behind it. -/
theorem LeadsTo.segment (h : w.LeadsTo p q) (hstart : p.chars = ['.'] → s ≠ [])
    (hslash : '/' ∉ s) (hnul : '\x00' ∉ s) (hdir : w.tree.entry? q = some .directory)
    (hs : w.SegmentLeads q s q') (hdir' : w.tree.entry? q' = some .directory) :
    w.LeadsTo (Walk.below p s) q' := by
  obtain ⟨e, hp⟩ := h
  by_cases hne : s = []
  · subst hne
    obtain rfl : q' = q := by simpa [SegmentLeads] using hs
    have he : e = .directory := Option.some.inj ((locate_eq_ok hp).2.symm.trans hdir)
    refine ⟨.directory, ?_⟩
    rw [Walk.below, if_neg fun hdot => hstart hdot rfl]
    exact locate_join_nil (he ▸ hp)
  · have hfollow : w.tree.follow q s = .ok q' := by simpa [SegmentLeads, hne] using hs
    exact ⟨.directory, (locate_below_eq_ok_iff hp hne hslash hnul).mpr ⟨hfollow, hdir'⟩⟩

/-- **An escaped component.**  It leads where the segment does, whether it is looked up as it is
    written or found among the names of the directory. -/
theorem mem_expand_escaped_iff (hproper : w.tree.Proper) (h : w.LeadsTo p q)
    (hstart : p.chars = ['.'] → s ≠ []) (hslash : '/' ∉ s) (hnul : '\x00' ∉ s)
    (hdir : w.tree.entry? q = some .directory) (hs : w.SegmentLeads q s q')
    (hdir' : w.tree.entry? q' = some .directory) (hrest : rest ≠ []) :
    r ∈ w.expand (k + 1) (escapedTokens s :: rest) p ↔ r ∈ w.expand k rest (below p s) := by
  have hisdir : w.tree.isDirectory w.cwd p = true := h.isDirectory_iff.mpr hdir
  cases hts : literal? (escapedTokens s) with
  | some name =>
    obtain rfl := eq_of_literal?_escapedTokens hslash hts
    have hsome : w.leadsSomewhere (below p name) = true :=
      leadsSomewhere_iff.mpr ⟨q', h.segment hstart hslash hnul hdir hs hdir'⟩
    rw [expand, hts]
    by_cases hspecial : name = ['.'] ∨ name = ['.', '.']
    · simp [hspecial, hisdir, hrest]
    · simp [hspecial, hsome, hrest]
  | none =>
    have hne : s ≠ [] ∧ s ≠ ['.'] ∧ s ≠ ['.', '.'] := by
      refine ⟨?_, ?_, ?_⟩
      all_goals
        rintro rfl
        exact absurd hts (by decide)
    -- a segment with wildcards is one of the names of the directory
    have hfollow : w.tree.follow q s = .ok q' := by simpa [SegmentLeads, hne.1] using hs
    have hq' : q' = q ++ [s] := by
      rw [(follow_eq_ok hfollow).2, step, if_neg hne.2.1, if_neg hne.2.2]
    have hchars : p.chars ≠ [] := by
      obtain ⟨e, hp⟩ := h
      exact (locate_eq_ok_iff.mp hp).1.1
    rw [mem_expand_name hts (isRecursive_escapedTokens s) (specialNames_escapedTokens hslash hts)
      hisdir]
    simp only [mem_children_iff h hdir, proceed, List.isEmpty_iff, hrest, if_false]
    constructor
    · rintro ⟨_, ⟨n, he, rfl⟩, haccepts, hr⟩
      have hn : ValidName n := hproper.validName he (by simp)
      rw [fileName_below hchars hn, Option.getD_some,
        accepts_iff_fits (directories_not_mem_escapedTokens s) hn.2.2.2.1,
        fits_escapedTokens hslash] at haccepts
      exact haccepts ▸ hr
    · intro hr
      have he : w.tree.entry? (q ++ [s]) ≠ none := by simp [← hq', hdir']
      have hn : ValidName s := hproper.validName he (by simp)
      refine ⟨_, ⟨s, he, rfl⟩, ?_, hr⟩
      rw [fileName_below hchars hn, Option.getD_some,
        accepts_iff_fits (directories_not_mem_escapedTokens s) hslash]
      exact (fits_escapedTokens hslash).mpr rfl

/-! ### An escaped path -/

/-- A path that can be followed to a directory starts in one. -/
theorem directory_of_foldlM {t : FileTree} {segs : List (List Char)}
    (h : segs.foldlM t.follow q = .ok base) (hbase : t.entry? base = some .directory) :
    t.entry? q = some .directory := by
  cases segs with
  | nil =>
    obtain rfl := foldlM_nil_eq_ok_iff.mp h
    exact hbase
  | cons s r =>
    obtain ⟨m, hs, -⟩ := foldlM_cons_eq_ok_iff.mp h
    exact (follow_eq_ok hs).1

/-- A path that leads on from `p`: it is absolute if `p` is, and has the segments behind the
    steps of `p`. -/
structure Extends (p : Path) (segs : List (List Char)) (r : Path) : Prop where
  ne_nil : r.chars ≠ []
  ne_current : r.chars ≠ ['.']
  isAbsolute : r.isAbsolute = p.isAbsolute
  steps : r.steps = p.steps ++ segs.filter (· != [])

/-- A name joined to a path extends it by that name. -/
theorem extends_join (hp : p.chars ≠ []) (hslash : '/' ∉ s) : Extends p [s] (p.join ⟨s⟩) where
  ne_nil := Path.join_chars_ne_nil hp (Path.not_isAbsolute_of_not_mem hslash)
  ne_current := by
    have hmem : '/' ∈ (p.join ⟨s⟩).chars := by
      rw [Path.chars_join hp (Path.not_isAbsolute_of_not_mem hslash)]
      split
      · rename_i hlast
        exact List.mem_append_left _ (List.mem_of_getLast? hlast)
      · simp
    intro hdot
    rw [hdot] at hmem
    simp at hmem
  isAbsolute := Path.isAbsolute_join hp (Path.not_isAbsolute_of_not_mem hslash)
  steps := by
    rw [Path.steps_join hp (Path.not_isAbsolute_of_not_mem hslash), Path.steps_of_not_mem hslash]

/-- Going down segment by segment. -/
theorem extends_descend {segs : List (List Char)} (hp : p.chars ≠ []) (hdot : p.chars ≠ ['.'])
    (hslash : ∀ s ∈ segs, '/' ∉ s) : Extends p segs (descend p segs) := by
  induction segs generalizing p with
  | nil => exact ⟨hp, hdot, rfl, by simp [descend]⟩
  | cons s r ih =>
    obtain ⟨hs, hr⟩ := List.forall_mem_cons.mp hslash
    have hone := extends_join hp hs
    have hbelow : below p s = p.join ⟨s⟩ := by rw [below, if_neg hdot]
    have hrest := ih hone.ne_nil hone.ne_current hr
    rw [descend, List.foldl_cons, hbelow]
    refine ⟨hrest.ne_nil, hrest.ne_current, hrest.isAbsolute.trans hone.isAbsolute, ?_⟩
    rw [show List.foldl below (p.join ⟨s⟩) r = descend (p.join ⟨s⟩) r from rfl, hrest.steps,
      hone.steps, List.append_assoc, ← List.filter_append, List.singleton_append]

/-- The last name on the way down is joined to the path before it. -/
theorem descend_concat {names : List (List Char)} {n : List Char}
    (h : (descend p names).chars ≠ ['.']) :
    descend p (names ++ [n]) = (descend p names).join ⟨n⟩ := by
  rw [descend, List.foldl_append]
  show below (descend p names) n = _
  rw [below, if_neg h]

/-- Names below a path are segments of their own at the end. -/
theorem segments_descend {names : List (List Char)} (hp : p.chars ≠ []) (hdot : p.chars ≠ ['.'])
    (hne : names ≠ []) (hnames : ∀ n ∈ names, ValidName n) :
    ∃ segs, (descend p names).segments = segs ++ names ∧ segs.filter (· != []) = p.steps := by
  induction names using List.reverseRecOn with
  | nil => exact absurd rfl hne
  | append_singleton names n ih =>
    have hn : ValidName n := hnames n (by simp)
    have hrest : ∀ m ∈ names, ValidName m := fun m hm => hnames m (by simp [hm])
    have hextends := extends_descend hp hdot fun m hm => (hrest m hm).2.2.2.1
    have hrelative : (Path.mk n).isAbsolute = false := Path.not_isAbsolute_of_not_mem hn.2.2.2.1
    -- joining puts the name behind the segments so far, without a void one at their end
    obtain ⟨segs, hjoin, hsegs⟩ := Path.segments_join hextends.ne_nil hrelative
    rw [Path.segments_of_relative hrelative, Text.splitAt_of_not_mem hn.2.2.2.1] at hjoin
    rw [descend_concat hextends.ne_current, hjoin]
    by_cases hnil : names = []
    · subst hnil
      refine ⟨segs, rfl, ?_⟩
      show _ = (descend p []).steps
      unfold Path.steps
      rcases hsegs with hsegs | ⟨hsegs, -⟩
      · rw [hsegs]
      · simp [hsegs]
    · obtain ⟨segs', hsegments, hsteps⟩ := ih hnil hrest
      -- the last segment so far is a name, so that no slash stands behind it
      have hsame : segs = segs' ++ names := by
        rcases hsegs with hsegs | ⟨hsegs, -⟩
        · rw [← hsegs, hsegments]
        · obtain ⟨init, m, rfl⟩ := (List.eq_nil_or_concat names).resolve_left hnil
          rw [hsegments] at hsegs
          have hlast := congrArg List.getLast? hsegs
          have hm := (hrest m (by simp)).1
          simp at hlast
          exact absurd hlast hm
      exact ⟨segs', by rw [hsame, List.append_assoc], hsteps⟩

/-- Names that are joined spell neither nothing nor the current directory, and end in no slash. -/
theorem joinSegments_names {names : List (List Char)} (hne : names ≠ [])
    (hnames : ∀ n ∈ names, ValidName n) : Path.joinSegments names ≠ [] ∧
      Path.joinSegments names ≠ ['.'] ∧ (Path.joinSegments names).getLast? ≠ some '/' := by
  -- in each of these cases there would be a segment that is no name
  have hsplit := Path.splitAt_joinSegments hne fun n hn => (hnames n hn).2.2.2.1
  refine ⟨fun hnil => ?_, fun hdot => ?_, fun hlast => ?_⟩
  · rw [hnil] at hsplit
    exact (hnames [] (by rw [← hsplit]; simp [Text.splitAt])).1 rfl
  · rw [hdot] at hsplit
    exact (hnames ['.'] (by rw [← hsplit]; simp [Text.splitAt])).2.1 rfl
  · obtain ⟨r, hr⟩ := List.getLast?_eq_some_iff.mp hlast
    rw [hr, Text.splitAt_append_cons] at hsplit
    exact (hnames [] (by rw [← hsplit]; simp [Text.splitAt])).1 rfl

/-- Below the current directory, whose name is not written, names are joined by slashes. -/
theorem descend_current {names : List (List Char)} (hne : names ≠ [])
    (hnames : ∀ n ∈ names, ValidName n) :
    descend ⟨['.']⟩ names = ⟨Path.joinSegments names⟩ := by
  induction names using List.reverseRecOn with
  | nil => exact absurd rfl hne
  | append_singleton names n ih =>
    have hn : ValidName n := hnames n (by simp)
    have hrest : ∀ m ∈ names, ValidName m := fun m hm => hnames m (by simp [hm])
    by_cases hnil : names = []
    · subst hnil
      rfl
    · have hjoined := ih hnil hrest
      obtain ⟨hchars, hdot, hlast⟩ := joinSegments_names hnil hrest
      rw [descend_concat (by rw [hjoined]; exact hdot), hjoined, Path.joinSegments_append hnil
        (List.cons_ne_nil n [])]
      exact congrArg Path.mk ((Path.chars_join hchars
        (Path.not_isAbsolute_of_not_mem hn.2.2.2.1)).trans (if_neg hlast))

/-- **An escaped path.**  The walk along `segs` arrives at the place `base` where they lead; from
    the current directory this asks that the first segment other than `.` is not empty. -/
theorem mem_expand_append_iff (hproper : w.tree.Proper) {segs : List (List Char)}
    (h : w.LeadsTo p q)
    (hp : p.chars = ['.'] → (segs.dropWhile (· == ['.'])).head? ≠ some [])
    (hslash : ∀ s ∈ segs, '/' ∉ s) (hnul : ∀ s ∈ segs, '\x00' ∉ s)
    (hsegs : (segs.filter (· != [])).foldlM w.tree.follow q = .ok base)
    (hbase : w.tree.entry? base = some .directory) (hrest : rest ≠ []) :
    w.LeadsTo (descend p segs) base ∧
      (r ∈ w.expand (k + segs.length) (segs.map escapedTokens ++ rest) p ↔
        r ∈ w.expand k rest (descend p segs)) := by
  induction segs generalizing p q with
  | nil =>
    obtain rfl : q = base := foldlM_nil_eq_ok_iff.mp hsegs
    exact ⟨h, Iff.rfl⟩
  | cons s segs ih =>
    obtain ⟨hs, hslash⟩ := List.forall_mem_cons.mp hslash
    obtain ⟨hsnul, hnul⟩ := List.forall_mem_cons.mp hnul
    have hdir := directory_of_foldlM hsegs hbase
    -- an empty segment is no step of the path, so the walk stays where it is
    obtain ⟨q', hq', hrestsegs⟩ : ∃ q', w.SegmentLeads q s q' ∧
        (segs.filter (· != [])).foldlM w.tree.follow q' = .ok base := by
      by_cases hne : s = []
      · exact ⟨q, by simp [SegmentLeads, hne], by simpa [hne] using hsegs⟩
      · rw [List.filter_cons_of_pos (by simpa using hne)] at hsegs
        obtain ⟨q', hf, hsegs⟩ := foldlM_cons_eq_ok_iff.mp hsegs
        exact ⟨q', by simp [SegmentLeads, hne, hf], hsegs⟩
    have hdir' := directory_of_foldlM hrestsegs hbase
    have hstart : p.chars = ['.'] → s ≠ [] := by
      rintro hdot rfl
      exact hp hdot rfl
    have hbelow := h.segment hstart hs hsnul hdir hq' hdir'
    -- a `.` leaves the walk in the current directory, and from anywhere else it does not get there
    have hnext : (below p s).chars = ['.'] →
        (segs.dropWhile (· == ['.'])).head? ≠ some [] := by
      unfold below
      split
      · rename_i hpdot
        rintro rfl
        exact hp hpdot
      · obtain ⟨e, hl⟩ := h
        exact fun hdot => absurd hdot (extends_join (locate_eq_ok_iff.mp hl).1.1 hs).ne_current
    obtain ⟨hleads, hiff⟩ := ih hbelow hnext hslash hnul hrestsegs
    refine ⟨hleads, Iff.trans ?_ hiff⟩
    exact mem_expand_escaped_iff hproper h hstart hs hsnul hdir hq' hdir' (by simp [hrest])

end Walk

/-! ### Patterns behind an escaped path -/

variable {t : FileTree} {cwd base : Place} {root : Path} {parts : List (List Char)}
  {patterns : List (List Token)}

/-- The segments of a path that a walk follows. -/
def segmentsOf (root : Path) : List (List Char) :=
  let parts := Text.splitAt '/' (Text.dropEndWhile (· == '/') root.chars)
  if root.isAbsolute then parts.drop 1 else parts

/-- The pattern that is `parts` written behind the escaped path `root`. -/
def behind (root : Path) (parts : List (List Char)) : List Char :=
  Text.dropEndWhile (· == '/') (escape root.chars) ++ '/' :: Path.joinSegments parts

/-- The steps of the root are its segments that are not empty. -/
theorem steps_eq_filter_segmentsOf (root : Path) :
    root.steps = (segmentsOf root).filter (· != []) := by
  unfold Path.steps Path.segments segmentsOf
  -- the slashes that were dropped at the end only cut off empty segments
  by_cases habs : root.isAbsolute = true
  · simp only [habs, if_true]
    exact (Text.filter_drop_splitAt_dropEndWhile '/' root.chars le_rfl).symm
  · simp only [habs, Bool.false_eq_true, if_false]
    exact (Text.filter_drop_splitAt_dropEndWhile '/' root.chars (Nat.zero_le 1)).symm

/-- The pattern of an entry is split into the escaped root and the parts of the entry. -/
theorem splitAt_behind (hne : parts ≠ []) (hslash : ∀ s ∈ parts, '/' ∉ s) :
    Text.splitAt '/' (behind root parts) =
      (Text.splitAt '/' (Text.dropEndWhile (· == '/') root.chars)).map escape ++ parts := by
  rw [behind, Text.splitAt_append_cons, dropEndWhile_escape, splitAt_escape,
    Path.splitAt_joinSegments hne hslash]

/-- The whole pattern starts at the root if the path does. -/
theorem head_behind (hroot : root.chars ≠ []) :
    ((behind root parts).head? == some '/') = root.isAbsolute := by
  obtain ⟨ending, hending⟩ := Text.dropEndWhile_prefix (· == '/') root.chars
  rw [behind, dropEndWhile_escape]
  cases hleft : Text.dropEndWhile (· == '/') root.chars with
  | nil =>
    -- nothing is left of slashes alone
    have hall : ∀ c ∈ root.chars, c = '/' := fun c hc => by
      simpa using Text.forall_of_dropEndWhile_eq_nil hleft c hc
    obtain ⟨c, r, hc⟩ := List.exists_cons_of_ne_nil hroot
    obtain rfl : c = '/' := hall c (hc ▸ List.mem_cons_self)
    have habs : root.isAbsolute = true := Path.isAbsolute_iff.mpr ⟨r, hc⟩
    rw [habs]
    rfl
  | cons c r =>
    rw [hleft] at hending
    have habs : root.isAbsolute = (c == '/') := by
      unfold Path.isAbsolute
      rw [← hending]
      by_cases hc : c = '/' <;> simp [hc]
    rw [habs]
    -- an escaped character begins with a bracket, and a slash is not escaped
    by_cases hmeta : c = '?' ∨ c = '*' ∨ c = '[' ∨ c = ']'
    · have hne : c ≠ '/' := by rintro rfl; simp at hmeta
      simp [escape, hmeta, hne]
    · by_cases hc : c = '/'
      · simp [escape, hc]
      · simp [escape, hmeta]

/-- The pieces of the whole pattern, without the empty one before the slash of an absolute one. -/
theorem splitAt_body_behind (hroot : root.chars ≠ []) (hne : parts ≠ [])
    (hslash : ∀ s ∈ parts, '/' ∉ s) :
    Text.splitAt '/' (if root.isAbsolute then (behind root parts).drop 1 else behind root parts) =
      (segmentsOf root).map escape ++ parts := by
  have hsplit : Text.splitAt '/' (behind root parts) = _ := splitAt_behind hne hslash
  by_cases habs : root.isAbsolute = true
  · -- the slash at the start cuts off an empty piece
    have hhead : ((behind root parts).head? == some '/') = root.isAbsolute := head_behind hroot
    rw [habs, beq_iff_eq] at hhead
    obtain ⟨r, hr⟩ := List.head?_eq_some_iff.mp hhead
    have htail : Text.splitAt '/' r = (Text.splitAt '/' (behind root parts)).drop 1 := by
      simp [hr, Text.splitAt]
    have hlength :
        0 < ((Text.splitAt '/' (Text.dropEndWhile (· == '/') root.chars)).map escape).length := by
      rw [List.length_map]
      exact List.length_pos_iff.mpr (Text.splitAt_ne_nil _ _)
    simp only [habs, if_true, segmentsOf]
    rw [hr, List.drop_one, List.tail_cons, htail, hsplit,
      List.drop_append_of_le_length hlength, List.map_drop]
  · simp only [habs, Bool.false_eq_true, if_false, segmentsOf]
    exact hsplit

/-- The components of the whole pattern are those of the path, escaped, and `parts`, of which an
    empty one at the end is none. -/
theorem componentsOf_body_behind (hroot : root.chars ≠ []) (hne : parts ≠ [])
    (hslash : ∀ s ∈ parts, '/' ∉ s) :
    componentsOf (if root.isAbsolute then (behind root parts).drop 1 else behind root parts) =
      (segmentsOf root).map escape ++
        if parts.getLast? = some [] then parts.dropLast else parts := by
  unfold componentsOf
  simp only [splitAt_body_behind hroot hne hslash, List.getLast?_append_of_ne_nil _ hne]
  split
  · exact List.dropLast_append_of_ne_nil hne
  · rfl

/-- So its components are those of the root, escaped, and the parts. -/
theorem componentsOf_behind (hroot : root.chars ≠ []) (hne : parts ≠ [])
    (hparts : ∀ s ∈ parts, s ≠ [] ∧ '/' ∉ s) :
    componentsOf (if root.isAbsolute then (behind root parts).drop 1 else behind root parts) =
      (segmentsOf root).map escape ++ parts := by
  rw [componentsOf_body_behind hroot hne fun s hs => (hparts s hs).2,
    if_neg fun hlast => (hparts [] (List.mem_of_getLast? hlast)).1 rfl]

/-- There is a pattern left behind the slash of an absolute one. -/
theorem body_behind_ne_nil (hroot : root.chars ≠ []) (hne : parts ≠ [])
    (hparts : ∀ s ∈ parts, s ≠ [] ∧ '/' ∉ s) :
    (if root.isAbsolute then (behind root parts).drop 1 else behind root parts) ≠ [] := by
  intro hnil
  have hcomponents := componentsOf_behind hroot hne hparts
  rw [hnil] at hcomponents
  -- an empty pattern has no components
  have hlength := congrArg List.length hcomponents
  have hpos : 0 < parts.length := List.length_pos_iff.mpr hne
  simp only [componentsOf, Text.splitAt, List.getLast?_singleton, if_true, List.dropLast_singleton,
    List.length_nil, List.length_append, List.length_map] at hlength
  omega

/-- The whole pattern ends as its last part does, which is no slash. -/
theorem getLast?_behind_ne (hne : parts ≠ []) (hparts : ∀ s ∈ parts, s ≠ [] ∧ '/' ∉ s) :
    (behind root parts).getLast? ≠ some '/' := by
  intro hlast
  obtain ⟨r, hr⟩ := List.getLast?_eq_some_iff.mp hlast
  have hsplit : Text.splitAt '/' (behind root parts) = _ :=
    splitAt_behind hne fun s hs => (hparts s hs).2
  rw [hr, Text.splitAt_append_cons] at hsplit
  -- behind a slash at the end there would be an empty piece
  have hsplit := congrArg List.getLast? hsplit
  obtain ⟨init, s, rfl⟩ := (List.eq_nil_or_concat parts).resolve_left hne
  have hs := (hparts s (by simp)).1
  simp [Text.splitAt] at hsplit
  exact hs hsplit

/-- No segment of the root has a slash. -/
theorem slash_not_mem_segmentsOf {s : List Char} (h : s ∈ segmentsOf root) : '/' ∉ s := by
  unfold segmentsOf at h
  split at h
  · exact Text.not_mem_of_mem_splitAt (List.mem_of_mem_drop h)
  · exact Text.not_mem_of_mem_splitAt h

/-- No segment of the root has a NUL if the root has none. -/
theorem nul_not_mem_segmentsOf {s : List Char} (hroot : '\x00' ∉ root.chars)
    (h : s ∈ segmentsOf root) : '\x00' ∉ s := by
  have hmem : s ∈ Text.splitAt '/' (Text.dropEndWhile (· == '/') root.chars) := by
    unfold segmentsOf at h
    split at h
    · exact List.mem_of_mem_drop h
    · exact h
  intro hnul
  exact hroot ((Text.dropEndWhile_prefix _ _).mem (Text.mem_of_mem_splitAt hmem hnul))

/-- The first segment of a relative path is not empty. -/
theorem segmentsOf_relative (hroot : root.chars ≠ []) (habs : root.isAbsolute = false) :
    ∃ s r, segmentsOf root = s :: r ∧ s ≠ [] := by
  obtain ⟨ending, hending⟩ := Text.dropEndWhile_prefix (· == '/') root.chars
  obtain ⟨c, rest, hc⟩ := List.exists_cons_of_ne_nil hroot
  have hslash : c ≠ '/' := by
    rintro rfl
    rw [Path.isAbsolute_iff.mpr ⟨rest, hc⟩] at habs
    exact absurd habs (by simp)
  -- the first character is no slash, so it stays when the slashes at the end go
  have hleft : ∃ r, Text.dropEndWhile (· == '/') root.chars = c :: r := by
    cases hleft : Text.dropEndWhile (· == '/') root.chars with
    | nil =>
      have hall := Text.forall_of_dropEndWhile_eq_nil hleft c (by simp [hc])
      exact absurd (by simpa using hall) hslash
    | cons d r =>
      rw [hleft, hc] at hending
      exact ⟨r, by rw [(List.cons.inj hending).1]⟩
  obtain ⟨r, hr⟩ := hleft
  unfold segmentsOf
  simp only [habs, Bool.false_eq_true, if_false, hr, Text.splitAt, hslash]
  cases Text.splitAt '/' r with
  | nil => exact ⟨[c], [], rfl, by simp⟩
  | cons p ps => exact ⟨c :: p, ps, rfl, by simp⟩

/-- Where a walk along an absolute or a relative path starts. -/
def startPath (root : Path) : Path := if root.isAbsolute then ⟨['/']⟩ else ⟨['.']⟩

/-- The path by which the walk behind an escaped path calls its directory. -/
def topOf (root : Path) : Path := Walk.descend (startPath root) (segmentsOf root)

/-- A relative path that does not start with `.` starts with another segment. -/
theorem segmentsOf_ne_current (hroot : root.chars ≠ []) (habs : root.isAbsolute = false)
    (hcurrent : root.components.head? ≠ some .current) :
    ∃ s r, segmentsOf root = s :: r ∧ s ≠ [] ∧ s ≠ ['.'] := by
  obtain ⟨s, r, hsegs, hs⟩ := segmentsOf_relative hroot habs
  refine ⟨s, r, hsegs, hs, ?_⟩
  rintro rfl
  apply hcurrent
  rw [Path.components_eq_of_steps hroot, habs, steps_eq_filter_segmentsOf, hsegs,
    List.filter_cons_of_pos (by simp)]
  rfl

/-- The walk comes to the root as it is written, if that does not begin with `.`. -/
theorem extends_topOf (hroot : root.chars ≠ [])
    (hcurrent : root.components.head? ≠ some .current) :
    (topOf root).chars ≠ [] ∧ (topOf root).chars ≠ ['.'] ∧
      (topOf root).isAbsolute = root.isAbsolute ∧ (topOf root).steps = root.steps := by
  rw [steps_eq_filter_segmentsOf root]
  unfold topOf startPath
  by_cases habs : root.isAbsolute = true
  · have hextends : Extends ⟨['/']⟩ (segmentsOf root) (Walk.descend ⟨['/']⟩ (segmentsOf root)) :=
      extends_descend (by simp) (by simp) fun s => slash_not_mem_segmentsOf
    rw [if_pos habs, habs]
    exact ⟨hextends.ne_nil, hextends.ne_current, hextends.isAbsolute, hextends.steps⟩
  · have habs : root.isAbsolute = false := by simpa using habs
    obtain ⟨s, r, hsegs, hne, hdot⟩ := segmentsOf_ne_current hroot habs hcurrent
    have hslash : ∀ s' ∈ s :: r, '/' ∉ s' := fun s' hs' => by
      rw [← hsegs] at hs'
      exact slash_not_mem_segmentsOf hs'
    obtain ⟨hs, hr⟩ := List.forall_mem_cons.mp hslash
    have hextends : Extends ⟨s⟩ r (Walk.descend ⟨s⟩ r) := extends_descend hne hdot hr
    have hrelative : (Path.mk s).isAbsolute = false := Path.not_isAbsolute_of_not_mem hs
    have hsteps : (Path.mk s).steps = [s] := by
      simp [Path.steps_of_not_mem hs, hne]
    rw [if_neg (by simp [habs]), hsegs, List.filter_cons_of_pos (by simpa using hne), habs]
    refine ⟨hextends.ne_nil, hextends.ne_current, hextends.isAbsolute.trans hrelative, ?_⟩
    exact hextends.steps.trans (by rw [hsteps]; rfl)

/-- A path that can be told from what a walk behind it finds.  A walk does not write a `.` at the
    start, so the path has none there (`src` but not `./src`), or there is nothing else in it (`.`
    or `./.`) and then nothing of it is written. -/
def Retraceable (root : Path) : Prop :=
  root.components.head? ≠ some .current ∨ ∀ s ∈ segmentsOf root, s = ['.']

instance (root : Path) : Decidable (Retraceable root) := inferInstanceAs (Decidable (_ ∨ _))

example : Retraceable ⟨"/p/./q".toList⟩ ∧ Retraceable ⟨"./.".toList⟩ ∧
    ¬ Retraceable ⟨"./src".toList⟩ := by decide

/-- A path that starts with a `.` is relative. -/
theorem not_isAbsolute_of_current (hcurrent : root.components.head? = some .current) :
    root.isAbsolute = false := by
  rw [Bool.eq_false_iff]
  intro habs
  rw [Path.components, if_pos habs] at hcurrent
  exact absurd hcurrent (by simp)

/-- Such a path without any other segments is the current directory, for the walk as well. -/
theorem topOf_of_current (hroot : root.chars ≠ [])
    (hcurrent : root.components.head? = some .current) (hdots : ∀ s ∈ segmentsOf root, s = ['.']) :
    topOf root = ⟨['.']⟩ ∧ root.components = [.current] := by
  have habs := not_isAbsolute_of_current hcurrent
  obtain ⟨s, r, hsegs, -⟩ := segmentsOf_relative hroot habs
  have hstay : ∀ segs : List (List Char), (∀ s ∈ segs, s = ['.']) →
      Walk.descend ⟨['.']⟩ segs = ⟨['.']⟩ := by
    intro segs hsegs
    induction segs with
    | nil => rfl
    | cons s r ih =>
      obtain ⟨rfl, hr⟩ := List.forall_mem_cons.mp hsegs
      exact ih hr
  constructor
  · rw [topOf, startPath, if_neg (by simp [habs])]
    exact hstay _ hdots
  · rw [Path.components_eq_of_steps hroot, habs, steps_eq_filter_segmentsOf]
    rw [hsegs] at hdots ⊢
    obtain ⟨rfl, hr⟩ := List.forall_mem_cons.mp hdots
    have hnone : (r.filter (· != [])).filterMap Path.componentOf = [] := by
      rw [List.filterMap_eq_nil_iff]
      intro n hn
      rw [hr n (List.mem_of_mem_filter hn)]
      rfl
    rw [List.filter_cons_of_pos (by simp)]
    show Component.current :: _ = _
    rw [hnone]

/-- The walk along an escaped path arrives where the path leads, and goes on from there. -/
theorem mem_expand_behind_iff {r : Path} {k : Nat} (hproper : t.Proper)
    (hroot : t.locate cwd root = .ok (base, some .directory)) (hagain : Retraceable root)
    (hne : patterns ≠ []) :
    let w : Walk := ⟨t, cwd, false⟩
    w.LeadsTo (topOf root) base ∧
      (r ∈ w.expand (k + (segmentsOf root).length)
          ((segmentsOf root).map escapedTokens ++ patterns) (startPath root) ↔
        r ∈ w.expand k patterns (topOf root)) := by
  intro w
  obtain ⟨⟨hchars, hnul⟩, hfollow, hbase, -⟩ := locate_eq_ok_iff.mp hroot
  rw [steps_eq_filter_segmentsOf root] at hfollow
  -- the walk starts where the path does
  have hstart : w.LeadsTo (startPath root) (startOf cwd root) := by
    unfold startPath startOf
    by_cases habs : root.isAbsolute = true
    · rw [if_pos habs, if_pos habs]
      exact ⟨.directory, rfl⟩
    · have hcwd : t.entry? cwd = some .directory := by
        rw [startOf, if_neg habs] at hfollow
        exact directory_of_foldlM hfollow hbase
      rw [if_neg habs, if_neg habs]
      refine ⟨.directory, locate_eq_ok_iff.mpr ⟨⟨by simp, by simp⟩, ?_, hcwd, by simp⟩⟩
      have hsteps : (Path.mk ['.']).steps = [['.']] := by decide
      rw [hsteps, startOf, List.foldlM_cons]
      show (t.follow cwd ['.'] >>= _) = _
      rw [follow, hcwd]
      rfl
  -- and it gets away from the current directory by a segment that is not empty, or not at all
  have hleave : (startPath root).chars = ['.'] →
      ((segmentsOf root).dropWhile (· == ['.'])).head? ≠ some [] := by
    intro hdot
    have habs : root.isAbsolute = false := by
      rw [Bool.eq_false_iff]
      intro habs
      rw [startPath, if_pos habs] at hdot
      exact absurd hdot (by simp)
    rcases hagain with hcurrent | hdots
    · obtain ⟨s, rest, hsegs, hs, hne⟩ := segmentsOf_ne_current hchars habs hcurrent
      rw [hsegs, List.dropWhile_cons_of_neg (by simpa using hne)]
      simpa using hs
    · rw [List.dropWhile_eq_nil_iff.mpr fun s hs => by simp [hdots s hs]]
      simp
  exact mem_expand_append_iff hproper hstart hleave (fun s => slash_not_mem_segmentsOf)
    (fun s => nul_not_mem_segmentsOf hnul) hfollow hbase hne

/-- The whole pattern is accepted if its components are. -/
theorem accepted_behind (hne : parts ≠ []) (hslash : ∀ s ∈ parts, '/' ∉ s)
    (hparts : ∀ s ∈ parts, Accepted s) : Accepted (behind root parts) := by
  rw [← Path.joinSegments_splitAt (behind root parts)]
  -- the pattern is put together from its components again
  apply Accepted.join (Text.splitAt_ne_nil _ _)
  intro s hs
  rw [splitAt_behind hne hslash] at hs
  rcases List.mem_append.mp hs with hs | hs
  · obtain ⟨s, -, rfl⟩ := List.mem_map.mp hs
    exact ⟨_, parse_escape s⟩
  · exact hparts s hs

/-- A pattern that does not end in a slash is walked through from its start. -/
theorem find_eq_ok {pattern : List Char} {whole : List Token} {absolute : Bool}
    (hwhole : parse pattern = .ok whole) (hhead : (pattern.head? == some '/') = absolute)
    (hread : (componentsOf (if absolute then pattern.drop 1 else pattern)).mapM parse =
      .ok patterns)
    (hbody : (if absolute then pattern.drop 1 else pattern) ≠ [])
    (hlast : pattern.getLast? ≠ some '/') :
    find t cwd pattern = .ok ((Walk.mk t cwd false).expand (stepsFor t patterns.length) patterns
      (if absolute then ⟨['/']⟩ else ⟨['.']⟩)) := by
  have hany : (pattern.getLast? == some '/') = false := by simpa using hlast
  have hempty : (if absolute then pattern.drop 1 else pattern).isEmpty = false := by
    simpa using hbody
  unfold find
  rw [hwhole]
  simp only [bind, Except.bind, hhead, hread, hany, hempty, Bool.and_false, Bool.false_eq_true,
    if_false]

/-- There are steps enough for every component and every level of the tree. -/
theorem le_stepsFor (t : FileTree) (n : Nat) : n + t.depth ≤ stepsFor t n := by
  have hproduct : stepsFor t n = n * t.depth + 2 * n + t.depth + 2 := by
    show (n + 1) * (t.depth + 2) = _
    ring
  omega

/-- **Finding.**  A pattern behind an escaped path finds what its components describe below the
    directory that the path leads to. -/
theorem find_behind_eq_ok (hproper : t.Proper)
    (hroot : t.locate cwd root = .ok (base, some .directory)) (hagain : Retraceable root)
    (hparts : ∀ s ∈ parts, s ≠ [] ∧ '/' ∉ s)
    (hpatterns : List.Forall₂ (fun s ts => parse s = .ok ts) parts patterns)
    (hroute : Route patterns) :
    ∃ paths, find t cwd (behind root parts) = .ok paths ∧ ∀ r, r ∈ paths ↔
      (Walk.mk t cwd false).Described patterns (topOf root) base r := by
  have hchars : root.chars ≠ [] := (locate_eq_ok_iff.mp hroot).1.1
  have hne : patterns ≠ [] := by cases hroute <;> simp
  have hneparts : parts ≠ [] := by
    rintro rfl
    cases hpatterns
    exact hne rfl
  have hslash : ∀ s ∈ parts, '/' ∉ s := fun s hs => (hparts s hs).2
  obtain ⟨whole, hwhole⟩ : Accepted (behind root parts) :=
    accepted_behind hneparts hslash (accepted_of_forall₂ hpatterns)
  -- the escaped segments are read as themselves, the parts as they are
  have hread : ((segmentsOf root).map escape ++ parts).mapM parse =
      .ok ((segmentsOf root).map escapedTokens ++ patterns) := by
    refine mapM_eq_ok_iff.mpr (List.rel_append ?_ hpatterns)
    rw [List.forall₂_map_left_iff, List.forall₂_map_right_iff, List.forall₂_same]
    exact fun s _ => parse_escape s
  have hcomponents := componentsOf_behind hchars hneparts hparts
  have hbody := body_behind_ne_nil hchars hneparts hparts
  have hlast : (behind root parts).getLast? ≠ some '/' := getLast?_behind_ne hneparts hparts
  refine ⟨_, find_eq_ok hwhole (head_behind hchars) (by rw [hcomponents, hread]) hbody hlast,
    fun r => ?_⟩
  -- the steps suffice for the escaped path and for whatever lies below
  obtain ⟨k, hk⟩ := Nat.exists_eq_add_of_le
    (le_stepsFor t ((segmentsOf root).map escapedTokens ++ patterns).length)
  have hsteps : stepsFor t ((segmentsOf root).map escapedTokens ++ patterns).length =
      patterns.length + t.depth + k + (segmentsOf root).length := by
    rw [hk, List.length_append, List.length_map]
    omega
  rw [hsteps]
  obtain ⟨htop, hiff⟩ := mem_expand_behind_iff hproper hroot hagain hne
  refine hiff.trans (mem_expand_iff hproper rfl hroute htop ?_)
  show patterns.length + (t.depth - base.length) ≤ _
  omega

end Glob

end DeclarationDocs
