import DeclarationDocs.Proofs.FileTree.Proper
import DeclarationDocs.Proofs.Glob.Route

namespace DeclarationDocs.Glob.Walk

open FileTree

/-!
# Where patterns lead in a tree

A walk follows the components of a pattern: it looks for a literal name without listing the
directory, tries the names of the directory for the others, and goes down by one directory for
every step of a `**`.  What it finds are the places whose names the components describe.

* `descend p names` — the path that a walk gives to what has these names below `p`;
* `mem_expand_name_iff`, `mem_expand_directories_iff` — one step of a walk;
* `mem_expand_iff` — with enough steps, a walk finds what is described and nothing else.
-/

variable {w : Walk} {p r : Path} {q q' : Place} {n : List Char} {names : List (List Char)}
  {ts us : List Token} {rest : List (List Token)} {k : Nat}

/-! ### Paths below a path -/

/-- The path to names below a path. -/
def descend (p : Path) (names : List (List Char)) : Path := names.foldl below p

/-- A path that leads to an entry. -/
def LeadsTo (w : Walk) (p : Path) (q : Place) : Prop :=
  ∃ e, w.tree.locate w.cwd p = .ok (q, some e)

/-- Where a path leads there is an entry. -/
theorem LeadsTo.entry (h : w.LeadsTo p q) : w.tree.entry? q ≠ none := by
  obtain ⟨e, h⟩ := h
  simp [(locate_eq_ok h).2]

/-- The path is a directory if that entry is one. -/
theorem LeadsTo.isDirectory_iff (h : w.LeadsTo p q) :
    w.tree.isDirectory w.cwd p = true ↔ w.tree.entry? q = some .directory := by
  obtain ⟨e, h⟩ := h
  rw [isDirectory_of_locate h, (locate_eq_ok h).2, Option.some.injEq]

/-- What `leadsSomewhere` tests is that the path leads to some place. -/
theorem leadsSomewhere_iff : w.leadsSomewhere p = true ↔ ∃ q, w.LeadsTo p q := by
  unfold leadsSomewhere LeadsTo
  split <;> simp_all

/-- A name below a path is followed from where the path leads, also below the current
    directory, which is not written. -/
theorem locate_below_eq_ok_iff {e e' : Option Entry} (hp : w.tree.locate w.cwd p = .ok (q, e'))
    (hne : n ≠ []) (hslash : '/' ∉ n) (hnul : '\x00' ∉ n) :
    w.tree.locate w.cwd (below p n) = .ok (q', e) ↔
      w.tree.follow q n = .ok q' ∧ w.tree.entry? q' = e := by
  unfold below
  split
  · rename_i hdot
    -- the walk began in the current directory, so `n` alone is the path
    obtain rfl : p = ⟨['.']⟩ := by
      cases p
      exact congrArg Path.mk hdot
    have hq : q = w.cwd := (locate_eq_ok hp).1
    have habs : (Path.mk n).isAbsolute = false := Path.not_isAbsolute_of_not_mem hslash
    have hsteps : (Path.mk n).steps = [n] := by
      simp [Path.steps_of_not_mem hslash, hne]
    have hlast : n.getLast? ≠ some '/' := fun h => hslash (List.mem_of_getLast? h)
    rw [locate_eq_ok_iff, hsteps, startOf, habs, hq]
    simp [Usable, hne, hnul, hlast]
  · exact locate_join_eq_ok_iff hp hne hslash hnul

/-- An entry below is led to by its name. -/
theorem LeadsTo.below (h : w.LeadsTo p q) (hproper : w.tree.Proper)
    (he : w.tree.entry? (q ++ [n]) ≠ none) : w.LeadsTo (below p n) (q ++ [n]) := by
  obtain ⟨e', hp⟩ := h
  obtain ⟨e, he'⟩ := Option.ne_none_iff_exists'.mp he
  have hn : ValidName n := hproper.validName he (by simp)
  have hdir := hproper.directory_of_concat he
  exact ⟨e, (locate_below_eq_ok_iff hp hn.1 hn.2.2.2.1 hn.2.2.2.2.1).mpr
    ⟨follow_of_validName hdir hn, he'⟩⟩

/-- The names of an entry lead to it. -/
theorem LeadsTo.descend (h : w.LeadsTo p q) (hproper : w.tree.Proper)
    (he : w.tree.entry? (q ++ names) ≠ none) : w.LeadsTo (Walk.descend p names) (q ++ names) := by
  induction names generalizing p q with
  | nil =>
    rw [List.append_nil]
    exact h
  | cons n names ih =>
    rw [List.append_cons] at he ⊢
    -- what leads on to further names is there, as a directory
    refine ih (h.below hproper ?_) he
    by_cases hnames : names = []
    · simpa [hnames] using he
    · simp [hproper.directory_of_append hnames he]

/-- A literal name leads somewhere if it is a name of the directory. -/
theorem leadsSomewhere_below_iff (h : w.LeadsTo p q) (hproper : w.tree.Proper) (hne : n ≠ [])
    (hdot : n ≠ ['.']) (hdots : n ≠ ['.', '.']) (hslash : '/' ∉ n) :
    w.leadsSomewhere (Walk.below p n) = true ↔ w.tree.entry? (q ++ [n]) ≠ none := by
  constructor
  · intro hsome
    obtain ⟨q', e, hq'⟩ := leadsSomewhere_iff.mp hsome
    obtain ⟨e', hp⟩ := h
    have hnul : '\x00' ∉ n := by
      -- a NUL in the name would be one in the whole path, which was looked up
      have husable := (locate_eq_ok_iff.mp hq').1.2
      have hchars := (locate_eq_ok_iff.mp hp).1.1
      intro hmem
      apply husable
      unfold Walk.below
      split
      · exact hmem
      · rw [Path.chars_join hchars (Path.not_isAbsolute_of_not_mem hslash)]
        split <;> simp [hmem]
    obtain ⟨hfollow, he⟩ := (locate_below_eq_ok_iff hp hne hslash hnul).mp hq'
    have hstep := (follow_eq_ok hfollow).2
    simp only [step, hdot, hdots, if_false] at hstep
    rw [← hstep, he]
    simp
  · intro he
    exact leadsSomewhere_iff.mpr ⟨_, h.below hproper he⟩

/-- What a directory holds is named below it. -/
theorem exists_of_mem_children (hr : r ∈ w.children p) :
    ∃ q n, w.tree.entry? (q ++ [n]) ≠ none ∧ r = below p n := by
  unfold children at hr
  split at hr
  · rename_i q hl
    simp only [List.mem_map, List.mem_mergeSort, mem_namesIn_iff] at hr
    obtain ⟨n, he, rfl⟩ := hr
    exact ⟨q, n, he, rfl⟩
  · exact absurd hr (by simp)

/-- The children of a directory are the entries in it. -/
theorem mem_children_iff (h : w.LeadsTo p q) (hdir : w.tree.entry? q = some .directory) :
    r ∈ w.children p ↔ ∃ n, w.tree.entry? (q ++ [n]) ≠ none ∧ r = below p n := by
  obtain ⟨e, hp⟩ := h
  have he : e = .directory := Option.some.inj ((locate_eq_ok hp).2.symm.trans hdir)
  unfold children
  rw [hp, he]
  simp only [List.mem_map, List.mem_mergeSort, mem_namesIn_iff]
  exact exists_congr fun n => and_congr_right fun _ => eq_comm

/-- The name that a walk went to is the file name of its path. -/
theorem fileName_below (hp : p.chars ≠ []) (hn : ValidName n) : (below p n).fileName = some n := by
  have hslash : '/' ∉ n := hn.2.2.2.1
  have hcomponent := hn.componentOf
  rw [Path.fileName_eq_some_iff]
  unfold below
  split
  · have hcomponents := Path.components_joinSegments (List.cons_ne_nil n [])
      (by simpa using hslash) (by simpa using hcomponent)
    simpa [Path.joinSegments] using congrArg List.getLast? hcomponents
  · simp [Path.components_join hp hslash hcomponent]

/-! ### One step -/

/-- Go on behind a component. -/
def proceed (w : Walk) (k : Nat) (rest : List (List Token)) (p : Path) : List Path :=
  if rest.isEmpty then w.arrive p else w.expand k rest p

/-- Behind the last component nothing else is found than where the walk has arrived. -/
theorem mem_proceed_cases (hr : r ∈ w.proceed k rest p) :
    rest = [] ∧ r = p ∨ rest ≠ [] ∧ r ∈ w.expand k rest p := by
  cases rest with
  | nil =>
    have hr : r ∈ w.arrive p := hr
    unfold arrive at hr
    split at hr
    · exact absurd hr (by simp)
    · exact .inl ⟨rfl, List.mem_singleton.mp hr⟩
  | cons ts rest => exact .inr ⟨List.cons_ne_nil ts rest, hr⟩

/-- A literal component is taken as it is if it leads somewhere. -/
theorem expand_literal {name : List Char} (hts : literal? ts = some name) (hdot : name ≠ ['.'])
    (hdots : name ≠ ['.', '.']) :
    w.expand (k + 1) (ts :: rest) p =
      if w.leadsSomewhere (below p name) then w.proceed k rest (below p name) else [] := by
  rw [expand, hts]
  simp [hdot, hdots, proceed]

/-- For a component with wildcards the children are offered whose names are accepted. -/
theorem mem_expand_name (hts : literal? ts = none) (hrec : isRecursive ts = false)
    (hspecial : specialNames ts = []) (hdir : w.tree.isDirectory w.cwd p = true) :
    r ∈ w.expand (k + 1) (ts :: rest) p ↔
      ∃ c ∈ w.children p, Glob.accepts ts (c.fileName.getD []) = true ∧
        r ∈ w.proceed k rest c := by
  rw [expand, hts]
  simp [hspecial, hdir, hrec, proceed]

/-- For `**` every child is offered to what follows, and gone into if it is a directory. -/
theorem mem_expand_directories {rest' : List (List Token)} (hrec : isRecursive ts = true)
    (hspecial : specialNames ts = []) (hdir : w.tree.isDirectory w.cwd p = true)
    (hdrop : rest.dropWhile isRecursive = us :: rest') :
    r ∈ w.expand (k + 1) (ts :: rest) p ↔
      ∃ c ∈ w.children p,
        (Glob.accepts us (c.fileName.getD []) = true ∧ r ∈ w.proceed k rest' c) ∨
          (w.tree.isDirectory w.cwd c = true ∧ r ∈ w.expand k (ts :: us :: rest') c) := by
  rw [expand, literal?_of_isRecursive hrec]
  simp [hspecial, hdir, hrec, hdrop, proceed]

/-- Nothing is found below a file. -/
theorem expand_of_not_directory (hroute : Route (ts :: rest)) (hproper : w.tree.Proper)
    (h : w.LeadsTo p q) (hdir : w.tree.entry? q ≠ some .directory) :
    w.expand k (ts :: rest) p = [] := by
  cases k with
  | zero => rfl
  | succ k =>
    -- neither a look-up nor a listing finds an entry below what is no directory
    have hnone : ∀ n, w.tree.entry? (q ++ [n]) = none := fun n => by
      by_contra he
      exact hdir (hproper.directory_of_concat he)
    have hnot : w.tree.isDirectory w.cwd p ≠ true := fun hd => hdir (h.isDirectory_iff.mp hd)
    cases hts : literal? ts with
    | some name =>
      obtain ⟨hne, hdot, hdots, hslash⟩ := hroute.onlyNames.literal name hts
      have hlost := (leadsSomewhere_below_iff h hproper hne hdot hdots hslash).not.mpr
        (by simp [hnone])
      rw [expand_literal hts hdot hdots, if_neg hlost]
    | none =>
      rw [expand, hts]
      simp [hnot]

/-- **A step for a name.**  A component that is no `**` leads to the names that fit it. -/
theorem mem_expand_name_iff (hroute : Route (ts :: rest)) (hproper : w.tree.Proper)
    (hrec : isRecursive ts = false) (h : w.LeadsTo p q) :
    r ∈ w.expand (k + 1) (ts :: rest) p ↔
      ∃ n, Fits ts n ∧ w.tree.entry? (q ++ [n]) ≠ none ∧ r ∈ w.proceed k rest (below p n) := by
  have hchars : p.chars ≠ [] := by
    obtain ⟨e, hp⟩ := h
    exact (locate_eq_ok_iff.mp hp).1.1
  by_cases hdir : w.tree.entry? q = some .directory
  · cases hts : literal? ts with
    | some name =>
      obtain ⟨hne, hdot, hdots, hslash⟩ := hroute.onlyNames.literal name hts
      -- a literal name is not listed but looked up, and is the only name that fits
      have hfound := leadsSomewhere_below_iff h hproper hne hdot hdots hslash
      rw [expand_literal hts hdot hdots]
      simp only [fits_of_literal? hts, exists_eq_left, ← hfound]
      split <;> simp_all
    | none =>
      have hdirectories : Token.directories ∉ ts := by simpa [isRecursive] using hrec
      -- every other component is tried on the names of the directory
      rw [mem_expand_name hts hrec hroute.onlyNames.special (h.isDirectory_iff.mpr hdir)]
      simp only [mem_children_iff h hdir]
      constructor
      · rintro ⟨_, ⟨n, he, rfl⟩, haccepts, hr⟩
        have hn : ValidName n := hproper.validName he (by simp)
        rw [fileName_below hchars hn, Option.getD_some,
          accepts_iff_fits hdirectories hn.2.2.2.1] at haccepts
        exact ⟨n, haccepts, he, hr⟩
      · rintro ⟨n, hfits, he, hr⟩
        have hn : ValidName n := hproper.validName he (by simp)
        refine ⟨_, ⟨n, he, rfl⟩, ?_, hr⟩
        rw [fileName_below hchars hn, Option.getD_some, accepts_iff_fits hdirectories hn.2.2.2.1]
        exact hfits
  · rw [expand_of_not_directory hroute hproper h hdir]
    simp only [List.not_mem_nil, false_iff, not_exists, not_and]
    intro n _ he
    exact absurd (hproper.directory_of_concat he) hdir

/-- **A step of a `**`.**  It leads to the names that fit the component behind it, and into
    every directory. -/
theorem mem_expand_directories_iff {rest' : List (List Token)} (hroute : Route (ts :: rest))
    (hproper : w.tree.Proper) (hrec : isRecursive ts = true) (hus : isRecursive us = false)
    (hdrop : rest.dropWhile isRecursive = us :: rest') (h : w.LeadsTo p q) :
    r ∈ w.expand (k + 1) (ts :: rest) p ↔
      ∃ n, w.tree.entry? (q ++ [n]) ≠ none ∧
        (Fits us n ∧ r ∈ w.proceed k rest' (below p n) ∨
          w.tree.entry? (q ++ [n]) = some .directory ∧
            r ∈ w.expand k (ts :: us :: rest') (below p n)) := by
  have hchars : p.chars ≠ [] := by
    obtain ⟨e, hp⟩ := h
    exact (locate_eq_ok_iff.mp hp).1.1
  have hdirectories : Token.directories ∉ us := by simpa [isRecursive] using hus
  by_cases hdir : w.tree.entry? q = some .directory
  · rw [mem_expand_directories hrec hroute.onlyNames.special (h.isDirectory_iff.mpr hdir) hdrop]
    simp only [mem_children_iff h hdir]
    -- what the walk asks about the path of a child, told of its name and its entry
    have hchild : ∀ n, w.tree.entry? (q ++ [n]) ≠ none →
        ((Glob.accepts us ((below p n).fileName.getD []) = true ↔ Fits us n) ∧
          (w.tree.isDirectory w.cwd (below p n) = true ↔
            w.tree.entry? (q ++ [n]) = some .directory)) := by
      intro n he
      have hn : ValidName n := hproper.validName he (by simp)
      rw [fileName_below hchars hn, Option.getD_some, accepts_iff_fits hdirectories hn.2.2.2.1]
      exact ⟨Iff.rfl, (h.below hproper he).isDirectory_iff⟩
    constructor
    · rintro ⟨_, ⟨n, he, rfl⟩, hr⟩
      rw [(hchild n he).1, (hchild n he).2] at hr
      exact ⟨n, he, hr⟩
    · rintro ⟨n, he, hr⟩
      refine ⟨_, ⟨n, he, rfl⟩, ?_⟩
      rw [(hchild n he).1, (hchild n he).2]
      exact hr
  · rw [expand_of_not_directory hroute hproper h hdir]
    simp only [List.not_mem_nil, false_iff, not_exists, not_and]
    intro n he
    exact absurd (hproper.directory_of_concat he) hdir

/-! ### Whole walks -/

/-- What components describe below a path. -/
def Described (w : Walk) (rest : List (List Token)) (p : Path) (q : Place) (r : Path) : Prop :=
  ∃ names, MatchesNames rest names ∧ w.tree.entry? (q ++ names) ≠ none ∧ r = descend p names

/-- Where a described path starts there is an entry. -/
theorem Described.entry (hproper : w.tree.Proper) (h : w.Described rest p q r) :
    w.tree.entry? q ≠ none := by
  obtain ⟨names, -, he, -⟩ := h
  by_cases hnames : names = []
  · simpa [hnames] using he
  · simp [hproper.directory_of_append hnames he]

/-- A route is only described below directories. -/
theorem Described.directory (hproper : w.tree.Proper) (hroute : Route rest)
    (h : w.Described rest p q r) : w.tree.entry? q = some .directory := by
  obtain ⟨names, hnames, he, -⟩ := h
  exact hproper.directory_of_append (hroute.ne_nil hnames) he

/-- A component describes one name, and the rest what is below it. -/
theorem described_name_iff (hrec : isRecursive ts = false) :
    w.Described (ts :: rest) p q r ↔
      ∃ n, Fits ts n ∧ w.Described rest (below p n) (q ++ [n]) r := by
  simp only [Described, matchesNames_name_iff hrec]
  constructor
  · rintro ⟨_, ⟨n, names, rfl, hn, hnames⟩, he, rfl⟩
    exact ⟨n, hn, names, hnames, by simpa using he, rfl⟩
  · rintro ⟨n, hn, names, hnames, he, rfl⟩
    exact ⟨n :: names, ⟨n, names, rfl, hn, hnames⟩, by simpa using he, rfl⟩

/-- A `**` describes the rest from here, or from any directory below. -/
theorem described_directories_iff {rest' : List (List Token)} (hrec : isRecursive ts = true)
    (hus : isRecursive us = false) (hdrop : rest.dropWhile isRecursive = us :: rest') :
    w.Described (ts :: rest) p q r ↔
      ∃ n, Fits us n ∧ w.Described rest' (below p n) (q ++ [n]) r ∨
        w.Described (ts :: us :: rest') (below p n) (q ++ [n]) r := by
  -- the walk drops the `**` that stand behind one
  have hshort : ∀ names, MatchesNames (ts :: rest) names ↔
      MatchesNames (ts :: us :: rest') names := fun names =>
    hdrop ▸ matchesNames_dropWhile_iff hrec
  simp only [Described, hshort]
  constructor
  · rintro ⟨_, hmatch, he, rfl⟩
    obtain ⟨n, names, rfl, h⟩ := (matchesNames_directories_name_iff hrec hus).mp hmatch
    refine ⟨n, h.imp ?_ ?_⟩
    · intro ⟨hn, hnames⟩
      exact ⟨hn, names, hnames, by simpa using he, rfl⟩
    · intro hnames
      exact ⟨names, hnames, by simpa using he, rfl⟩
  · rintro ⟨n, ⟨hn, names, hnames, he, rfl⟩ | ⟨names, hnames, he, rfl⟩⟩
    · refine ⟨n :: names, (matchesNames_directories_name_iff hrec hus).mpr ?_, by simpa using he, rfl⟩
      exact ⟨n, names, rfl, .inl ⟨hn, hnames⟩⟩
    · refine ⟨n :: names, (matchesNames_directories_name_iff hrec hus).mpr ?_, by simpa using he, rfl⟩
      exact ⟨n, names, rfl, .inr hnames⟩

/-- Behind the last component a walk has arrived, and before it it goes on. -/
theorem mem_proceed_iff (hany : w.directoriesOnly = false) (h : w.LeadsTo p q)
    (hrest : rest ≠ [] → (r ∈ w.expand k rest p ↔ w.Described rest p q r)) :
    r ∈ w.proceed k rest p ↔ w.Described rest p q r := by
  unfold proceed
  cases rest with
  | nil =>
    simp only [List.isEmpty_nil, if_true, arrive, hany, Bool.false_and, Bool.false_eq_true,
      if_false, List.mem_singleton, Described, matchesNames_nil_iff]
    constructor
    · rintro rfl
      exact ⟨[], rfl, by simpa using h.entry, rfl⟩
    · rintro ⟨_, rfl, -, rfl⟩
      rfl
  | cons ts rest => exact hrest (by simp)

/-- One step by a name, if the walk goes on as the components describe. -/
theorem mem_expand_name_step (hproper : w.tree.Proper) (hroute : Route (ts :: rest))
    (h : w.LeadsTo p q) (hrec : isRecursive ts = false)
    (hgo : ∀ n, w.tree.entry? (q ++ [n]) ≠ none →
      (r ∈ w.proceed k rest (below p n) ↔ w.Described rest (below p n) (q ++ [n]) r)) :
    r ∈ w.expand (k + 1) (ts :: rest) p ↔ w.Described (ts :: rest) p q r := by
  rw [mem_expand_name_iff hroute hproper hrec h, described_name_iff hrec]
  refine exists_congr fun n => and_congr_right fun _ => ?_
  constructor
  · rintro ⟨he, hr⟩
    exact (hgo n he).mp hr
  · intro hr
    have he := hr.entry hproper
    exact ⟨he, (hgo n he).mpr hr⟩

/-- One step by a `**`, which leaves the component behind it or keeps it and goes down. -/
theorem mem_expand_directories_step {rest' : List (List Token)} (hproper : w.tree.Proper)
    (hroute : Route (ts :: rest)) (h : w.LeadsTo p q) (hrec : isRecursive ts = true)
    (hus : isRecursive us = false) (hdrop : rest.dropWhile isRecursive = us :: rest')
    (hagain : Route (ts :: us :: rest'))
    (hgo : ∀ n, w.tree.entry? (q ++ [n]) ≠ none →
      (r ∈ w.proceed k rest' (below p n) ↔ w.Described rest' (below p n) (q ++ [n]) r))
    (hdown : ∀ n, w.tree.entry? (q ++ [n]) ≠ none →
      (r ∈ w.expand k (ts :: us :: rest') (below p n) ↔
        w.Described (ts :: us :: rest') (below p n) (q ++ [n]) r)) :
    r ∈ w.expand (k + 1) (ts :: rest) p ↔ w.Described (ts :: rest) p q r := by
  rw [mem_expand_directories_iff hroute hproper hrec hus hdrop h,
    described_directories_iff hrec hus hdrop]
  apply exists_congr
  intro n
  constructor
  · rintro ⟨he, ⟨hn, hr⟩ | ⟨-, hr⟩⟩
    · exact .inl ⟨hn, (hgo n he).mp hr⟩
    · exact .inr ((hdown n he).mp hr)
  · rintro (⟨hn, hr⟩ | hr)
    · have he := hr.entry hproper
      exact ⟨he, .inl ⟨hn, (hgo n he).mpr hr⟩⟩
    · have he := hr.entry hproper
      exact ⟨he, .inr ⟨hr.directory hproper hagain, (hdown n he).mpr hr⟩⟩

/-- **Walking.**  With a step for every component and for every directory that may lie below, a
    walk finds the paths of the places that the components describe. -/
theorem mem_expand_iff (hproper : w.tree.Proper) (hany : w.directoriesOnly = false)
    (hroute : Route rest) (h : w.LeadsTo p q)
    (hk : rest.length + (w.tree.depth - q.length) ≤ k) :
    r ∈ w.expand k rest p ↔ w.Described rest p q r := by
  induction k generalizing rest p q with
  | zero =>
    cases hroute <;> simp at hk
  | succ k ih =>
    cases rest with
    | nil => cases hroute
    | cons ts rest =>
      rw [List.length_cons] at hk
      -- one directory further down there is one less below
      have hdeeper : ∀ n, w.tree.entry? (q ++ [n]) ≠ none →
          w.tree.depth - (q ++ [n]).length + 1 = w.tree.depth - q.length := by
        intro n he
        have hlength := length_le_depth he
        rw [List.length_append, List.length_singleton] at hlength ⊢
        omega
      -- behind a name, with the step for its component used up
      have hgo : ∀ {rest' n}, (rest' ≠ [] → Route rest') → rest'.length ≤ rest.length →
          w.tree.entry? (q ++ [n]) ≠ none →
          (r ∈ w.proceed k rest' (below p n) ↔ w.Described rest' (below p n) (q ++ [n]) r) := by
        intro rest' n hroute' hlength he
        have hbelow := h.below hproper he
        refine mem_proceed_iff hany hbelow fun hne => ih (hroute' hne) hbelow ?_
        have := hdeeper n he
        omega
      by_cases hrec : isRecursive ts = true
      · have hrest : rest ≠ [] := by
          rintro rfl
          cases hroute with
          | last hts => exact absurd (hts.symm.trans hrec) (by simp)
          | cons _ hnil => cases hnil
        obtain ⟨us, rest', hdrop, hus, hroute', hlength⟩ := (hroute.tail hrest).dropWhile
        -- a `**` keeps its component and uses up a level of the tree instead
        have hagain : Route (ts :: us :: rest') := .cons hroute.onlyNames hroute'
        have hdown : ∀ n, w.tree.entry? (q ++ [n]) ≠ none →
            (r ∈ w.expand k (ts :: us :: rest') (below p n) ↔
              w.Described (ts :: us :: rest') (below p n) (q ++ [n]) r) := by
          intro n he
          refine ih hagain (h.below hproper he) ?_
          have := hdeeper n he
          simp only [List.length_cons]
          omega
        exact mem_expand_directories_step hproper hroute h hrec hus hdrop hagain
          (fun _ => hgo hroute'.tail hlength.le) hdown
      · have hrec : isRecursive ts = false := by simpa using hrec
        exact mem_expand_name_step hproper hroute h hrec fun _ => hgo hroute.tail le_rfl

end DeclarationDocs.Glob.Walk
