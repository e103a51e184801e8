import DeclarationDocs.Proofs.Glob.Rewalking

namespace DeclarationDocs

open FileTree

/-!
# Patterns that spell a path

A component without wildcards leads to one name, and so does an escaped one.  A pattern of such
components leads nowhere but to the path that it spells, or, with `**` and `*` behind them, to what
lies behind that path.  This holds of paths that lead nowhere as well.

* `Glob.Walk.Exact` — a component for one name; `Glob.Walk.mem_proceed_of_exact` — where it leads;
* `Glob.Walk.exists_of_mem_expand_exact` — where such components lead, one after the other;
* `Glob.steps_of_mem_find` — a pattern without wildcards behind an escaped path;
* `Glob.exists_find_everything` — the pattern for everything below it.
-/

namespace Glob.Walk

variable {w : Walk} {p r : Path} {s x : List Char} {ts : List Token}
  {rest more patterns : List (List Token)} {segs : List (List Char)} {k : Nat}

/-- A component that one text fits and no other. -/
structure Exact (ts : List Token) (s : List Char) : Prop where
  slash : '/' ∉ s
  recursive : isRecursive ts = false
  fits : ∀ x, Fits ts x ↔ x = s

theorem exact_escapedTokens (hslash : '/' ∉ s) : Exact (escapedTokens s) s where
  slash := hslash
  recursive := isRecursive_escapedTokens s
  fits _ := fits_escapedTokens hslash

theorem exact_plain (hslash : '/' ∉ s) : Exact (s.map .char) s where
  slash := hslash
  recursive := by simp [isRecursive]
  fits _ := fits_of_literal? (literal?_eq_some_iff.mpr rfl)

theorem Exact.eq_of_accepts (h : Exact ts s) (hx : '/' ∉ x) (haccepts : Glob.accepts ts x = true) :
    x = s := by
  have hdirectories : Token.directories ∉ ts := by simpa [isRecursive] using h.recursive
  exact (h.fits x).mp ((accepts_iff_fits hdirectories hx).mp haccepts)

/-- **A component for one name** leads to that name alone, whether it is looked up as it is written
    or found among the entries of the directory. -/
theorem mem_proceed_of_exact (hproper : w.tree.Proper) (h : Exact ts s) (habs : p.isAbsolute = true)
    (hr : r ∈ w.expand (k + 1) (ts :: rest) p) : r ∈ w.proceed k rest (p.join ⟨s⟩) := by
  cases hliteral : literal? ts with
  | some name =>
    obtain rfl : name = s := (h.fits name).mp ((fits_of_literal? hliteral).mpr rfl)
    rw [expand_eq_literal hliteral, below_of_isAbsolute habs] at hr
    split at hr
    · exact hr
    · exact absurd hr (by simp)
  | none =>
    -- it is read with wildcards, but of all that is listed it accepts the one name only
    rw [expand_eq_listing hliteral] at hr
    split at hr
    · rcases List.mem_append.mp hr with hr | hr
      · obtain ⟨n, hn, hr⟩ := List.mem_flatMap.mp hr
        obtain ⟨hdots, haccepts⟩ := accepts_of_mem_specialNames hn
        have hslash : '/' ∉ n := by rcases hdots with rfl | rfl <;> decide
        exact h.eq_of_accepts hslash haccepts ▸ hr
      · obtain ⟨c, hc, hr⟩ := List.mem_flatMap.mp hr
        obtain ⟨place, n, he, rfl⟩ := exists_of_mem_children hc
        have hn : ValidName n := hproper.validName he (by simp)
        unfold branch at hr
        rw [if_neg (by simp [h.recursive])] at hr
        obtain ⟨haccepts, hr⟩ := mem_offer_iff.mp hr
        rw [fileName_below (chars_of_isAbsolute habs).1 hn, Option.getD_some] at haccepts
        rw [below_of_isAbsolute habs, h.eq_of_accepts hn.2.2.2.1 haccepts] at hr
        exact hr
    · exact absurd hr (by simp)

/-- By induction on the names: they are gone through one by one before what follows. -/
theorem exists_of_mem_expand_exact (hproper : w.tree.Proper)
    (h : List.Forall₂ Exact patterns segs) (habs : p.isAbsolute = true)
    (hr : r ∈ w.expand k (patterns ++ more) p) :
    ∃ c, Extends p segs c ∧ (more = [] → r = c) ∧ (more ≠ [] → ∃ m, r ∈ w.expand m more c) := by
  induction h generalizing p k with
  | nil =>
    refine ⟨p, ⟨(chars_of_isAbsolute habs).1, (chars_of_isAbsolute habs).2, rfl, by simp⟩, ?_,
      fun _ => ⟨k, hr⟩⟩
    rintro rfl
    rw [List.nil_append, expand_nil] at hr
    exact absurd hr (by simp)
  | @cons ts s patterns segs hts hrest ih =>
    cases k with
    | zero => exact absurd hr (by simp [expand])
    | succ k =>
      have hone := extends_join (chars_of_isAbsolute habs).1 hts.slash
      have hnext := mem_proceed_of_exact hproper hts habs hr
      rcases mem_proceed_cases hnext with ⟨hlast, heq⟩ | ⟨-, hnext⟩
      · -- this was the last one
        obtain ⟨rfl, rfl⟩ := List.append_eq_nil_iff.mp hlast
        cases hrest
        exact ⟨_, hone, fun _ => heq, by simp⟩
      · obtain ⟨c, hc, hmore⟩ := ih (hone.isAbsolute.trans habs) hnext
        refine ⟨c, ⟨hc.ne_nil, hc.ne_current, hc.isAbsolute.trans hone.isAbsolute, ?_⟩, hmore⟩
        rw [hc.steps, hone.steps, List.append_assoc, ← List.filter_append, List.singleton_append]

end Glob.Walk

/-! ### Patterns behind an escaped path -/

namespace Glob

open Walk

variable {t : FileTree} {cwd : Place} {root r : Path} {text : List Char} {paths : List Path}

/-- The components of an escaped path are for one name each. -/
theorem forall₂_exact_segmentsOf (root : Path) :
    List.Forall₂ Exact ((segmentsOf root).map escapedTokens) (segmentsOf root) := by
  rw [List.forall₂_map_left_iff, List.forall₂_same]
  exact fun s hs => exact_escapedTokens (slash_not_mem_segmentsOf hs)

/-- So are those of a text without wildcards. -/
theorem forall₂_exact_plain {parts : List (List Char)} (hslash : ∀ s ∈ parts, '/' ∉ s) :
    List.Forall₂ Exact (parts.map (List.map .char)) parts := by
  rw [List.forall₂_map_left_iff, List.forall₂_same]
  exact fun s hs => exact_plain (hslash s hs)

/-- They are read one by one. -/
theorem mapM_parse_exact (root : Path) {parts : List (List Char)}
    (hplain : ∀ s ∈ parts, ∀ c ∈ s, c ∉ wildcards)
    {more : List (List Char)} {patterns : List (List Token)}
    (hmore : List.Forall₂ (fun s ts => parse s = .ok ts) more patterns) :
    ((segmentsOf root).map escape ++ (parts ++ more)).mapM parse =
      .ok ((segmentsOf root).map escapedTokens ++ (parts.map (List.map .char) ++ patterns)) := by
  refine mapM_eq_ok_iff.mpr (List.rel_append ?_ (List.rel_append ?_ hmore))
  · rw [List.forall₂_map_left_iff, List.forall₂_map_right_iff, List.forall₂_same]
    exact fun s _ => parse_escape s
  · rw [List.forall₂_map_right_iff, List.forall₂_same]
    exact fun s hs => parse_plain (hplain s hs)

/-- What an absolute pattern finds, if its components are known. -/
theorem find_of_absolute {pattern : List Char} {patterns : List (List Token)}
    (hhead : pattern.head? = some '/') (hbody : pattern.drop 1 ≠ [])
    (hread : (componentsOf (pattern.drop 1)).mapM parse = .ok patterns) :
    find t cwd pattern = (parse pattern).map fun _ =>
      (Walk.mk t cwd (pattern.getLast? == some '/')).expand (stepsFor t patterns.length) patterns
        ⟨['/']⟩ := by
  have hhead : (pattern.head? == some '/') = true := by simpa using hhead
  have hempty : (pattern.drop 1).isEmpty = false := by simpa using hbody
  unfold find
  cases parse pattern with
  | error e => rfl
  | ok whole =>
    simp only [bind, Except.bind, Except.map, hhead, if_true, hread, hempty, Bool.and_false,
      Bool.false_eq_true, if_false]

/-- The pattern behind an absolute path, and what is behind its slash. -/
theorem behind_splitAt (habs : root.isAbsolute = true) (hne : text ≠ []) :
    (behind root (Text.splitAt '/' text)).head? = some '/' ∧
      (behind root (Text.splitAt '/' text)).drop 1 ≠ [] := by
  have hhead : ((behind root (Text.splitAt '/' text)).head? == some '/') = true :=
    (head_behind (chars_of_isAbsolute habs).1).trans habs
  refine ⟨by simpa using hhead, fun hnil => ?_⟩
  have hlength := congrArg List.length hnil
  have hpos := List.length_pos_iff.mpr hne
  rw [behind, Path.joinSegments_splitAt] at hlength
  simp only [List.length_drop, List.length_append, List.length_cons, List.length_nil] at hlength
  omega

/-- A text without wildcards behind an absolute path leads to the path that it spells. -/
theorem steps_of_mem_find (hproper : t.Proper) (habs : root.isAbsolute = true)
    (hplain : ∀ c ∈ text, c ∉ wildcards) (hne : text ≠ [])
    (hfind : find t cwd (behind root (Text.splitAt '/' text)) = .ok paths) (hr : r ∈ paths) :
    r.isAbsolute = true ∧ r.steps = root.steps ++ (Text.splitAt '/' text).filter (· != []) := by
  have hroot := (chars_of_isAbsolute habs).1
  have hslash : ∀ s ∈ Text.splitAt '/' text, '/' ∉ s := fun s => Text.not_mem_of_mem_splitAt
  obtain ⟨hhead, hbody⟩ := behind_splitAt habs hne
  have hcomponents := componentsOf_body_behind hroot (Text.splitAt_ne_nil '/' text) hslash
  rw [if_pos habs] at hcomponents
  generalize hparts : (if (Text.splitAt '/' text).getLast? = some [] then
    (Text.splitAt '/' text).dropLast else Text.splitAt '/' text) = parts at hcomponents
  have hsub : ∀ s ∈ parts, s ∈ Text.splitAt '/' text := by
    rw [← hparts]
    split
    · exact fun s => (List.dropLast_subset _ ·)
    · exact fun s => id
  -- the component that is left out is empty
  have hfilter : parts.filter (· != []) = (Text.splitAt '/' text).filter (· != []) := by
    rw [← hparts]
    split
    · rename_i hlast
      obtain ⟨init, hinit⟩ := List.getLast?_eq_some_iff.mp hlast
      rw [hinit, List.dropLast_concat, List.filter_append]
      simp
    · rfl
  have hplain' : ∀ s ∈ parts, ∀ c ∈ s, c ∉ wildcards := fun s hs c hc =>
    hplain c (Text.mem_of_mem_splitAt (hsub s hs) hc)
  have hread := mapM_parse_exact root hplain' .nil
  rw [List.append_nil, List.append_nil, ← hcomponents] at hread
  rw [find_of_absolute hhead hbody hread] at hfind
  obtain ⟨-, -, rfl⟩ := map_eq_ok_iff.mp hfind
  rw [← List.append_nil (_ ++ _)] at hr
  obtain ⟨c, hc, hlast, -⟩ := exists_of_mem_expand_exact hproper
    (List.rel_append (forall₂_exact_segmentsOf root)
      (forall₂_exact_plain fun s hs => hslash s (hsub s hs))) rfl hr
  obtain rfl := hlast rfl
  refine ⟨hc.isAbsolute, ?_⟩
  rw [hc.steps, List.filter_append, hfilter, steps_eq_filter_segmentsOf root]
  rfl

/-- **Everything below a path.**  The pattern for it is accepted, and leads to what lies behind the
    path that is spelled. -/
theorem exists_find_everything (cwd : Place) (hproper : t.Proper) (habs : root.isAbsolute = true)
    (hplain : ∀ c ∈ text, c ∉ wildcards) :
    ∃ paths, find t cwd (behind root (Text.splitAt '/' (text ++ "/**/*".toList))) = .ok paths ∧
      ∀ r ∈ paths, ∃ c, c.isAbsolute = true ∧
        c.steps = root.steps ++ (Text.splitAt '/' text).filter (· != []) ∧ Beyond c r := by
  have hroot := (chars_of_isAbsolute habs).1
  have hsplit : Text.splitAt '/' (text ++ "/**/*".toList) =
      Text.splitAt '/' text ++ [['*', '*'], ['*']] := by
    show Text.splitAt '/' (text ++ '/' :: "**/*".toList) = _
    rw [Text.splitAt_append_cons]
    rfl
  have hslash : ∀ s ∈ Text.splitAt '/' text, '/' ∉ s := fun s => Text.not_mem_of_mem_splitAt
  have hparts : ∀ s ∈ Text.splitAt '/' text, ∀ c ∈ s, c ∉ wildcards := fun s hs c hc =>
    hplain c (Text.mem_of_mem_splitAt hs hc)
  have hslash' : ∀ s ∈ Text.splitAt '/' (text ++ "/**/*".toList), '/' ∉ s :=
    fun s => Text.not_mem_of_mem_splitAt
  have hne : text ++ "/**/*".toList ≠ [] := by simp
  obtain ⟨hhead, hbody⟩ := behind_splitAt habs hne
  have hcomponents := componentsOf_body_behind hroot
    (Text.splitAt_ne_nil '/' (text ++ "/**/*".toList)) hslash'
  rw [if_pos habs, hsplit, if_neg (by simp), ← hsplit] at hcomponents
  have hread := mapM_parse_exact root hparts forall₂_parse_everything
  rw [← hsplit, ← hcomponents] at hread
  obtain ⟨whole, hwhole⟩ : Accepted (behind root (Text.splitAt '/' (text ++ "/**/*".toList))) := by
    refine accepted_behind (Text.splitAt_ne_nil _ _) hslash' fun s hs => ?_
    rw [hsplit] at hs
    rcases List.mem_append.mp hs with hs | hs
    · exact ⟨_, parse_plain (hparts s hs)⟩
    · exact accepted_of_forall₂ forall₂_parse_everything s hs
  refine ⟨_, (find_of_absolute hhead hbody hread).trans (by rw [hwhole]; rfl), fun r hr => ?_⟩
  rw [← List.append_assoc] at hr
  obtain ⟨c, hc, -, hbelow⟩ := exists_of_mem_expand_exact hproper
    (List.rel_append (forall₂_exact_segmentsOf root) (forall₂_exact_plain hslash)) rfl hr
  obtain ⟨m, hr⟩ := hbelow (by simp)
  refine ⟨c, hc.isAbsolute, ?_, beyond_of_mem_expand hproper ?_ hc.isAbsolute hr⟩
  · rw [hc.steps, List.filter_append, steps_eq_filter_segmentsOf root]
    rfl
  · intro ts hts name hname
    rcases List.mem_cons.mp hts with rfl | hts
    · exact absurd hname (by simp [literal?])
    · obtain rfl := List.mem_singleton.mp hts
      exact absurd hname (by simp [literal?])

end Glob

end DeclarationDocs
