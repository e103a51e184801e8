import DeclarationDocs.Proofs.Glob.Reading
import Mathlib.Data.List.Forall2

namespace DeclarationDocs.Glob

/-!
# Patterns of paths

A pattern of a path describes names, component by component.

* `MatchesNames patterns names` — the description: a `**` stands for any number of names, and
  every other component for one;
* `Route patterns` — components that lead from a directory down to names in it;
* `matchesNames_dropWhile_iff`, `matchesNames_directories_name_iff` — what a walk along a route
  relies on.
-/

/-! ### Component by component -/

/-- Names that components describe; a `**` stands for any number of names. -/
inductive MatchesNames : List (List Token) → List (List Char) → Prop
  | nil : MatchesNames [] []
  | name {ts rest n names} (hts : isRecursive ts = false) (hn : Fits ts n)
      (h : MatchesNames rest names) : MatchesNames (ts :: rest) (n :: names)
  | directories {ts rest names} (hts : isRecursive ts = true) (taken : List (List Char))
      (h : MatchesNames rest names) : MatchesNames (ts :: rest) (taken ++ names)

variable {ts us : List Token} {rest : List (List Token)} {n : List Char}
  {names left : List (List Char)}

/-- An empty route matches no names at all. -/
theorem matchesNames_nil_iff : MatchesNames [] names ↔ names = [] := by
  constructor
  · intro h
    cases h
    rfl
  · rintro rfl
    exact .nil

/-- A component matches one name, and the route goes on behind it. -/
theorem matchesNames_name_iff (hts : isRecursive ts = false) :
    MatchesNames (ts :: rest) names ↔
      ∃ n left, names = n :: left ∧ Fits ts n ∧ MatchesNames rest left := by
  constructor
  · intro h
    cases h with
    | name _ hn h => exact ⟨_, _, rfl, hn, h⟩
    | directories hts' => exact absurd (hts.symm.trans hts') (by simp)
  · rintro ⟨n, left, rfl, hn, h⟩
    exact .name hts hn h

/-- A `**` matches any number of names, and the route goes on behind them. -/
theorem matchesNames_directories_iff (hts : isRecursive ts = true) :
    MatchesNames (ts :: rest) names ↔ ∃ left, left <:+ names ∧ MatchesNames rest left := by
  constructor
  · intro h
    cases h with
    | name hts' => exact absurd (hts'.symm.trans hts) (by simp)
    | directories _ taken h => exact ⟨_, List.suffix_append _ _, h⟩
  · rintro ⟨left, ⟨taken, rfl⟩, h⟩
    exact .directories hts taken h

/-- A `**` behind a `**` describes nothing more. -/
theorem matchesNames_dropWhile_iff (hts : isRecursive ts = true) :
    MatchesNames (ts :: rest) names ↔
      MatchesNames (ts :: rest.dropWhile isRecursive) names := by
  induction rest with
  | nil => rfl
  | cons us rest ih =>
    by_cases hus : isRecursive us = true
    · rw [List.dropWhile_cons_of_pos hus, ← ih, matchesNames_directories_iff hts,
        matchesNames_directories_iff hts]
      simp only [matchesNames_directories_iff hus]
      constructor
      · rintro ⟨left, hleft, left', hleft', h⟩
        exact ⟨left', hleft'.trans hleft, h⟩
      · rintro ⟨left, hleft, h⟩
        exact ⟨left, hleft, left, List.suffix_refl left, h⟩
    · rw [List.dropWhile_cons_of_neg hus]

/-- What a `**` and a component for a name describe: the name itself, or a directory and what
    they describe from there on. -/
theorem matchesNames_directories_name_iff (hts : isRecursive ts = true)
    (hus : isRecursive us = false) :
    MatchesNames (ts :: us :: rest) names ↔
      ∃ n left, names = n :: left ∧
        (Fits us n ∧ MatchesNames rest left ∨ MatchesNames (ts :: us :: rest) left) := by
  rw [matchesNames_directories_iff hts]
  constructor
  · rintro ⟨left, hleft, h⟩
    obtain ⟨n, left, rfl, hn, h⟩ := (matchesNames_name_iff hus).mp h
    cases names with
    | nil => simp at hleft
    | cons n' names =>
      -- the `**` takes no name, or the first one is among those it takes
      refine ⟨n', names, rfl, ?_⟩
      rcases List.suffix_cons_iff.mp hleft with heq | hleft
      · obtain ⟨rfl, rfl⟩ := List.cons.inj heq
        exact .inl ⟨hn, h⟩
      · exact .inr ((matchesNames_directories_iff hts).mpr ⟨_, hleft, .name hus hn h⟩)
  · rintro ⟨n, left, rfl, ⟨hn, h⟩ | h⟩
    · exact ⟨_, List.suffix_refl _, .name hus hn h⟩
    · obtain ⟨left', hleft', h⟩ := (matchesNames_directories_iff hts).mp h
      exact ⟨left', hleft'.trans (List.suffix_cons n left), h⟩

/-- Components without wildcards describe their own names. -/
theorem matchesNames_plain_append_iff {parts : List (List Char)} :
    MatchesNames (parts.map (List.map .char) ++ rest) names ↔
      ∃ left, names = parts ++ left ∧ MatchesNames rest left := by
  induction parts generalizing names with
  | nil => simp
  | cons s r ih =>
    have hliteral : literal? (s.map .char) = some s := literal?_eq_some_iff.mpr rfl
    have hrec : isRecursive (s.map Token.char) = false := by simp [isRecursive]
    rw [List.map_cons, List.cons_append, matchesNames_name_iff hrec]
    simp only [fits_of_literal? hliteral, ih]
    constructor
    · rintro ⟨_, _, rfl, rfl, left, rfl, h⟩
      exact ⟨left, rfl, h⟩
    · rintro ⟨left, rfl, h⟩
      exact ⟨s, r ++ left, rfl, rfl, left, rfl, h⟩

/-- The components `**` and `*` describe whatever is below. -/
theorem matchesNames_everything_iff (hslash : ∀ n ∈ names, '/' ∉ n) :
    MatchesNames [[.directories], [.sequence]] names ↔ names ≠ [] := by
  rw [matchesNames_directories_iff rfl]
  constructor
  · rintro ⟨left, hleft, h⟩ rfl
    obtain rfl := List.suffix_nil.mp hleft
    obtain ⟨n, left, heq, -⟩ := (matchesNames_name_iff rfl).mp h
    exact absurd heq (by simp)
  · intro hne
    obtain ⟨init, n, rfl⟩ := (List.eq_nil_or_concat names).resolve_left hne
    -- the `*` is for the last name, and the `**` for those before it
    refine ⟨[n], by simp, .name rfl ?_ .nil⟩
    have hn : '/' ∉ n := hslash n (by simp)
    exact (fits_sequence_iff hn).mpr ⟨[], List.nil_suffix, .nil⟩

/-- The components of everything that is below a directory. -/
theorem forall₂_parse_everything : List.Forall₂ (fun s ts => parse s = .ok ts)
    [['*', '*'], ['*']] [[.directories], [.sequence]] :=
  .cons (parse_eq_ok_iff.mpr (.last (.inl rfl)))
    (.cons (parse_eq_ok_iff.mpr (.sequence (by simp) .done)) .nil)

/-! ### Routes -/

/-- A component that leads to names only: neither `.` nor `..`, and no text with a slash. -/
structure OnlyNames (ts : List Token) : Prop where
  literal : ∀ name, literal? ts = some name →
    name ≠ [] ∧ name ≠ ['.'] ∧ name ≠ ['.', '.'] ∧ '/' ∉ name
  special : Walk.specialNames ts = []

/-- A text that begins with no dot is read into a component that leads to names. -/
theorem onlyNames_of_parse {s : List Char} (h : parse s = .ok ts) (hne : s ≠ []) (hslash : '/' ∉ s)
    (hdot : s.head? ≠ some '.') : OnlyNames ts where
  literal name hname := by
    obtain rfl := eq_of_literal? h hname
    refine ⟨hne, ?_, ?_, hslash⟩
    · rintro rfl
      exact hdot rfl
    · rintro rfl
      exact hdot rfl
  special := specialNames_eq_nil h hdot

/-- Components of which the last is for a name. -/
inductive Route : List (List Token) → Prop
  | last {ts : List Token} (hts : isRecursive ts = false) (h : OnlyNames ts) : Route [ts]
  | cons {ts : List Token} {rest : List (List Token)} (h : OnlyNames ts) (hrest : Route rest) :
      Route (ts :: rest)

/-- The first component of a route has no `**` within it. -/
theorem Route.onlyNames (h : Route (ts :: rest)) : OnlyNames ts := by
  cases h with
  | last _ h => exact h
  | cons h => exact h

/-- What stands behind the first component is a route. -/
theorem Route.tail (h : Route (ts :: rest)) (hrest : rest ≠ []) : Route rest := by
  cases h with
  | last => exact absurd rfl hrest
  | cons _ h => exact h

/-- Behind the `**` of a route stands a component for a name. -/
theorem Route.dropWhile (h : Route rest) :
    ∃ us rest', rest.dropWhile isRecursive = us :: rest' ∧ isRecursive us = false ∧
      Route (us :: rest') ∧ rest'.length < rest.length := by
  induction h with
  | last hts h =>
    exact ⟨_, [], List.dropWhile_cons_of_neg (by simp [hts]), hts, .last hts h, by simp⟩
  | @cons ts rest h hrest ih =>
    by_cases hts : isRecursive ts = true
    · obtain ⟨us, rest', heq, hus, hroute, hlength⟩ := ih
      refine ⟨us, rest', by rw [List.dropWhile_cons_of_pos hts, heq], hus, hroute, ?_⟩
      exact hlength.trans (by simp)
    · exact ⟨ts, rest, List.dropWhile_cons_of_neg hts, by simpa using hts, .cons h hrest, by simp⟩

/-- Texts that are read into components are accepted. -/
theorem accepted_of_forall₂ {parts : List (List Char)} {patterns : List (List Token)}
    (h : List.Forall₂ (fun s ts => parse s = .ok ts) parts patterns) :
    ∀ s ∈ parts, Accepted s := by
  induction h with
  | nil => simp
  | cons hts _ ih => exact List.forall_mem_cons.mpr ⟨⟨_, hts⟩, ih⟩

/-- Components that begin with no dot are a route if the last of them is no `**`. -/
theorem exists_route {parts : List (List Char)} (hne : parts ≠ [])
    (hparts : ∀ s ∈ parts, s ≠ [] ∧ '/' ∉ s ∧ s.head? ≠ some '.' ∧ Accepted s)
    (hlast : parts.getLast? ≠ some ['*', '*']) :
    ∃ patterns, List.Forall₂ (fun s ts => parse s = .ok ts) parts patterns ∧ Route patterns := by
  induction parts with
  | nil => exact absurd rfl hne
  | cons s r ih =>
    obtain ⟨⟨hs, hslash, hdot, ts, hts⟩, hr⟩ := List.forall_mem_cons.mp hparts
    have honly : OnlyNames ts := onlyNames_of_parse hts hs hslash hdot
    by_cases hnil : r = []
    · subst hnil
      refine ⟨[ts], .cons hts .nil, .last ?_ honly⟩
      rw [Bool.eq_false_iff]
      intro hrec
      -- only the text `**` is read into a `**`
      exact hlast (by rw [eq_of_isRecursive hts hslash hrec]; rfl)
    · rw [List.getLast?_cons_of_ne_nil hnil] at hlast
      obtain ⟨patterns, hpatterns, hroute⟩ := ih hnil hr hlast
      exact ⟨ts :: patterns, .cons hts hpatterns, .cons honly hroute⟩

/-- A route does not end where it begins. -/
theorem Route.ne_nil (h : Route rest) (hm : MatchesNames rest names) : names ≠ [] := by
  induction h generalizing names with
  | last hts =>
    obtain ⟨n, left, rfl, -⟩ := (matchesNames_name_iff hts).mp hm
    simp
  | cons _ _ ih =>
    cases hm with
    | name => simp
    | directories _ taken hm => simp [ih hm]

end DeclarationDocs.Glob
