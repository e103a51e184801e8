import DeclarationDocs.Proofs.Glob.Matching
import DeclarationDocs.Proofs.Path.Segments
import Mathlib.Data.List.TakeWhile

namespace DeclarationDocs.Glob

/-!
# How patterns are read

The reader of patterns goes from left to right and never back, so what it accepts is described
piece by piece.  Positions only serve the messages.

* `Reads before acc s ts` — the description: `s`, read behind the character `before` and the
  tokens `acc`, gives the tokens `ts`;
* `parseFrom_eq_ok_iff` — the reader accepts what is described;
* `Accepted`, `Accepted.join` — patterns that are no faults, and that they may be written behind
  each other as components;
* `parse_escape`, `parse_plain` — the tokens of escaped texts and of texts without wildcards.
-/

/-- Whether a component begins behind this character. -/
def Begins (before : Option Char) : Prop := before = none ∨ before = some '/'

/-- The characters that are no plain text. -/
def wildcards : List Char := ['?', '*', '[']

/-- The tokens of a text, piece by piece. -/
inductive Reads : Option Char → List Token → List Char → List Token → Prop
  | done {before acc} : Reads before acc [] acc.reverse
  | char {before acc c r ts} (hc : c ∉ wildcards)
      (h : Reads (some c) (.char c :: acc) r ts) : Reads before acc (c :: r) ts
  | anyChar {before acc r ts} (h : Reads (some '?') (.anyChar :: acc) r ts) :
      Reads before acc ('?' :: r) ts
  | sequence {before acc r ts} (hr : r.head? ≠ some '*')
      (h : Reads (some '*') (.sequence :: acc) r ts) : Reads before acc ('*' :: r) ts
  | last {before acc} (hb : Begins before) :
      Reads before acc ['*', '*'] (pushDirectories acc).reverse
  | directories {before acc r ts} (hb : Begins before)
      (h : Reads (some '/') (pushDirectories acc) r ts) : Reads before acc ('*' :: '*' :: '/' :: r) ts
  | within {before acc first more r ts} (hfirst : first ≠ '!') (hmore : ']' ∉ more)
      (h : Reads (some ']') (.within (items (first :: more)) :: acc) r ts) :
      Reads before acc ('[' :: first :: (more ++ ']' :: r)) ts
  | except {before acc first more r ts} (hmore : ']' ∉ more)
      (h : Reads (some ']') (.except (items (first :: more)) :: acc) r ts) :
      Reads before acc ('[' :: '!' :: first :: (more ++ ']' :: r)) ts

variable {before before' : Option Char} {acc acc' ts ts' : List Token} {s r : List Char}

/-- A set ends at the first closing bracket behind its first member. -/
theorem setHere_append {first : Char} {more : List Char} (hmore : ']' ∉ more) :
    setHere (first :: (more ++ ']' :: r)) = some (first :: more) := by
  have htake : (more ++ ']' :: r).takeWhile (· != ']') = more := by
    rw [List.takeWhile_append_of_pos]
    · simp
    · intro c hc
      simpa using ne_of_mem_of_not_mem hc hmore
  simp [setHere, htake]

/-- A set ends at the first `]` behind its first character. -/
theorem eq_of_setHere {set : List Char} (h : setHere s = some set) :
    ∃ first more r, set = first :: more ∧ ']' ∉ more ∧ s = first :: (more ++ ']' :: r) := by
  cases s with
  | nil => exact absurd h (by simp [setHere])
  | cons c r =>
    simp only [setHere] at h
    split at h
    · rename_i hlength
      obtain rfl := Option.some.inj h
      have hcut := List.takeWhile_append_dropWhile (p := (· != ']')) (l := r)
      cases hd : r.dropWhile (· != ']') with
      | nil =>
        rw [hd, List.append_nil] at hcut
        rw [hcut] at hlength
        exact absurd hlength (Nat.lt_irrefl _)
      | cons d rest =>
        -- the first character that was not taken is the bracket
        have hclose : d = ']' := by
          have hhead := List.head_dropWhile_not (· != ']') (by rw [hd]; simp : r.dropWhile _ ≠ [])
          simpa [hd] using hhead
        subst hclose
        refine ⟨c, _, rest, rfl, fun hmem => ?_, ?_⟩
        · exact absurd (List.mem_takeWhile_imp hmem) (by simp)
        · rw [← hd, hcut]
    · exact absurd h (by simp)

/-- What the reader accepts is described. -/
theorem reads_of_parseFrom {i : Nat} (h : parseFrom s i before acc = .ok ts) :
    Reads before acc s ts := by
  -- one case for every clause of the reader; the faults accept nothing
  fun_induction parseFrom s i before acc with
  | case1 =>
    obtain rfl := Except.ok.inj h
    exact .done
  | case2 _ _ _ _ ih => exact .anyChar (ih h)
  | case3 => exact absurd h (by simp)
  | case4 _ _ _ hb =>
    obtain rfl := Except.ok.inj h
    exact .last hb
  | case5 _ _ _ hb _ _ ih => exact .directories hb (ih h)
  | case6 => exact absurd h (by simp)
  | case7 => exact absurd h (by simp)
  | case8 _ _ _ r _ hr ih =>
    -- the clauses before this one are those for two and three stars
    refine .sequence (fun hhead => ?_) (ih h)
    obtain ⟨r', rfl⟩ := List.head?_eq_some_iff.mp hhead
    exact hr r' rfl
  | case9 _ _ _ r set hset ih =>
    obtain ⟨first, more, rest, rfl, hmore, rfl⟩ := eq_of_setHere hset
    refine .except hmore ?_
    simpa using ih h
  | case10 => exact absurd h (by simp)
  | case11 _ _ _ r hr set hset ih =>
    obtain ⟨first, more, rest, rfl, hmore, rfl⟩ := eq_of_setHere hset
    -- a `!` at the start belongs to the clause before
    refine .within (fun hfirst => hr _ (by rw [hfirst])) hmore ?_
    simpa using ih h
  | case12 => exact absurd h (by simp)
  | case13 _ _ _ c r hq hstar₃ hstar₂ hstar hset₂ hset ih =>
    refine .char ?_ (ih h)
    simp only [wildcards, List.mem_cons, List.not_mem_nil, or_false, not_or]
    exact ⟨hq, hstar, hset⟩

/-- What is described is accepted, by induction on the description. -/
theorem parseFrom_of_reads (h : Reads before acc s ts) (i : Nat) :
    parseFrom s i before acc = .ok ts := by
  induction h generalizing i with
  | done => rw [parseFrom]
  | char hc h ih =>
    simp only [wildcards, List.mem_cons, List.not_mem_nil, or_false, not_or] at hc
    obtain ⟨hq, hstar, hset⟩ := hc
    rw [parseFrom]
    · exact ih _
    all_goals simp_all
  | anyChar h ih =>
    rw [parseFrom]
    exact ih _
  | sequence hr h ih =>
    rw [parseFrom]
    · exact ih _
    -- what follows is not read as one of several stars
    · rintro tail rfl
      exact hr rfl
    · rintro tail rfl
      exact hr rfl
  | last hb =>
    rw [parseFrom]
    exact if_pos hb
  | directories hb h ih =>
    rw [parseFrom]
    exact (if_pos hb).trans (ih _)
  | within hfirst hmore h ih =>
    rw [parseFrom]
    · split
      · rename_i set hset
        obtain rfl := Option.some.inj ((setHere_append hmore).symm.trans hset)
        simpa using ih _
      · rename_i hset
        exact absurd ((setHere_append hmore).symm.trans hset) (by simp)
    · rintro rest heq
      exact hfirst (List.cons.inj heq).1
  | except hmore h ih =>
    rw [parseFrom]
    split
    · rename_i set hset
      obtain rfl := Option.some.inj ((setHere_append hmore).symm.trans hset)
      simpa using ih _
    · rename_i hset
      exact absurd ((setHere_append hmore).symm.trans hset) (by simp)

/-- **Reading a pattern.**  The reader accepts what is described, and gives its tokens. -/
theorem parse_eq_ok_iff : parse s = .ok ts ↔ Reads none [] s ts :=
  ⟨reads_of_parseFrom, fun h => parseFrom_of_reads h 0⟩

/-! ### Patterns that are accepted -/

namespace Reads

/-- Another `**` leaves the tokens that were read. -/
theorem prefix_pushDirectories (acc : List Token) :
    acc.reverse <+: (pushDirectories acc).reverse := by
  unfold pushDirectories
  split
  · exact List.prefix_refl _
  · rw [List.reverse_cons]
    exact List.prefix_append _ _

/-- Tokens that were read stay. -/
theorem acc_prefix (h : Reads before acc s ts) : acc.reverse <+: ts := by
  -- every piece puts its token behind what was read
  have hcons : ∀ {t : Token} {acc ts}, (t :: acc).reverse <+: ts → acc.reverse <+: ts := by
    intro t acc ts h
    rw [List.reverse_cons] at h
    exact (List.prefix_append _ _).trans h
  induction h with
  | done => exact List.prefix_refl _
  | last => exact prefix_pushDirectories _
  | directories _ _ ih => exact (prefix_pushDirectories _).trans ih
  | char _ _ ih => exact hcons ih
  | anyChar _ ih => exact hcons ih
  | sequence _ _ ih => exact hcons ih
  | within _ _ _ ih => exact hcons ih
  | except _ _ ih => exact hcons ih

/-- What is read behind other tokens can be read behind these; only `**` has to stand where a
    component begins. -/
theorem behind (h : Reads before acc s ts) (hb : Begins before → Begins before') :
    ∃ ts', Reads before' acc' s ts' := by
  induction h generalizing before' acc' with
  | done => exact ⟨_, .done⟩
  | last hbegins => exact ⟨_, .last (hb hbegins)⟩
  | char hc _ ih => exact (ih id).imp fun _ => .char hc
  | anyChar _ ih => exact (ih id).imp fun _ => .anyChar
  | sequence hr _ ih => exact (ih id).imp fun _ => .sequence hr
  | directories hbegins _ ih => exact (ih id).imp fun _ => .directories (hb hbegins)
  | within hfirst hmore _ ih => exact (ih id).imp fun _ => .within hfirst hmore
  | except hmore _ ih => exact (ih id).imp fun _ => .except hmore

/-- A component may be written behind a pattern. -/
theorem append_slash (h : Reads before acc s ts) (hr : Reads (some '/') acc' r ts') :
    ∃ ts, Reads before acc (s ++ '/' :: r) ts := by
  induction h with
  | done => exact (hr.behind id).imp fun _ => .char (by decide)
  | last hbegins => exact (hr.behind id).imp fun _ => .directories hbegins
  | char hc _ ih => exact ih.imp fun _ => .char hc
  | anyChar _ ih => exact ih.imp fun _ => .anyChar
  | @sequence _ _ r' _ hr _ ih =>
    refine ih.imp fun _ => .sequence ?_
    -- what follows the star is a slash, or what followed it before
    cases r' with
    | nil => simp
    | cons c r' => exact hr
  | directories hbegins _ ih => exact ih.imp fun _ => .directories hbegins
  | within hfirst hmore _ ih =>
    simp only [List.cons_append, List.append_assoc]
    exact ih.imp fun _ => .within hfirst hmore
  | except hmore _ ih =>
    simp only [List.cons_append, List.append_assoc]
    exact ih.imp fun _ => .except hmore

/-- A `**` is only read where a component begins. -/
theorem directories_mem_acc (h : Reads before acc s ts) (hs : '/' ∉ s) (hb : ¬ Begins before)
    (hts : Token.directories ∈ ts) : Token.directories ∈ acc := by
  -- without a slash no component begins again
  have hbehind : ∀ c : Char, c ≠ '/' → ¬ Begins (some c) := by
    intro c hc hbegins
    rcases hbegins with h | h
    · exact absurd h (by simp)
    · exact hc (Option.some.inj h)
  induction h with
  | done => exact List.mem_reverse.mp hts
  | last hbegins => exact absurd hbegins hb
  | directories hbegins => exact absurd hbegins hb
  | @char _ _ c _ _ _ _ ih =>
    obtain ⟨hc, hr⟩ := not_or.mp (List.mem_cons.not.mp hs)
    simpa using ih hr (hbehind c (Ne.symm hc)) hts
  | anyChar _ ih =>
    simpa using ih (fun hmem => hs (List.mem_cons_of_mem _ hmem)) (hbehind '?' (by decide)) hts
  | sequence _ _ ih =>
    simpa using ih (fun hmem => hs (List.mem_cons_of_mem _ hmem)) (hbehind '*' (by decide)) hts
  | within _ _ _ ih =>
    simpa using ih (fun hmem => hs (by simp [hmem])) (hbehind ']' (by decide)) hts
  | except _ _ ih =>
    simpa using ih (fun hmem => hs (by simp [hmem])) (hbehind ']' (by decide)) hts

/-- The first token, if it is a character, is the first character of the text. -/
theorem head_eq {c : Char} (h : Reads before [] s ts) (hts : ts.head? = some (.char c)) :
    s.head? = some c := by
  -- the first token stays the first, whatever is read behind it
  have hfirst : ∀ {t : Token}, [t] <+: ts → t = .char c := by
    rintro t ⟨rest, rfl⟩
    exact Option.some.inj hts
  cases h with
  | done => exact absurd hts (by simp)
  | last => exact absurd hts (by simp [pushDirectories])
  | char _ h => simpa using hfirst h.acc_prefix
  | anyChar h => exact absurd (hfirst h.acc_prefix) (by simp)
  | sequence _ h => exact absurd (hfirst h.acc_prefix) (by simp)
  | directories _ h => exact absurd (hfirst h.acc_prefix) (by simp)
  | within _ _ h => exact absurd (hfirst h.acc_prefix) (by simp)
  | except _ h => exact absurd (hfirst h.acc_prefix) (by simp)

/-- Only plain text gives characters alone. -/
theorem eq_map_char {name : List Char} (h : Reads before acc s ts) (hts : ts = name.map .char) :
    acc.reverse ++ s.map .char = ts := by
  -- a token that was read is among the characters in the end
  have hplain : ∀ {t : Token} {acc}, (t :: acc).reverse <+: ts → ∃ c, t = .char c := by
    intro t acc hprefix
    have hmem : t ∈ name.map .char := hts ▸ hprefix.mem (by simp)
    obtain ⟨c, -, hc⟩ := List.mem_map.mp hmem
    exact ⟨c, hc.symm⟩
  have hpush : ∀ acc, ¬ (pushDirectories acc).reverse <+: ts := by
    intro acc hprefix
    have hmem : Token.directories ∈ pushDirectories acc := by
      unfold pushDirectories
      split <;> simp
    have hmem : Token.directories ∈ name.map .char :=
      hts ▸ hprefix.mem (List.mem_reverse.mpr hmem)
    simp at hmem
  induction h with
  | done => simp
  | last => exact absurd (List.prefix_refl _) (hpush _)
  | directories _ h => exact absurd h.acc_prefix (hpush _)
  | char _ _ ih => simpa using ih hts hplain hpush
  | anyChar h => exact absurd (hplain h.acc_prefix) (by simp)
  | sequence _ h => exact absurd (hplain h.acc_prefix) (by simp)
  | within _ _ h => exact absurd (hplain h.acc_prefix) (by simp)
  | except _ h => exact absurd (hplain h.acc_prefix) (by simp)

end Reads

/-- A pattern in which nothing is wrong. -/
def Accepted (s : List Char) : Prop := ∃ ts, parse s = .ok ts

/-- Two patterns that are accepted are so with a slash between them. -/
theorem Accepted.append_slash (hs : Accepted s) (hr : Accepted r) : Accepted (s ++ '/' :: r) := by
  obtain ⟨ts, hs⟩ := hs
  obtain ⟨ts', hr⟩ := hr
  -- a component begins behind the slash as it does at the start
  obtain ⟨_, hr⟩ : ∃ ts, Reads (some '/') [] r ts :=
    (parse_eq_ok_iff.mp hr).behind fun _ => .inr rfl
  obtain ⟨ts, h⟩ := (parse_eq_ok_iff.mp hs).append_slash hr
  exact ⟨ts, parse_eq_ok_iff.mpr h⟩

/-- Patterns may be put together as components. -/
theorem Accepted.join {parts : List (List Char)} (hne : parts ≠ []) (h : ∀ s ∈ parts, Accepted s) :
    Accepted (Path.joinSegments parts) := by
  induction parts with
  | nil => exact absurd rfl hne
  | cons s r ih =>
    obtain ⟨hs, hr⟩ := List.forall_mem_cons.mp h
    cases r with
    | nil => exact hs
    | cons s' r => exact hs.append_slash (ih (by simp) hr)

/-! ### What tokens tell of the text -/

/-- A pattern is literal if it consists of characters. -/
theorem literal?_eq_some_iff {name : List Char} :
    literal? ts = some name ↔ ts = name.map .char := by
  induction ts generalizing name with
  | nil => cases name <;> simp [literal?]
  | cons t ts ih =>
    cases t with
    | char c =>
      cases name with
      | nil => simp [literal?]
      | cons d r =>
        simp only [literal?, Option.map_eq_some_iff, ih, List.map_cons, List.cons.injEq,
          Token.char.injEq]
        constructor
        · rintro ⟨_, rfl, rfl, rfl⟩
          exact ⟨rfl, rfl⟩
        · rintro ⟨rfl, rfl⟩
          exact ⟨r, rfl, rfl, rfl⟩
    | _ => cases name <;> simp [literal?]

/-- A `**` is not literal. -/
theorem literal?_of_isRecursive (h : isRecursive ts = true) : literal? ts = none := by
  cases hname : literal? ts with
  | none => rfl
  | some name =>
    rw [literal?_eq_some_iff.mp hname] at h
    simp [isRecursive] at h

/-- A pattern without wildcards is its own text. -/
theorem eq_of_literal? {name : List Char} (h : parse s = .ok ts) (hts : literal? ts = some name) :
    s = name := by
  have hname := literal?_eq_some_iff.mp hts
  have heq := (parse_eq_ok_iff.mp h).eq_map_char hname
  rw [List.reverse_nil, List.nil_append, hname] at heq
  exact (List.map_inj_right fun _ _ => Token.char.inj).mp heq

/-- A component that holds a `**` is one. -/
theorem eq_of_isRecursive (h : parse s = .ok ts) (hs : '/' ∉ s) (hts : isRecursive ts = true) :
    s = ['*', '*'] := by
  have hts : Token.directories ∈ ts := by simpa [isRecursive] using hts
  have hbehind : ∀ {c : Char} {t : Token} {r}, Reads (some c) [t] r ts → c ≠ '/' → '/' ∉ r →
      t = .directories := by
    intro c t r h hc hr
    have hnot : ¬ Begins (some c) := by simp [Begins, hc]
    exact (List.mem_singleton.mp (h.directories_mem_acc hr hnot hts)).symm
  cases parse_eq_ok_iff.mp h with
  | done => simp at hts
  | last => rfl
  | directories => simp at hs
  | @char _ _ c r _ _ h =>
    exact absurd (hbehind h (by rintro rfl; simp at hs) fun hmem => hs (by simp [hmem])) (by simp)
  | anyChar h => exact absurd (hbehind h (by decide) fun hmem => hs (by simp [hmem])) (by simp)
  | sequence _ h => exact absurd (hbehind h (by decide) fun hmem => hs (by simp [hmem])) (by simp)
  | within _ _ h => exact absurd (hbehind h (by decide) fun hmem => hs (by simp [hmem])) (by simp)
  | except _ h => exact absurd (hbehind h (by decide) fun hmem => hs (by simp [hmem])) (by simp)

/-- A pattern that does not start with a dot leads to neither `.` nor `..`. -/
theorem specialNames_eq_nil (h : parse s = .ok ts) (hs : s.head? ≠ some '.') :
    Walk.specialNames ts = [] := by
  have hts : ts.head? ≠ some (.char '.') := fun hhead =>
    hs ((parse_eq_ok_iff.mp h).head_eq hhead)
  unfold Walk.specialNames
  split
  · simp at hts
  · rfl

/-! ### Plain and escaped texts -/

/-- A text without wildcards is read character by character. -/
theorem parse_plain (h : ∀ c ∈ s, c ∉ wildcards) : parse s = .ok (s.map .char) := by
  have hreads : ∀ {before acc}, Reads before acc s (acc.reverse ++ s.map .char) := by
    induction s with
    | nil =>
      intro before acc
      simpa using Reads.done
    | cons c r ih =>
      intro before acc
      obtain ⟨hc, hr⟩ := List.forall_mem_cons.mp h
      have hread : Reads (some c) (.char c :: acc) r _ := ih hr
      exact .char hc (by simpa using hread)
  exact parse_eq_ok_iff.mpr hreads

/-- The tokens of an escaped text: a wildcard is the only member of a set. -/
def escapedTokens (s : List Char) : List Token :=
  s.map fun c => if c = '?' ∨ c = '*' ∨ c = '[' ∨ c = ']' then .within [.one c] else .char c

/-- An escaped text is read as the characters that it stands for. -/
theorem parse_escape (s : List Char) : parse (escape s) = .ok (escapedTokens s) := by
  have hreads : ∀ {before acc}, Reads before acc (escape s) (acc.reverse ++ escapedTokens s) := by
    induction s with
    | nil =>
      intro before acc
      simpa [escape, escapedTokens] using Reads.done
    | cons c r ih =>
      intro before acc
      -- a wildcard is escaped as the set of itself
      by_cases hc : c = '?' ∨ c = '*' ∨ c = '[' ∨ c = ']'
      · have hfirst : c ≠ '!' := by rintro rfl; simp at hc
        have hread : Reads before acc ('[' :: c :: ([] ++ ']' :: escape r)) _ :=
          .within hfirst (by simp) ih
        simpa [escape, escapedTokens, hc, items] using hread
      · have hplain : c ∉ wildcards := by
          intro hmem
          simp only [wildcards, List.mem_cons, List.not_mem_nil, or_false] at hmem
          rcases hmem with rfl | rfl | rfl <;> simp at hc
        have hread : Reads before acc (c :: escape r) _ := .char hplain ih
        simpa [escape, escapedTokens, hc] using hread
  exact parse_eq_ok_iff.mpr hreads

/-- An escaped text is no `**`. -/
theorem isRecursive_escapedTokens (s : List Char) : isRecursive (escapedTokens s) = false := by
  simp only [isRecursive, escapedTokens, List.contains_eq_mem, decide_eq_false_iff_not,
    List.mem_map, not_exists, not_and]
  intro c _
  split <;> simp

/-- An escaped name fits itself alone. -/
theorem fits_escapedTokens {x : List Char} (hs : '/' ∉ s) : Fits (escapedTokens s) x ↔ x = s := by
  induction s generalizing x with
  | nil => exact fits_nil_iff
  | cons c r ih =>
    obtain ⟨hc, hr⟩ := not_or.mp (List.mem_cons.not.mp hs)
    have htoken : ∀ d, Token.fits d
        (if c = '?' ∨ c = '*' ∨ c = '[' ∨ c = ']' then .within [.one c] else .char c) = true ↔
          d = c := by
      intro d
      split
      · simp only [Token.fits_within, List.any_cons, List.any_nil, Bool.or_false, Item.holds,
          beq_iff_eq, and_iff_right_iff_imp]
        rintro rfl
        exact Ne.symm hc
      · exact Token.fits_char
    rw [escapedTokens, List.map_cons, fits_cons_iff (by split <;> simp)]
    simp only [htoken]
    constructor
    · rintro ⟨_, _, rfl, rfl, h⟩
      rw [(ih hr).mp h]
    · rintro rfl
      exact ⟨c, r, rfl, rfl, (ih hr).mpr rfl⟩

/-- An escaped text without wildcards is itself. -/
theorem eq_of_literal?_escapedTokens {name : List Char} (hs : '/' ∉ s)
    (h : literal? (escapedTokens s) = some name) : name = s :=
  ((fits_of_literal? h).mp ((fits_escapedTokens hs).mpr rfl)).symm

/-- Texts are escaped part by part. -/
theorem escape_append (s r : List Char) : escape (s ++ r) = escape s ++ escape r :=
  List.flatMap_append

/-- Escaping brings no slash. -/
theorem slash_not_mem_escape (h : '/' ∉ s) : '/' ∉ escape s := by
  simp only [escape, List.mem_flatMap, not_exists, not_and]
  intro c hc
  have hne : '/' ≠ c := fun heq => h (heq ▸ hc)
  split <;> simp [hne]

/-- Slashes are not escaped. -/
theorem escape_joinSegments (parts : List (List Char)) :
    escape (Path.joinSegments parts) = Path.joinSegments (parts.map escape) := by
  induction parts with
  | nil => rfl
  | cons s r ih =>
    cases r with
    | nil => rfl
    | cons s' r =>
      show escape (s ++ '/' :: Path.joinSegments (s' :: r)) = _
      rw [escape_append, ← List.singleton_append, escape_append, ih]
      rfl

/-- Escaping and splitting at slashes may change places. -/
theorem splitAt_escape (s : List Char) :
    Text.splitAt '/' (escape s) = (Text.splitAt '/' s).map escape := by
  have hjoin : escape s = Path.joinSegments ((Text.splitAt '/' s).map escape) := by
    rw [← escape_joinSegments, Path.joinSegments_splitAt]
  rw [hjoin]
  apply Path.splitAt_joinSegments (by simp [Text.splitAt_ne_nil])
  intro part hpart
  obtain ⟨piece, hpiece, rfl⟩ := List.mem_map.mp hpart
  exact slash_not_mem_escape (Text.not_mem_of_mem_splitAt hpiece)

/-- Slashes at the end are dropped before or after escaping. -/
theorem dropEndWhile_escape (s : List Char) :
    Text.dropEndWhile (· == '/') (escape s) = escape (Text.dropEndWhile (· == '/') s) := by
  induction s using List.reverseRecOn with
  | nil => rfl
  | append_singleton s c ih =>
    rw [Text.dropEndWhile_concat, escape_append]
    by_cases hc : c = '/'
    · subst hc
      rw [show escape ['/'] = ['/'] from rfl, Text.dropEndWhile_concat]
      simpa using ih
    · rw [if_neg (by simpa using hc), escape_append]
      -- an escaped character ends in a slash only if it is one
      by_cases hmeta : c = '?' ∨ c = '*' ∨ c = '[' ∨ c = ']'
      · have hset : escape [c] = ['[', c] ++ [']'] := by simp [escape, hmeta]
        rw [hset, ← List.append_assoc, Text.dropEndWhile_concat]
        rfl
      · have hplain : escape [c] = [c] := by simp [escape, hmeta]
        rw [hplain, Text.dropEndWhile_concat, if_neg (by simpa using hc)]

end DeclarationDocs.Glob
