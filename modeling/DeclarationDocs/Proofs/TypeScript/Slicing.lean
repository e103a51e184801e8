import DeclarationDocs.Proofs.Path.Segments
import DeclarationDocs.Proofs.TypeScript.Finding
import DeclarationDocs.Proofs.TypeScript.Grouping

namespace DeclarationDocs.TypeScript

/-!
# Declarations are slices

The statements of a source text stand in it one behind the other, each as it is written, and the
declarations of a statement have its text.  So every declaration is a slice of the source, its
line counts the line breaks before the slice, and only the bindings of one exported constant share
theirs.

* `Site` — a statement with its place; `Site.In` — it stands there;
* `taken_step` — what one step takes of a text; `exists_sites` — hence the places of all
  statements;
* `placed sites` — declarations with the places of their statements, which are the `declarations` of
  the source;
* `declarations_sliced` — each of them is a slice of the source (`SliceAt`), and slices of different
  sites are `Apart`.
-/

variable {s t : List Char} {found : List Finding} {k : Nat}

/-! ### Places -/

/-- A statement, with the number of characters before it. -/
structure Site where
  start : Nat
  statement : Statement

namespace Site

/-- The place behind the statement. -/
def stop (a : Site) : Nat := a.start + a.statement.text.length

/-- A statement stands in a text at its place, and so does what is found in it. -/
structure In (s : List Char) (a : Site) : Prop where
  slice : a.statement.text <+: s.drop a.start
  ne_nil : a.statement.text ≠ []
  line : a.statement.line = 1 + lineBreaks (s.take a.start)
  orderly : Orderly a.statement.findings
  holds : Holds a.statement.text a.statement.findings

/-- Two statements that do not overlap. -/
def Apart (a b : Site) : Prop := a.stop ≤ b.start ∨ b.stop ≤ a.start

variable {a b : Site}

theorem Apart.symm (h : a.Apart b) : b.Apart a := Or.symm h

/-- Statements that do not overlap begin at different places, since they are not empty. -/
theorem Apart.start_ne (h : a.Apart b) (ha : a.In s) (hb : b.In s) : a.start ≠ b.start := by
  have halength := List.length_pos_iff.mpr ha.ne_nil
  have hblength := List.length_pos_iff.mpr hb.ne_nil
  unfold Apart stop at h
  omega

end Site

/-- Statements stand in a text one behind the other, from a place on. -/
inductive Laid (s : List Char) : Nat → List Site → Prop
  | nil (start : Nat) : Laid s start []
  | cons {start : Nat} {a : Site} {sites : List Site} (hstart : start ≤ a.start) (ha : a.In s)
      (h : Laid s a.stop sites) : Laid s start (a :: sites)

variable {start : Nat} {a b : Site} {sites : List Site}

/-- Each of the `sites` stands in `s`, not before `start`. -/
theorem Laid.mem (h : Laid s start sites) (ha : a ∈ sites) : start ≤ a.start ∧ a.In s := by
  induction h with
  | nil => exact absurd ha List.not_mem_nil
  | @cons start b sites hstart hb _ ih =>
    rcases List.mem_cons.mp ha with rfl | ha
    · exact ⟨hstart, hb⟩
    · obtain ⟨hstop, ha⟩ := ih ha
      unfold Site.stop at hstop
      exact ⟨by omega, ha⟩

/-- What stands from `start` on stands from any earlier place on. -/
theorem Laid.mono (h : Laid s start sites) {from' : Nat} (hle : from' ≤ start) :
    Laid s from' sites := by
  cases h with
  | nil => exact .nil from'
  | cons hstart ha h => exact .cons (hle.trans hstart) ha h

/-- Of two sites the first one ends before the second one starts. -/
theorem Laid.pairwise (h : Laid s start sites) : sites.Pairwise fun a b => a.stop ≤ b.start := by
  induction h with
  | nil => exact .nil
  | cons _ _ hrest ih => exact .cons (fun b hb => (hrest.mem hb).1) ih

/-! ### One step -/

/-- A piece is taken from the head of a text, and what is found is written in it. -/
structure Taken (s : List Char) (k : Nat) (found : List Finding) : Prop where
  pos : 0 < k
  orderly : Orderly found
  holds : Holds (s.take k) found

/-- The line breaks of an append are those of its two parts. -/
theorem lineBreaks_append (s t : List Char) : lineBreaks (s ++ t) = lineBreaks s + lineBreaks t :=
  List.count_append

/-- What is taken behind some text is a statement with that place. -/
theorem Taken.siteIn (h : Taken s k found) (hs : s ≠ []) {line : Nat} {before : List Char}
    (hline : line = 1 + lineBreaks before) :
    Site.In (before ++ s) ⟨before.length, ⟨s.take k, line, found⟩⟩ := by
  refine ⟨?_, ?_, ?_, h.orderly, h.holds⟩
  · rw [List.drop_left]
    exact List.take_prefix k s
  · have hpos := h.pos
    simpa [hs] using Nat.pos_iff_ne_zero.mp hpos
  · rwa [List.take_left]

/-- What is no statement is passed over by at least one character. -/
theorem junkLength_pos (s : List Char) : 0 < junkLength s := by
  unfold junkLength
  split <;> omega

section Step

variable {g : Scope} [g.Regular]

/-- What `piece? g s` reads of `s` is taken from it. -/
theorem taken_piece? (h : piece? g s = some (k, found)) : Taken s k found := by
  unfold piece? at h
  split at h
  · rename_i found' r hstatement
    split at h
    · rename_i hlength
      obtain ⟨rfl, rfl⟩ := Prod.mk.inj (Option.some.inj h)
      have hfound := g.finds_statementHere s found' r hstatement
      obtain ⟨head, tail, rfl, hheld, -⟩ := hfound.held
      refine ⟨by omega, hfound.orderly, ?_⟩
      -- what is taken is what was read, up to the rest
      have htake : (head ++ (tail ++ r)).take ((head ++ (tail ++ r)).length - r.length) =
          head ++ tail := by
        rw [← List.append_assoc]
        exact upTo_append (head ++ tail) r
      rw [htake]
      exact hheld.mono (List.prefix_append head tail).isInfix
    · exact absurd h (by simp)
  · exact absurd h (by simp)

/-- What is found in an unfinished statement stands before the braces that close it. -/
theorem taken_unfinished? (hs : ∃ c ∈ s, isBlank c = false)
    (h : unfinished? g s = some (k, found)) : Taken s k found := by
  unfold unfinished? at h
  simp only at h
  generalize ht : (s.reverse.dropWhile isBlank).reverse = t at h
  have hprefix : t <+: s := ht ▸ Text.dropEndWhile_prefix isBlank s
  have hne : t ≠ [] := by
    rintro rfl
    obtain ⟨c, hc, hblank⟩ := hs
    exact absurd (Text.forall_of_dropEndWhile_eq_nil ht c hc) (by simp [hblank])
  split at h
  · rename_i found' hstatement
    split at h
    · rename_i hbraces
      obtain ⟨rfl, rfl⟩ := Prod.mk.inj (Option.some.inj h)
      have hfound := g.finds_statementHere _ found' [] hstatement
      refine ⟨List.length_pos_iff.mpr hne, hfound.orderly, ?_⟩
      rw [← List.prefix_iff_eq_take.mp hprefix]
      obtain ⟨head, tail, htext, hheld, htail⟩ := hfound.held
      by_cases hnone : found' = []
      · rw [hnone]
        exact holds_nil t
      · have hlength := htail hnone (List.all_eq_true.mp hbraces)
        -- the braces that were added are at least what stands behind all that is found
        have hhead : head <+: t := by
          refine List.prefix_of_prefix_length_le ⟨tail, ?_⟩ (List.prefix_append t ['\n', '\x7d']) ?_
          · simpa using htext.symm
          · have hsum := congrArg List.length htext
            simp only [List.length_append, List.length_cons, List.length_nil] at hsum
            omega
        exact hheld.mono hhead.isInfix
    · exact absurd h (by simp)
  · exact absurd h (by simp)

/-- **One step.**  What is taken at a lexeme is a statement, whole or unfinished, or it is passed
    over and nothing is found in it. -/
theorem taken_step {clean : Bool} {c : Char} (hs : s.head? = some c) (hc : isBlank c = false)
    {piece : Option (Nat × List Finding)}
    (h : (piece? g s).or (if clean then unfinished? g s else none) = piece) :
    Taken s (piece.getD (junkLength s, [])).1 (piece.getD (junkLength s, [])).2 := by
  cases piece with
  | none => exact ⟨junkLength_pos s, orderly_nil, holds_nil _⟩
  | some p =>
    rcases Option.or_eq_some_iff.mp h with h | ⟨-, h⟩
    · exact taken_piece? h
    · split at h
      · exact taken_unfinished? ⟨c, List.mem_of_mem_head? hs, hc⟩ h
      · exact absurd h (by simp)

/-! ### All steps -/

/-- **The places of statements.**  By induction on the steps, with what was passed before: it is
    what the line counts the breaks of. -/
theorem exists_sites (g : Scope) [g.Regular] (k : Nat) (clean : Bool) (line : Nat)
    (before s : List Char) (hline : line = 1 + lineBreaks before) :
    ∃ sites, sites.map Site.statement = statementsFrom g k clean line s ∧
      Laid (before ++ s) before.length sites := by
  induction k generalizing clean line before s with
  | zero => exact ⟨[], rfl, .nil _⟩
  | succ k ih =>
    generalize ht : skipTrivia s = t
    obtain ⟨gap, rfl⟩ : t <:+ s := ht ▸ skipTrivia_suffix s
    simp only [statementsFrom, ht, upTo_append]
    cases t with
    | nil => exact ⟨[], rfl, .nil _⟩
    | cons c r =>
      generalize hp : (piece? g (c :: r)).or (if clean then unfinished? g (c :: r) else none) = p
      have htaken := taken_step rfl (skipTrivia_head ht) hp
      simp only [hp]
      generalize p.getD (junkLength (c :: r), []) = taken at htaken ⊢
      obtain ⟨length, found⟩ := taken
      -- the statement begins behind the trivia, and so does its line
      have hgap : line + lineBreaks gap = 1 + lineBreaks (before ++ gap) := by
        rw [hline, lineBreaks_append, Nat.add_assoc]
      -- what is passed before the next step ends with what was taken
      obtain ⟨sites, hsites, hlaid⟩ := ih (clean && p.isSome)
        (line + lineBreaks gap + lineBreaks ((c :: r).take length))
        (before ++ gap ++ (c :: r).take length) ((c :: r).drop length)
        (by rw [hgap, lineBreaks_append _ ((c :: r).take length), Nat.add_assoc])
      rw [List.append_assoc (before ++ gap), List.take_append_drop, List.length_append] at hlaid
      have hsite := htaken.siteIn (List.cons_ne_nil c r) hgap
      rw [← List.append_assoc]
      exact ⟨_ :: sites, congrArg _ hsites, .cons (by simp) hsite hlaid⟩

/-- The line that names the interpreter holds no line break. -/
theorem exists_interpreterLine (s : List Char) :
    ∃ before, s = before ++ skipInterpreterLine s ∧ lineBreaks before = 0 := by
  unfold skipInterpreterLine
  split
  · rename_i r
    refine ⟨'#' :: '!' :: r.takeWhile fun c => c != '\n', by simp, ?_⟩
    refine List.count_eq_zero.mpr fun hmem => ?_
    have hr : '\n' ∈ r.takeWhile fun c => c != '\n' := by simpa using hmem
    exact absurd (List.mem_takeWhile_imp hr) (by decide)
  · exact ⟨[], rfl, rfl⟩

end Step

/-- **Statements.**  The statements of a text stand in it one behind the other. -/
theorem exists_sites_statements (d : Dialect) (s : List Char) :
    ∃ sites, sites.map Site.statement = statements d s ∧ Laid s 0 sites := by
  obtain ⟨before, hs, hbreaks⟩ := exists_interpreterLine s
  obtain ⟨sites, hsites, hlaid⟩ := exists_sites (.top d s.length) (s.length + 1) true 1 before
    (skipInterpreterLine s) (by rw [hbreaks])
  rw [← hs] at hlaid
  exact ⟨sites, hsites, hlaid.mono (Nat.zero_le _)⟩

/-! ### Declarations -/

/-- The declarations of a statement, with its place. -/
def Site.placed (a : Site) : List (Site × Declaration) := a.statement.declarations.map (a, ·)

/-- The declarations of statements, in the order of a source's declarations, with the places of
    their statements. -/
def placed (sites : List Site) : List (Site × Declaration) :=
  byKind (fun p => p.2.kind) (sites.flatMap Site.placed)

/-- The pairs of `placed sites` are a site and a declaration of its statement. -/
theorem mem_placed {p : Site × Declaration} :
    p ∈ placed sites ↔ p.1 ∈ sites ∧ p.2 ∈ p.1.statement.declarations := by
  obtain ⟨a, x⟩ := p
  simp only [placed, mem_byKind, List.mem_flatMap, Site.placed, List.mem_map]
  constructor
  · rintro ⟨b, hb, y, hy, heq⟩
    obtain ⟨rfl, rfl⟩ := Prod.mk.inj heq
    exact ⟨hb, hy⟩
  · rintro ⟨ha, hx⟩
    exact ⟨a, ha, x, hx, rfl⟩

/-- Without their places, these are the declarations of the source. -/
theorem map_placed {d : Dialect} {source : String}
    (h : sites.map Site.statement = statements d source.toList) :
    (placed sites).map Prod.snd = declarations d source := by
  have hmap : (sites.flatMap Site.placed).map Prod.snd =
      (sites.map Site.statement).flatMap Statement.declarations := by
    rw [List.map_flatMap, List.flatMap_map]
    exact List.flatMap_congr fun a _ => by simp [Site.placed, Function.comp_def]
  rw [placed, map_byKind, hmap, h, declarations]

/-- Every declaration of a source comes from a statement that stands in it. -/
theorem exists_site_of_mem_declarations {d : Dialect} {source : String} {x : Declaration}
    (h : x ∈ declarations d source) :
    ∃ a : Site, a.In source.toList ∧ x ∈ a.statement.declarations := by
  obtain ⟨sites, hsites, hlaid⟩ := exists_sites_statements d source.toList
  rw [← map_placed hsites] at h
  obtain ⟨p, hp, rfl⟩ := List.mem_map.mp h
  obtain ⟨hsite, hx⟩ := mem_placed.mp hp
  exact ⟨p.1, (hlaid.mem hsite).2, hx⟩

/-- **Names of declarations.**  Every declaration that is found in a source text has a name. -/
theorem isName_of_mem_declarations {d : Dialect} {source : String} {x : Declaration}
    (h : x ∈ declarations d source) : IsName x.name.toList := by
  obtain ⟨a, ha, hx⟩ := exists_site_of_mem_declarations h
  obtain ⟨f, hf, rfl⟩ := List.mem_map.mp hx
  rw [String.toList_ofList]
  exact ha.orderly.isName f hf

/-- Two declarations are the bindings of one exported constant. -/
def BoundTogether (p q : Site × Declaration) : Prop :=
  p.1 = q.1 ∧ p.2.kind = .exportedConst ∧ q.2.kind = .exportedConst

/-- Two declarations bound by one statement are so in either order. -/
theorem BoundTogether.symm {p q : Site × Declaration} (h : BoundTogether p q) :
    BoundTogether q p :=
  ⟨h.1.symm, h.2.2, h.2.1⟩

/-- Several declarations of one statement are the bindings of an exported constant. -/
theorem Site.In.pairwise_placed (h : a.In s) : a.placed.Pairwise BoundTogether := by
  unfold Site.placed Statement.declarations
  rw [List.map_map]
  exact List.pairwise_map.mpr (h.orderly.several.imp fun hkinds => ⟨rfl, hkinds⟩)

/-- Declarations of different statements do not overlap, whatever their order. -/
theorem Laid.pairwise_placed (h : Laid s start sites) :
    (placed sites).Pairwise fun p q => p.1.Apart q.1 ∨ BoundTogether p q := by
  have hflat : (sites.flatMap Site.placed).Pairwise fun p q =>
      p.1.Apart q.1 ∨ BoundTogether p q := by
    refine List.pairwise_flatMap.mpr ⟨fun a ha => ?_, h.pairwise.imp fun {a b} hab p hp q hq => ?_⟩
    · exact (h.mem ha).2.pairwise_placed.imp .inr
    · obtain ⟨x, -, rfl⟩ := List.mem_map.mp hp
      obtain ⟨y, -, rfl⟩ := List.mem_map.mp hq
      exact .inl (.inl hab)
  exact (byKind_perm _ _).symm.pairwise hflat (Or.imp Site.Apart.symm BoundTogether.symm)

/-- A declaration has the text that begins at a place of a source, and the line of that place. -/
structure SliceAt (source : List Char) (start : Nat) (x : Declaration) : Prop where
  slice : x.rawText.toList <+: source.drop start
  ne_empty : x.rawText ≠ ""
  line : x.line = 1 + lineBreaks (source.take start)

/-- A declaration is the slice of `s` that its statement is, with the statement's line. -/
theorem Site.In.sliceAt (h : a.In s) {x : Declaration} (hx : x ∈ a.statement.declarations) :
    SliceAt s a.start x := by
  obtain ⟨f, -, rfl⟩ := List.mem_map.mp hx
  exact ⟨by simpa using h.slice, by simpa using h.ne_nil, h.line⟩

/-- **Slices.**  The `statements` of a source have sites, and every declaration is the slice of
    the source at the start of its site (`SliceAt`).  Slices of different sites are `Apart`, and
    only bindings of one exported constant share theirs (`BoundTogether`).  Only classes have
    `decorators` and `implements`, and these contracts are slices of the class. -/
theorem declarations_sliced (d : Dialect) (source : String) :
    ∃ sites : List Site,
      sites.map Site.statement = statements d source.toList ∧
      (placed sites).map Prod.snd = declarations d source ∧
      (∀ p ∈ placed sites, p.1 ∈ sites ∧ p.2 ∈ p.1.statement.declarations ∧
        SliceAt source.toList p.1.start p.2) ∧
      (placed sites).Pairwise (fun p q =>
        (p.1 ≠ q.1 → p.1.Apart q.1) ∧
        (p.1.start = q.1.start → BoundTogether p q)) ∧
      ∀ x ∈ declarations d source,
        (x.kind ≠ .classDecl → x.decorators = [] ∧ x.implements = []) ∧
        ∀ c ∈ x.implements, c.toList <:+: x.rawText.toList := by
  obtain ⟨sites, hsites, hlaid⟩ := exists_sites_statements d source.toList
  refine ⟨sites, hsites, map_placed hsites, fun p hp => ?_, ?_, fun x hx => ?_⟩
  · obtain ⟨hsite, hx⟩ := mem_placed.mp hp
    exact ⟨hsite, hx, (hlaid.mem hsite).2.sliceAt hx⟩
  · refine hlaid.pairwise_placed.imp_of_mem fun {p q} hp hq hpq => ⟨fun hne => ?_, fun heq => ?_⟩
    · exact hpq.resolve_right fun h => hne h.1
    · have hin : ∀ {p}, p ∈ placed sites → p.1.In source.toList := fun hp =>
        (hlaid.mem (mem_placed.mp hp).1).2
      exact hpq.resolve_left fun hapart => hapart.start_ne (hin hp) (hin hq) heq
  · obtain ⟨a, ha, hx⟩ := exists_site_of_mem_declarations hx
    obtain ⟨f, hf, rfl⟩ := List.mem_map.mp hx
    refine ⟨fun hkind => ?_, fun c hc => ?_⟩
    · obtain ⟨hdecorators, himplements⟩ := ha.orderly.bare f hf hkind
      simp [hdecorators, himplements]
    · obtain ⟨contract, hcontract, rfl⟩ := List.mem_map.mp hc
      simpa using ha.holds.contracts f hf contract hcontract

example :
    (declarations .typeScript "\n// two\nexport const b = 1, c = b; // both").map
        (fun x => (x.name, x.rawText, x.line)) =
      [("b", "export const b = 1, c = b;", 3), ("c", "export const b = 1, c = b;", 3)] := by
  decide +kernel

end DeclarationDocs.TypeScript
