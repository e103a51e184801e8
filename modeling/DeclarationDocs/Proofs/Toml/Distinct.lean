import DeclarationDocs.Proofs.Lookup
import DeclarationDocs.Toml.Document

namespace DeclarationDocs.Toml

/-!
# The keys of a TOML document

No table of a document has a key twice: a key that is there is never added again, and a table that
is gone into is put back in its place.

* `Distinct` — a value in whose tables no key occurs twice;
* `Node.Distinct`, `Proper` — the same for tables under construction;
* `proper_putDotted`, `proper_atPath` — what a pair and a header keep;
* `DistinctAt`, `distinctAt` — values, by induction on the steps;
* `distinct_parse` — a whole document.
-/

/-- No table of a value has a key twice. -/
inductive Distinct : Toml → Prop where
  | text (s : String) : Distinct (.text s)
  | integer (i : Int) : Distinct (.integer i)
  | float (x : Float) : Distinct (.float x)
  | bool (b : Bool) : Distinct (.bool b)
  | date : Distinct .date
  | array {vs : List Toml} (h : ∀ v ∈ vs, Distinct v) : Distinct (.array vs)
  | table {ms : List (String × Toml)} (hkeys : DistinctKeys ms) (h : ∀ m ∈ ms, Distinct m.2) :
    Distinct (.table ms)

/-- No table that is or comes below a node has a key twice. -/
inductive Node.Distinct : Node → Prop where
  | value {v : Toml} (h : v.Distinct) : Distinct (.value v)
  | table {o : TableOrigin} {ms : Members} (hkeys : DistinctKeys ms)
      (h : ∀ m ∈ ms, Distinct m.2) : Distinct (.table o ms)
  | tables {items : List Members} (hkeys : ∀ ms ∈ items, DistinctKeys ms)
      (h : ∀ ms ∈ items, ∀ m ∈ ms, Distinct m.2) : Distinct (.tables items)

/-- Members of which no key occurs twice, neither here nor below. -/
structure Proper (ms : Members) : Prop where
  keys : DistinctKeys ms
  below : ∀ m ∈ ms, m.2.Distinct

section Members

variable {ms ms' : Members} {k : String} {n : Node} {o : TableOrigin} {items : List Members}

/-- No members have no key twice. -/
theorem proper_nil : Proper [] := ⟨distinctKeys_nil, fun _ h => absurd h (by simp)⟩

/-- A table has distinct keys if its members are `Proper`. -/
theorem distinct_table (h : Proper ms) : (Node.table o ms).Distinct := .table h.keys h.below

/-- The members of such a table are `Proper`. -/
theorem Node.Distinct.proper (h : (Node.table o ms).Distinct) : Proper ms := by
  cases h with
  | table hkeys h => exact ⟨hkeys, h⟩

/-- Of a list of tables the last one is as proper as the others. -/
theorem Node.Distinct.last (h : (Node.tables items).Distinct) :
    Proper (items.getLast?.getD []) := by
  cases h with
  | tables hkeys h =>
    cases hlast : items.getLast? with
    | none => exact proper_nil
    | some last =>
      have hmem := List.mem_of_getLast? hlast
      exact ⟨hkeys last hmem, h last hmem⟩

/-- Another table can take the place of the last one, or come behind it. -/
theorem Node.Distinct.concat (h : (Node.tables items).Distinct) {kept : List Members}
    (hkept : kept ⊆ items) (hms : Proper ms) :
    (Node.tables (kept ++ [ms])).Distinct := by
  cases h with
  | tables hkeys h =>
    refine .tables ?_ ?_
    · intro ms' hmem
      rcases List.mem_append.mp hmem with hmem | hmem
      · exact hkeys ms' (hkept hmem)
      · exact List.mem_singleton.mp hmem ▸ hms.keys
    · intro ms' hmem
      rcases List.mem_append.mp hmem with hmem | hmem
      · exact h ms' (hkept hmem)
      · exact List.mem_singleton.mp hmem ▸ hms.below

/-- A member with a new key may be put behind the others. -/
theorem Proper.concat (h : Proper ms) (hk : ms.lookup k = none) (hn : n.Distinct) :
    Proper (ms ++ [(k, n)]) where
  keys := h.keys.concat hk n
  below := by
    intro m hm
    rcases List.mem_append.mp hm with hm | hm
    · exact h.below m hm
    · exact List.mem_singleton.mp hm ▸ hn

/-- The value of a key may be replaced by one with distinct keys. -/
theorem Proper.replace (h : Proper ms) (k : String) (hn : n.Distinct) :
    Proper (replace ms k n) where
  keys := distinctKeys_replaced h.keys k n
  below := by
    intro m hm
    obtain ⟨m', hm', rfl⟩ := List.mem_map.mp hm
    split
    · exact hn
    · exact h.below m' hm'

/-- What is looked up has distinct keys. -/
theorem Proper.lookup (h : Proper ms) (hk : ms.lookup k = some n) : n.Distinct :=
  h.below _ (mem_of_lookup hk)

/-! ### Pairs and headers -/

/-- Adding a key by dotted keys. -/
theorem proper_putDotted {v : Toml} (hv : v.Distinct) (path : List String) (open_ : Bool)
    (h : Proper ms) (hput : putDotted k v path open_ ms = some ms') : Proper ms' := by
  induction path generalizing open_ ms ms' with
  | nil =>
    cases open_ with
    | false => simp [putDotted] at hput
    | true =>
      simp only [putDotted] at hput
      split at hput
      · simp at hput
      · rename_i hnew
        obtain rfl := Option.some.inj hput
        exact h.concat (Option.not_isSome_iff_eq_none.mp hnew) (.value hv)
  | cons p ps ih =>
    simp only [putDotted] at hput
    -- the first key is new, or has a table of a header, another table, a list of tables, or a value
    split at hput
    · rename_i hnew
      obtain ⟨inner, hinner, rfl⟩ := Option.map_eq_some_iff.mp hput
      exact h.concat hnew (distinct_table (ih true proper_nil hinner))
    · simp at hput
    · rename_i o inner _ hlookup
      obtain ⟨inner', hinner, rfl⟩ := Option.map_eq_some_iff.mp hput
      exact h.replace p (distinct_table (ih _ (h.lookup hlookup).proper hinner))
    · rename_i items hlookup
      obtain ⟨last, hlast, rfl⟩ := Option.map_eq_some_iff.mp hput
      have hitems := h.lookup hlookup
      exact h.replace p (hitems.concat (List.dropLast_subset items)
        (ih _ hitems.last hlast))
    · simp at hput

/-- Going into tables by the path of a header, and changing what is there. -/
theorem proper_atPath {change : Members → Option Members}
    (hchange : ∀ ms ms', Proper ms → change ms = some ms' → Proper ms') (path : List String)
    (h : Proper ms) (hat : atPath change path ms = some ms') : Proper ms' := by
  induction path generalizing ms ms' with
  | nil => exact hchange ms ms' h hat
  | cons p ps ih =>
    simp only [atPath] at hat
    -- the first key is new, or has a table, or a list of tables, of which the last one is meant
    split at hat
    · rename_i hnew
      obtain ⟨inner, hinner, rfl⟩ := Option.map_eq_some_iff.mp hat
      exact h.concat hnew (distinct_table (ih proper_nil hinner))
    · rename_i o inner hlookup
      obtain ⟨inner', hinner, rfl⟩ := Option.map_eq_some_iff.mp hat
      exact h.replace p (distinct_table (ih (h.lookup hlookup).proper hinner))
    · rename_i items hlookup
      obtain ⟨last, hlast, rfl⟩ := Option.map_eq_some_iff.mp hat
      have hitems := h.lookup hlookup
      exact h.replace p (hitems.concat (List.dropLast_subset items)
        (ih hitems.last hlast))
    · simp at hat

/-- Opening a table keeps the keys distinct. -/
theorem proper_openTable (h : Proper ms) (hopen : openTable k ms = some ms') : Proper ms' := by
  unfold openTable at hopen
  split at hopen
  · rename_i hnew
    obtain rfl := Option.some.inj hopen
    exact h.concat hnew (distinct_table proper_nil)
  · rename_i inner hlookup
    obtain rfl := Option.some.inj hopen
    exact h.replace k (distinct_table (h.lookup hlookup).proper)
  · simp at hopen

/-- So does opening a table of a list. -/
theorem proper_openListed (h : Proper ms) (hopen : openListed k ms = some ms') : Proper ms' := by
  unfold openListed at hopen
  split at hopen
  · rename_i hnew
    obtain rfl := Option.some.inj hopen
    exact h.concat hnew (.tables (by simp [distinctKeys_nil]) (by simp))
  · rename_i items hlookup
    obtain rfl := Option.some.inj hopen
    exact h.replace k ((h.lookup hlookup).concat (List.Subset.refl items) proper_nil)
  · simp at hopen

end Members

/-! ### Values -/

/-- The members of a table become values one by one. -/
theorem membersOf_eq_map (ms : Members) : membersOf ms = ms.map fun m => (m.1, m.2.toToml) := by
  induction ms with
  | nil => rfl
  | cons m ms ih => rw [membersOf, ih]; rfl

/-- The tables of a list become values one by one. -/
theorem tablesOf_eq_map (items : List Members) :
    tablesOf items = items.map fun ms => .table (membersOf ms) := by
  induction items with
  | nil => rfl
  | cons ms items ih => rw [tablesOf, ih]; rfl

/-- The keys of members are those of the nodes they are made of. -/
theorem distinctKeys_membersOf {ms : Members} (h : DistinctKeys ms) :
    DistinctKeys (membersOf ms) := by
  unfold DistinctKeys at h ⊢
  rw [membersOf_eq_map, List.map_map]
  exact h

/-- What nodes stand for has its keys once as well. -/
theorem Node.Distinct.toToml {n : Node} (h : n.Distinct) : n.toToml.Distinct := by
  induction h with
  | value h => exact h
  | table hkeys _ ih =>
    refine .table (distinctKeys_membersOf hkeys) ?_
    rw [membersOf_eq_map]
    rintro m hm
    obtain ⟨m', hm', rfl⟩ := List.mem_map.mp hm
    exact ih m' hm'
  | tables hkeys _ ih =>
    refine .array ?_
    rw [tablesOf_eq_map]
    rintro v hv
    obtain ⟨ms, hms, rfl⟩ := List.mem_map.mp hv
    refine .table (distinctKeys_membersOf (hkeys ms hms)) ?_
    rw [membersOf_eq_map]
    rintro m hm
    obtain ⟨m', hm', rfl⟩ := List.mem_map.mp hm
    exact ih ms hms m' hm'

/-- The value of `Proper` members has distinct keys. -/
theorem Proper.distinct {ms : Members} (h : Proper ms) : Distinct (.table (membersOf ms)) :=
  (distinct_table (o := .header) h : (Node.table .header ms).Distinct).toToml

/-- Numbers, dates and words have no tables. -/
theorem distinct_basedInteger {base : Nat} {s : List Char} {v : Toml}
    (h : basedInteger base s = some v) : v.Distinct := by
  unfold basedInteger at h
  simp only [Option.bind_eq_bind, Option.bind_eq_some_iff, Option.ite_none_right_eq_some,
    Option.some.injEq] at h
  obtain ⟨_, -, _, -, -, rfl⟩ := h
  exact .integer _

/-- An integer has no keys. -/
theorem distinct_decimalInteger {negative : Bool} {s : List Char} {v : Toml}
    (h : decimalInteger negative s = some v) : v.Distinct := by
  unfold decimalInteger at h
  simp only [Option.bind_eq_bind, Option.bind_eq_some_iff, Option.ite_none_right_eq_some,
    Option.some.injEq] at h
  obtain ⟨_, -, -, rfl⟩ := h
  exact .integer _

theorem distinct_decimalFloat {negative : Bool} {s : List Char} {v : Toml}
    (h : decimalFloat negative s = some v) : v.Distinct := by
  unfold decimalFloat at h
  simp only [Option.bind_eq_bind, Option.ite_none_left_eq_some, Option.bind_eq_some_iff] at h
  obtain ⟨-, _, -, h⟩ := h
  -- a fraction and an exponent may be there or not
  split at h <;> split at h <;>
    simp only [Option.bind_eq_some_iff, Option.bind_some, Option.ite_none_left_eq_some,
      Option.some.injEq] at h
  · obtain ⟨_, -, _, -, -, rfl⟩ := h
    exact .float _
  · obtain ⟨_, -, -, rfl⟩ := h
    exact .float _
  · obtain ⟨_, -, -, rfl⟩ := h
    exact .float _
  · obtain ⟨-, rfl⟩ := h
    exact .float _

theorem distinct_numberOrWord {s : List Char} {v : Toml} (h : numberOrWord s = some v) :
    v.Distinct := by
  unfold numberOrWord at h
  split at h
  · exact Option.some.inj h ▸ .bool _
  split at h
  · exact Option.some.inj h ▸ .bool _
  simp only at h
  split at h
  · exact Option.some.inj h ▸ .float _
  split at h
  · exact Option.some.inj h ▸ .float _
  split at h
  · exact distinct_basedInteger h
  · exact distinct_basedInteger h
  · exact distinct_basedInteger h
  · split at h
    · rename_i v' hinteger
      exact Option.some.inj h ▸ distinct_decimalInteger hinteger
    · exact distinct_decimalFloat h

/-- A value of one lexeme has no keys. -/
theorem distinct_plainHere {s r : List Char} {v : Toml} (h : plainHere s = some (v, r)) :
    v.Distinct := by
  unfold plainHere at h
  split at h
  · obtain ⟨rfl, -⟩ := Prod.mk.inj (Option.some.inj h)
    exact .date
  · obtain ⟨v', hv, hpair⟩ := Option.map_eq_some_iff.mp h
    obtain ⟨rfl, -⟩ := Prod.mk.inj hpair
    exact distinct_numberOrWord hv

/-- With this fuel the values, items and pairs that are read have every key once. -/
structure DistinctAt (fuel : Nat) : Prop where
  value {depth : Nat} {s r : List Char} {v : Toml} (h : valueAt fuel depth s = some (v, r)) :
    v.Distinct
  items {depth : Nat} {s r : List Char} {vs : List Toml} (h : itemsAt fuel depth s = some (vs, r)) :
    ∀ v ∈ vs, v.Distinct
  pairs {depth : Nat} {ms ms' : Members} {s r : List Char} (hms : Proper ms)
    (h : pairsAt fuel depth ms s = some (ms', r)) : Proper ms'

section Steps

variable {fuel depth : Nat} {s r : List Char}

/-- A value is read with distinct keys, if what is inside is with less fuel. -/
theorem DistinctAt.value_succ {v : Toml} (ih : DistinctAt fuel)
    (h : valueAt (fuel + 1) depth s = some (v, r)) : v.Distinct := by
  unfold valueAt at h
  -- a text in quotes of either kind, an array, a table in braces, or a value without marks
  split at h
  · obtain ⟨_, -, hpair⟩ := Option.map_eq_some_iff.mp h
    exact (Prod.mk.inj hpair).1 ▸ .text _
  · obtain ⟨_, -, hpair⟩ := Option.map_eq_some_iff.mp h
    exact (Prod.mk.inj hpair).1 ▸ .text _
  · split at h
    · simp at h
    · obtain ⟨⟨vs, r'⟩, hitems, hpair⟩ := Option.bind_eq_some_iff.mp h
      obtain ⟨rfl, -⟩ := Prod.mk.inj (Option.some.inj hpair)
      exact .array (ih.items hitems)
  · split at h
    · simp at h
    · split at h
      · obtain ⟨rfl, -⟩ := Prod.mk.inj (Option.some.inj h)
        exact proper_nil.distinct
      · obtain ⟨⟨ms, r'⟩, hpairs, hpair⟩ := Option.bind_eq_some_iff.mp h
        obtain ⟨rfl, -⟩ := Prod.mk.inj (Option.some.inj hpair)
        exact (ih.pairs proper_nil hpairs).distinct
  · exact distinct_plainHere h

/-- So are the items of an array. -/
theorem DistinctAt.items_succ {vs : List Toml} (ih : DistinctAt fuel)
    (h : itemsAt (fuel + 1) depth s = some (vs, r)) : ∀ v ∈ vs, v.Distinct := by
  unfold itemsAt at h
  obtain ⟨s', -, h⟩ := Option.bind_eq_some_iff.mp h
  split at h
  · obtain ⟨rfl, -⟩ := Prod.mk.inj (Option.some.inj h)
    simp
  · obtain ⟨⟨v, r'⟩, hvalue, h⟩ := Option.bind_eq_some_iff.mp h
    have hv : v.Distinct := ih.value hvalue
    obtain ⟨s', -, h⟩ := Option.bind_eq_some_iff.mp h
    split at h
    · obtain ⟨⟨vs', r'⟩, hitems, hpair⟩ := Option.bind_eq_some_iff.mp h
      obtain ⟨rfl, -⟩ := Prod.mk.inj (Option.some.inj hpair)
      exact List.forall_mem_cons.mpr ⟨hv, ih.items hitems⟩
    · obtain ⟨rfl, -⟩ := Prod.mk.inj (Option.some.inj h)
      simpa using hv
    · simp at h

/-- So are the pairs of an inline table, which are added to those before. -/
theorem DistinctAt.pairs_succ {ms ms' : Members} (ih : DistinctAt fuel) (hms : Proper ms)
    (h : pairsAt (fuel + 1) depth ms s = some (ms', r)) : Proper ms' := by
  unfold pairsAt at h
  obtain ⟨⟨path, r'⟩, -, h⟩ := Option.bind_eq_some_iff.mp h
  simp only at h
  split at h
  · obtain ⟨⟨v, r'⟩, hvalue, h⟩ := Option.bind_eq_some_iff.mp h
    obtain ⟨added, hput, h⟩ := Option.bind_eq_some_iff.mp h
    -- the pairs behind this one are added to members that still have every key once
    have hadded : Proper added := proper_putDotted (ih.value hvalue) _ _ hms hput
    split at h
    · exact ih.pairs hadded h
    · obtain ⟨rfl, -⟩ := Prod.mk.inj (Option.some.inj h)
      exact hadded
    · simp at h
  · simp at h

end Steps

/-- **Values.**  By induction on the steps, together for values, items and pairs. -/
theorem distinctAt (fuel : Nat) : DistinctAt fuel := by
  induction fuel with
  | zero =>
    exact ⟨fun h => by simp [valueAt] at h, fun h => by simp [itemsAt] at h,
      fun _ h => by simp [pairsAt] at h⟩
  | succ fuel ih => exact ⟨ih.value_succ, ih.items_succ, ih.pairs_succ⟩

/-! ### Documents -/

/-- A line of a document keeps the keys distinct. -/
theorem proper_lineAt {b b' : Builder} {s r : List Char} (hb : Proper b.members)
    (h : lineAt b s = some (b', r)) : Proper b'.members := by
  unfold lineAt at h
  split at h
  · obtain ⟨⟨path, r'⟩, -, h⟩ := Option.bind_eq_some_iff.mp h
    simp only at h
    split at h
    · obtain ⟨ms, hat, h⟩ := Option.bind_eq_some_iff.mp h
      obtain ⟨_, -, hpair⟩ := Option.bind_eq_some_iff.mp h
      obtain ⟨rfl, -⟩ := Prod.mk.inj (Option.some.inj hpair)
      exact proper_atPath (fun _ _ => proper_openListed) _ hb hat
    · simp at h
  · obtain ⟨⟨path, r'⟩, -, h⟩ := Option.bind_eq_some_iff.mp h
    simp only at h
    split at h
    · obtain ⟨ms, hat, h⟩ := Option.bind_eq_some_iff.mp h
      obtain ⟨_, -, hpair⟩ := Option.bind_eq_some_iff.mp h
      obtain ⟨rfl, -⟩ := Prod.mk.inj (Option.some.inj hpair)
      exact proper_atPath (fun _ _ => proper_openTable) _ hb hat
    · simp at h
  · obtain ⟨⟨path, r'⟩, -, h⟩ := Option.bind_eq_some_iff.mp h
    simp only at h
    split at h
    · obtain ⟨⟨v, r'⟩, hvalue, h⟩ := Option.bind_eq_some_iff.mp h
      obtain ⟨ms, hat, h⟩ := Option.bind_eq_some_iff.mp h
      obtain ⟨_, -, hpair⟩ := Option.bind_eq_some_iff.mp h
      obtain ⟨rfl, -⟩ := Prod.mk.inj (Option.some.inj hpair)
      have hv := (distinctAt _).value hvalue
      exact proper_atPath (fun _ _ => proper_putDotted hv _ _) _ hb hat
    · simp at h

/-- So do all lines, by induction on their number. -/
theorem proper_linesAt {n : Nat} {b b' : Builder} {s : List Char} (hb : Proper b.members)
    (h : linesAt n b s = some b') : Proper b'.members := by
  induction n generalizing b s with
  | zero => simp [linesAt] at h
  | succ n ih =>
    unfold linesAt at h
    obtain ⟨r, -, h⟩ := Option.bind_eq_some_iff.mp h
    split at h
    · obtain rfl := Option.some.inj h
      exact hb
    · obtain ⟨⟨b₁, r'⟩, hline, h⟩ := Option.bind_eq_some_iff.mp h
      exact ih (proper_lineAt hb hline) h

/-- **A document** has every key once, in each of its tables. -/
theorem distinct_parse {s : List Char} {ms : List (String × Toml)} (h : parse s = some ms) :
    (Toml.table ms).Distinct := by
  obtain ⟨b, hlines, rfl⟩ := Option.map_eq_some_iff.mp h
  exact (proper_linesAt proper_nil hlines).distinct

end DeclarationDocs.Toml
