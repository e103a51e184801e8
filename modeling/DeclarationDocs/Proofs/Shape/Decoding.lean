import DeclarationDocs.Proofs.Shape.Reading

namespace DeclarationDocs.Shape

open Json (Key Atom lexemes)

/-!
# Values that have a shape

A text may also be read as a value first and the value decoded then.  It is spelt by the shape as
where it is read by it at once, but the unknown members of a record have to be values too.

* `decodesAt`, `Spells.decodes` — a value is decoded just when its text is spelt by the shape;
* `decode_eq_ok_iff` — what is found in the value of a text;
* `exists_parse_of_spells` — a text that is so spelt has a value.
-/

/-- What a reader of values lets an unknown member be: a value that may nest `n` deep. -/
def readable (n : Nat) (ls : List (List Char)) : Prop := ∃ v, Json.Spells n (.value v) ls

mutual

/-- How many shapes lie in one another. -/
def height : Shape → Nat
  | optional s => height s + 1
  | list s => height s + 1
  | record _ fs => fieldsHeight fs + 1
  | _ => 0

/-- How many shapes lie in one another in the fields of a record. -/
def fieldsHeight : List (String × Shape × Option Datum) → Nat
  | [] => 0
  | (_, s, _) :: fs => max (height s) (fieldsHeight fs)

end

variable {s : Shape} {d : Datum} {ds : List Datum} {fs : List Field} {v : Json} {vs : List Json}
  {ms : List (String × Json)} {found all : List (String × Datum)} {n fuel : Nat} {first : Bool}
  {p : Part} {l : List Char} {ls : List (List Char)}

/-- A field is no higher than the fields together. -/
theorem height_le_fieldsHeight {f : Field} (h : f ∈ fs) : f.2.1.height ≤ fieldsHeight fs := by
  induction fs with
  | nil => cases h
  | cons g fs ih =>
    obtain ⟨k, t, x⟩ := g
    rw [fieldsHeight]
    rcases List.mem_cons.mp h with rfl | h
    · exact Nat.le_max_left _ _
    · exact (ih h).trans (Nat.le_max_right _ _)

/-! ### Atoms -/

/-- What the reader of scalars finds is told by the first character. -/
theorem atom_cases (h : Atom v l) :
    (∃ k, v = .string k ∧ Key k l) ∨ (v = .null ∧ l = "null".toList) ∨ (∃ b, v = .bool b)
      ∨ ∃ m, v = .number m := by
  cases h with
  | literal h => exact Or.inl ⟨_, rfl, h⟩
  | @word _ x u e hx h he =>
    have hword : Json.isWordChar x = true := hx x (by simp)
    right
    -- the first character decides which word it is; a quote begins none
    unfold Json.scalar at h
    split at h
    · obtain ⟨⟨a, b⟩, hw, hret⟩ := bind_eq_ok_iff.mp h
      obtain ⟨rfl, rfl⟩ : Json.null = v ∧ b = e := by simpa using hret
      have hrest := Json.word_sound hw
      rw [he, List.append_nil, Json.Cursor.next_rest] at hrest
      exact Or.inl ⟨rfl, congrArg _ hrest⟩
    · obtain ⟨⟨a, b⟩, -, hret⟩ := bind_eq_ok_iff.mp h
      obtain ⟨rfl, -⟩ : Json.bool true = v ∧ b = e := by simpa using hret
      exact Or.inr (Or.inl ⟨_, rfl⟩)
    · obtain ⟨⟨a, b⟩, -, hret⟩ := bind_eq_ok_iff.mp h
      obtain ⟨rfl, -⟩ : Json.bool false = v ∧ b = e := by simpa using hret
      exact Or.inr (Or.inl ⟨_, rfl⟩)
    · obtain ⟨⟨m, b⟩, -, hret⟩ := bind_eq_ok_iff.mp h
      obtain ⟨rfl, -⟩ : Json.number m = v ∧ b = e := by simpa using hret
      exact Or.inr (Or.inr ⟨m, rfl⟩)
    · exact absurd hword (by decide)
    · split_ifs at h
      obtain ⟨⟨m, b⟩, -, hret⟩ := bind_eq_ok_iff.mp h
      obtain ⟨rfl, -⟩ : Json.number m = v ∧ b = e := by simpa using hret
      exact Or.inr (Or.inr ⟨m, rfl⟩)

/-- The lexemes of a value are told by what it is. -/
theorem spells_string {k : String} (h : Json.Spells n (.value (.string k)) ls) :
    ∃ l, ls = [l] ∧ Key k l := by
  cases h with
  | @atom _ _ l h => exact ⟨l, rfl, by simpa using atom_cases h⟩

/-- Only the word `null` spells the value. -/
theorem spells_null (h : Json.Spells n (.value .null) ls) : ls = ["null".toList] := by
  cases h with
  | @atom _ _ l h =>
    have hl : l = "null".toList := by simpa using atom_cases h
    rw [hl]

/-- A number is spelt by one lexeme. -/
theorem spells_number {m : JsonNumber} (h : Json.Spells n (.value (.number m)) ls) :
    ∃ l, ls = [l] ∧ Atom (.number m) l := by
  cases h with
  | @atom _ _ l h => exact ⟨l, rfl, h⟩

/-- An array is spelt by brackets and items, one level deeper. -/
theorem spells_array (h : Json.Spells n (.value (.array vs)) ls) :
    ∃ rs, ls = ['['] :: rs ∧ 1 < n ∧ Json.Spells (n - 1) (.items true vs) rs := by
  cases h with
  | atom h => simpa using atom_cases h
  | @array _ _ rs hn h => exact ⟨rs, rfl, hn, h⟩

/-- An object is spelt by braces and members, one level deeper. -/
theorem spells_object (h : Json.Spells n (.value (.object ms)) ls) :
    ∃ rs, ls = ['\x7b'] :: rs ∧ 1 < n ∧ Json.Spells (n - 1) (.members true ms) rs := by
  cases h with
  | atom h => simpa using atom_cases h
  | @object _ _ rs hn h => exact ⟨rs, rfl, hn, h⟩

/-! ### What is decoded is spelt -/

/-- What is decoded with this fuel is spelt by the shape. -/
structure DecodesAt (fuel : Nat) : Prop where
  value {s : Shape} {v : Json} {d : Datum} {n : Nat} {ls : List (List Char)}
    (h : decodeAt fuel s v = .ok d) (hv : Json.Spells n (.value v) ls) :
    Spells readable n (.value s d) ls
  items {s : Shape} {vs : List Json} {ds : List Datum} {n : Nat} {first : Bool}
    {ls : List (List Char)} (h : decodeItems fuel s vs = .ok ds)
    (hvs : Json.Spells n (.items first vs) ls) : Spells readable n (.items first s ds) ls
  fields {fs : List Field} {vs : List Json} {ds : List Datum} {n : Nat} {first : Bool}
    {ls : List (List Char)} (h : decodeFields fuel fs vs = .ok ds)
    (hlength : vs.length ≤ fs.length) (hvs : Json.Spells n (.items first vs) ls) :
    Spells readable n (.fields first fs ds) ls
  members {fs : List Field} {found all : List (String × Datum)} {ms : List (String × Json)}
    {n : Nat} {first : Bool} {ls : List (List Char)}
    (h : decodeMembers fuel fs found ms = .ok all) (hms : Json.Spells n (.members first ms) ls) :
    Spells readable n (.members first fs found all) ls

/-- A value is decoded from what spells it, if what is inside is with less fuel. -/
theorem DecodesAt.value_succ (ih : DecodesAt fuel) (h : decodeAt (fuel + 1) s v = .ok d)
    (hv : Json.Spells n (.value v) ls) : Spells readable n (.value s d) ls := by
  unfold decodeAt at h
  -- in the order of the decoder: nothing, optional values, texts, paths, numbers, lists, records
  -- that are arrays, and records that are objects
  split at h
  · obtain rfl : Datum.absent = d := by simpa using h
    rw [spells_null hv]
    exact .absent
  · obtain ⟨d', hd, hret⟩ := bind_eq_ok_iff.mp h
    obtain rfl : Datum.present d' = d := by simpa using hret
    exact .present (ih.value hd hv)
  · rename_i k
    obtain rfl : Datum.text k = d := by simpa using h
    obtain ⟨l, rfl, hkey⟩ := spells_string hv
    exact .text hkey
  · rename_i k
    obtain rfl : Datum.text k = d := by simpa using h
    obtain ⟨l, rfl, hkey⟩ := spells_string hv
    exact .path hkey
  · obtain ⟨m, rfl, hm, rfl⟩ := naturalOf_eq_ok_iff.mp h
    obtain ⟨l, rfl, hatom⟩ := spells_number hv
    exact .natural hatom hm
  · obtain ⟨ds, hds, hret⟩ := bind_eq_ok_iff.mp h
    obtain rfl : Datum.list ds = d := by simpa using hret
    obtain ⟨rs, rfl, hn, hvs⟩ := spells_array hv
    exact .list hn (ih.items hds hvs)
  · obtain ⟨ds, hds, h⟩ := bind_eq_ok_iff.mp h
    obtain ⟨more, hmore, h⟩ := bind_eq_ok_iff.mp h
    split_ifs at h with hlength
    obtain rfl : Datum.record (ds ++ more) = d := by simpa using h
    obtain ⟨rs, rfl, hn, hvs⟩ := spells_array hv
    exact .array hn (ih.fields hds (Nat.not_lt.mp hlength) hvs) hmore
  · obtain ⟨all, hall, h⟩ := bind_eq_ok_iff.mp h
    obtain ⟨ds, hds, hret⟩ := bind_eq_ok_iff.mp h
    obtain rfl : Datum.record ds = d := by simpa using hret
    obtain ⟨rs, rfl, hn, hms⟩ := spells_object hv
    exact .object hn (ih.members hall hms) hds
  · cases h

/-- So are the items of a list. -/
theorem DecodesAt.items_succ (ih : DecodesAt fuel) (h : decodeItems (fuel + 1) s vs = .ok ds)
    (hvs : Json.Spells n (.items first vs) ls) : Spells readable n (.items first s ds) ls := by
  cases hvs with
  | noItem =>
    obtain rfl : [] = ds := by simpa [decodeItems] using h
    exact .noItem
  | item hv hvs =>
    rw [decodeItems] at h
    obtain ⟨d, hd, h⟩ := bind_eq_ok_iff.mp h
    obtain ⟨ds', hds, hret⟩ := bind_eq_ok_iff.mp h
    obtain rfl : d :: ds' = ds := by simpa using hret
    exact .item (ih.value hd hv) (ih.items hds hvs)

/-- So are the fields of a record that is written as an array. -/
theorem DecodesAt.fields_succ (ih : DecodesAt fuel) (h : decodeFields (fuel + 1) fs vs = .ok ds)
    (hlength : vs.length ≤ fs.length) (hvs : Json.Spells n (.items first vs) ls) :
    Spells readable n (.fields first fs ds) ls := by
  cases hvs with
  | noItem =>
    obtain rfl : [] = ds := by
      cases fs <;> simpa [decodeFields] using h
    exact .noField
  | item hv hvs =>
    cases fs with
    | nil => simp at hlength
    | cons f fs =>
      rw [decodeFields] at h
      obtain ⟨d, hd, h⟩ := bind_eq_ok_iff.mp h
      obtain ⟨ds', hds, hret⟩ := bind_eq_ok_iff.mp h
      obtain rfl : d :: ds' = ds := by simpa using hret
      exact .field (ih.value hd hv) (ih.fields hds (Nat.le_of_succ_le_succ hlength) hvs)

/-- So are the members of a record. -/
theorem DecodesAt.members_succ (ih : DecodesAt fuel)
    (h : decodeMembers (fuel + 1) fs found ms = .ok all)
    (hms : Json.Spells n (.members first ms) ls) :
    Spells readable n (.members first fs found all) ls := by
  cases hms with
  | noMember =>
    obtain rfl : found = all := by simpa [decodeMembers] using h
    exact .noMember
  | member hk hv hms =>
    rw [decodeMembers] at h
    split at h
    · rename_i hf
      exact .unknown hk hf ⟨_, hv⟩ (ih.members h hms)
    · rename_i f hf
      split_ifs at h with hnew
      obtain ⟨d, hd, h⟩ := bind_eq_ok_iff.mp h
      exact .known hk hf (Option.not_isSome_iff_eq_none.mp hnew) (ih.value hd hv) (ih.members h hms)

/-- **What is decoded is spelt by the shape.** -/
theorem decodesAt (fuel : Nat) : DecodesAt fuel := by
  induction fuel with
  | zero =>
    exact ⟨fun h _ => by simp [decodeAt] at h, fun h _ => by simp [decodeItems] at h,
      fun h _ _ => by simp [decodeFields] at h, fun h _ => by simp [decodeMembers] at h⟩
  | succ fuel ih => exact ⟨ih.value_succ, ih.items_succ, ih.fields_succ, ih.members_succ⟩

/-! ### What is spelt is decoded -/

/-- The lexemes of the part are those of a value that is decoded, given a step for each value in it
    and for each shape around it. -/
def Part.Decodes (n : Nat) (ls : List (List Char)) : Part → Prop
  | .value s d => ∃ v, Json.Spells n (.value v) ls ∧
      ∀ fuel, v.size + s.height ≤ fuel → decodeAt fuel s v = .ok d
  | .items first s ds => ∃ vs, Json.Spells n (.items first vs) ls ∧
      ∀ fuel, Json.itemsSize vs + s.height < fuel → decodeItems fuel s vs = .ok ds
  | .fields first fs ds => ∃ vs, Json.Spells n (.items first vs) ls ∧ vs.length ≤ fs.length ∧
      ∀ fuel, Json.itemsSize vs + fieldsHeight fs < fuel → decodeFields fuel fs vs = .ok ds
  | .members first fs found all => ∃ ms, Json.Spells n (.members first ms) ls ∧
      ∀ fuel, Json.membersSize ms + fieldsHeight fs < fuel → decodeMembers fuel fs found ms = .ok all

theorem size_pos (v : Json) : 0 < v.size := by
  cases v with
  | array vs =>
    rw [Json.size]
    omega
  | object ms =>
    rw [Json.size]
    omega
  | _ => simp [Json.size]

/-- Only an optional value may be nothing. -/
theorem decodeAt_null_ne_ok (hs : ∀ t, s ≠ .optional t) : decodeAt fuel s .null ≠ .ok d := by
  cases fuel with
  | zero => simp [decodeAt]
  | succ fuel =>
    cases s with
    | optional t => exact absurd rfl (hs t)
    | _ => simp [decodeAt]

/-- An optional value that is not `null` is decoded by its own shape. -/
theorem decodeAt_optional (hv : v ≠ .null) :
    decodeAt (fuel + 1) (.optional s) v = (do .ok (.present (← decodeAt fuel s v))) := by
  cases v with
  | null => exact absurd rfl hv
  | _ => simp [decodeAt]

/-- A value of one lexeme is decoded. -/
theorem decodes_atom (h : Atom v l) (hd : ∀ fuel, decodeAt (fuel + 1) s v = .ok d) :
    (Part.value s d).Decodes n [l] := by
  refine ⟨v, .atom h, fun fuel hfuel => ?_⟩
  have hpos := size_pos v
  obtain ⟨fuel, rfl⟩ : ∃ k, fuel = k + 1 := ⟨fuel - 1, by omega⟩
  exact hd fuel

/-- The value `null` is decoded as nothing. -/
theorem decodes_absent : (Part.value (.optional s) .absent).Decodes n ["null".toList] := by
  have hatom : Atom .null "null".toList :=
    .word (x := 'n') (u := "ull".toList) (List.all_eq_true.mp (by decide)) rfl rfl
  exact decodes_atom hatom fun fuel => by simp [decodeAt]

/-- Any other value is decoded as what is there. -/
theorem decodes_present (h : (Part.value s d).Decodes n ls) (hs : ∀ t, s ≠ .optional t) :
    (Part.value (.optional s) (.present d)).Decodes n ls := by
  obtain ⟨v, hv, hd⟩ := h
  have hne : v ≠ .null := by
    rintro rfl
    exact decodeAt_null_ne_ok hs (hd _ (Nat.le_refl _))
  refine ⟨v, hv, fun fuel hfuel => ?_⟩
  rw [height] at hfuel
  obtain ⟨fuel, rfl⟩ : ∃ k, fuel = k + 1 := ⟨fuel - 1, by omega⟩
  rw [decodeAt_optional hne, hd fuel (by omega)]
  rfl

/-- A list is decoded if its items are. -/
theorem decodes_list (hn : 1 < n) (h : (Part.items true s ds).Decodes (n - 1) ls) :
    (Part.value (.list s) (.list ds)).Decodes n (['['] :: ls) := by
  obtain ⟨vs, hvs, hds⟩ := h
  refine ⟨.array vs, .array hn hvs, fun fuel hfuel => ?_⟩
  rw [height, Json.size] at hfuel
  obtain ⟨fuel, rfl⟩ : ∃ k, fuel = k + 1 := ⟨fuel - 1, by omega⟩
  simp only [decodeAt, hds fuel (by omega)]
  rfl

/-- A record is decoded from an array if its fields are, and the rest have defaults. -/
theorem decodes_array {name : String} {more : List Datum} (hn : 1 < n)
    (h : (Part.fields true fs ds).Decodes (n - 1) ls)
    (hmore : defaults name fs ds.length = .ok more) :
    (Part.value (.record name fs) (.record (ds ++ more))).Decodes n (['['] :: ls) := by
  obtain ⟨vs, hvs, hlength, hds⟩ := h
  refine ⟨.array vs, .array hn hvs, fun fuel hfuel => ?_⟩
  rw [height, Json.size] at hfuel
  obtain ⟨fuel, rfl⟩ : ∃ k, fuel = k + 1 := ⟨fuel - 1, by omega⟩
  simp only [decodeAt]
  refine bind_eq_ok_iff.mpr ⟨_, hds fuel (by omega), bind_eq_ok_iff.mpr ⟨_, hmore, ?_⟩⟩
  rw [if_neg (Nat.not_lt.mpr hlength)]

/-- A record is decoded from an object if its members are all that is needed. -/
theorem decodes_object {name : String} (hn : 1 < n)
    (h : (Part.members true fs [] all).Decodes (n - 1) ls) (hall : gather all fs = .ok ds) :
    (Part.value (.record name fs) (.record ds)).Decodes n (['\x7b'] :: ls) := by
  obtain ⟨ms, hms, hfound⟩ := h
  refine ⟨.object ms, .object hn hms, fun fuel hfuel => ?_⟩
  rw [height, Json.size] at hfuel
  obtain ⟨fuel, rfl⟩ : ∃ k, fuel = k + 1 := ⟨fuel - 1, by omega⟩
  simp only [decodeAt]
  exact bind_eq_ok_iff.mpr ⟨_, hfound fuel (by omega), bind_eq_ok_iff.mpr ⟨_, hall, rfl⟩⟩

theorem decodes_noItem (first : Bool) : (Part.items first s []).Decodes n [[']']] := by
  refine ⟨[], .noItem, fun fuel hfuel => ?_⟩
  obtain ⟨fuel, rfl⟩ : ∃ k, fuel = k + 1 := ⟨fuel - 1, by omega⟩
  rw [decodeItems]

/-- An item is decoded in front of others. -/
theorem decodes_item {rs : List (List Char)} (hd : (Part.value s d).Decodes n ls)
    (hds : (Part.items false s ds).Decodes n rs) :
    (Part.items first s (d :: ds)).Decodes n (Json.lead first ++ (ls ++ rs)) := by
  obtain ⟨v, hv, hd⟩ := hd
  obtain ⟨vs, hvs, hds⟩ := hds
  refine ⟨v :: vs, .item hv hvs, fun fuel hfuel => ?_⟩
  rw [Json.itemsSize] at hfuel
  have hpos := size_pos v
  obtain ⟨fuel, rfl⟩ : ∃ k, fuel = k + 1 := ⟨fuel - 1, by omega⟩
  rw [decodeItems, hd fuel (by omega), hds fuel (by omega)]
  rfl

theorem decodes_noField (first : Bool) : (Part.fields first fs []).Decodes n [[']']] := by
  refine ⟨[], .noItem, Nat.zero_le _, fun fuel hfuel => ?_⟩
  obtain ⟨fuel, rfl⟩ : ∃ k, fuel = k + 1 := ⟨fuel - 1, by omega⟩
  cases fs <;> simp [decodeFields]

/-- A field is decoded in front of others. -/
theorem decodes_field {f : Field} {rs : List (List Char)} (hd : (Part.value f.2.1 d).Decodes n ls)
    (hds : (Part.fields false fs ds).Decodes n rs) :
    (Part.fields first (f :: fs) (d :: ds)).Decodes n (Json.lead first ++ (ls ++ rs)) := by
  obtain ⟨v, hv, hd⟩ := hd
  obtain ⟨vs, hvs, hlength, hds⟩ := hds
  refine ⟨v :: vs, .item hv hvs, Nat.succ_le_succ hlength, fun fuel hfuel => ?_⟩
  have hpos := size_pos v
  have hf : f.2.1.height ≤ fieldsHeight (f :: fs) := height_le_fieldsHeight (by simp)
  have hfs : fieldsHeight fs ≤ fieldsHeight (f :: fs) := Nat.le_max_right _ _
  rw [Json.itemsSize] at hfuel
  obtain ⟨fuel, rfl⟩ : ∃ k, fuel = k + 1 := ⟨fuel - 1, by omega⟩
  rw [decodeFields, hd fuel (by omega), hds fuel (by omega)]
  rfl

theorem decodes_noMember (first : Bool) :
    (Part.members first fs found found).Decodes n [['\x7d']] := by
  refine ⟨[], .noMember, fun fuel hfuel => ?_⟩
  obtain ⟨fuel, rfl⟩ : ∃ k, fuel = k + 1 := ⟨fuel - 1, by omega⟩
  rw [decodeMembers]

/-- A member with the key of a field is decoded by the shape of that field, once. -/
theorem decodes_known {k : String} {f : Field} {rs : List (List Char)} (hk : Key k l)
    (hf : fs.find? (·.1 == k) = some f) (hnew : found.lookup k = none)
    (hd : (Part.value f.2.1 d).Decodes n ls)
    (hms : (Part.members false fs ((k, d) :: found) all).Decodes n rs) :
    (Part.members first fs found all).Decodes n (Json.lead first ++ l :: [':'] :: (ls ++ rs)) := by
  obtain ⟨v, hv, hd⟩ := hd
  obtain ⟨ms, hms, hall⟩ := hms
  refine ⟨(k, v) :: ms, .member hk hv hms, fun fuel hfuel => ?_⟩
  have hpos := size_pos v
  have hheight := height_le_fieldsHeight (List.mem_of_find?_eq_some hf)
  rw [Json.membersSize] at hfuel
  obtain ⟨fuel, rfl⟩ : ∃ k, fuel = k + 1 := ⟨fuel - 1, by omega⟩
  rw [decodeMembers, hf]
  simp only [hnew, Option.isSome_none, Bool.false_eq_true, if_false]
  rw [hd fuel (by omega)]
  exact hall fuel (by omega)

/-- A member with another key has a value, which is left alone. -/
theorem decodes_unknown {k : String} {rs : List (List Char)} (hk : Key k l)
    (hf : fs.find? (·.1 == k) = none) (hd : readable n ls)
    (hms : (Part.members false fs found all).Decodes n rs) :
    (Part.members first fs found all).Decodes n (Json.lead first ++ l :: [':'] :: (ls ++ rs)) := by
  obtain ⟨v, hv⟩ := hd
  obtain ⟨ms, hms, hall⟩ := hms
  refine ⟨(k, v) :: ms, .member hk hv hms, fun fuel hfuel => ?_⟩
  have hpos := size_pos v
  rw [Json.membersSize] at hfuel
  obtain ⟨fuel, rfl⟩ : ∃ k, fuel = k + 1 := ⟨fuel - 1, by omega⟩
  rw [decodeMembers, hf]
  exact hall fuel (by omega)

/-- **What is spelt by a shape is decoded**, if nothing in the shape is optional twice over. -/
theorem Spells.decodes (h : Spells readable n p ls) (hp : p.Plain) : p.Decodes n ls := by
  induction h with
  | text h => exact decodes_atom (.literal h) fun fuel => by simp [decodeAt]
  | path h => exact decodes_atom (.literal h) fun fuel => by simp [decodeAt]
  | natural h hm =>
    refine decodes_atom h fun fuel => ?_
    rw [decodeAt, naturalOf_eq_ok_iff.mpr ⟨_, rfl, hm, rfl⟩]
  | absent => exact decodes_absent
  | present _ ih =>
    cases hp with
    | optional hs hne => exact decodes_present (ih hs) hne
  | list hn _ ih =>
    cases hp with
    | list hs => exact decodes_list hn (ih hs)
  | array hn _ hmore ih =>
    cases hp with
    | record hfs => exact decodes_array hn (ih hfs) hmore
  | object hn _ hall ih =>
    cases hp with
    | record hfs => exact decodes_object hn (ih hfs) hall
  | noItem => exact decodes_noItem _
  | item _ _ ihd ihds => exact decodes_item (ihd hp) (ihds hp)
  | noField => exact decodes_noField _
  | field _ _ ihd ihds =>
    obtain ⟨hf, hfs⟩ := List.forall_mem_cons.mp hp
    exact decodes_field (ihd hf) (ihds hfs)
  | noMember => exact decodes_noMember _
  | known hk hf hnew _ _ ihd ihms =>
    exact decodes_known hk hf hnew (ihd (hp _ (List.mem_of_find?_eq_some hf))) (ihms hp)
  | unknown hk hf hd _ ihms => exact decodes_unknown hk hf hd (ihms hp)

/-! ### Texts -/

/-- **What is found in the value of a text is what its lexemes spell**, if only a few shapes lie in
    one another. -/
theorem decode_eq_ok_iff (hs : s.Plain) (hheight : s.height ≤ 8) {text : List Char}
    (hv : Json.parse text = .ok v) :
    s.decode v = .ok d ↔ Spells readable Json.depthLimit (.value s d) (lexemes text) := by
  constructor
  · intro h
    exact (decodesAt _).value h (Json.parse_eq_ok_iff.mp hv)
  · intro h
    obtain ⟨w, hw, hd⟩ := h.decodes hs
    -- a text has only one value
    have hw : Json.parse text = .ok w := Json.parse_eq_ok_iff.mpr hw
    obtain rfl : v = w := by simpa [hv] using hw
    exact hd _ (by omega)

/-- A text that is spelt by a shape has a value. -/
theorem exists_parse_of_spells (hs : s.Plain) {text : List Char}
    (h : Spells readable Json.depthLimit (.value s d) (lexemes text)) :
    ∃ v, Json.parse text = .ok v := by
  obtain ⟨v, hv, -⟩ := h.decodes hs
  exact ⟨v, Json.parse_eq_ok_iff.mpr hv⟩

end DeclarationDocs.Shape
