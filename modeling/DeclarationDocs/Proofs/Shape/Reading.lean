import DeclarationDocs.Proofs.Json.Skipping
import DeclarationDocs.Shape

namespace DeclarationDocs.Shape

open Json (Cursor Key Atom Token lead lexemes marks Boundary Passed peek_eq_ok_iff lexemes_skipBlanks
  lexemes_mark lexemes_append boundary_of_mark)

/-!
# Texts that have a shape

Which texts have a shape, and what is found in them, is said by a grammar over lexemes.  What it
leaves open is what the unknown members of a record may be; a text that is read may have there
whatever can be passed over.

* `Spells Other n p ls` — the lexemes `ls` are the part `p` of a text that has a shape;
* `exists_spells`, `Spells.readAs` — what is read is spelt, and what is spelt is read;
* `read_eq_ok_iff` — the texts that are read, and what is found in them.
-/

/-- The parts that a value of a shape is read in.  `found` are the members of a record that were
    found before, and `all` those found in the end, the last one first. -/
inductive Part where
  | value (s : Shape) (d : Datum)
  | items (first : Bool) (s : Shape) (ds : List Datum)
  | fields (first : Bool) (fs : List Field) (ds : List Datum)
  | members (first : Bool) (fs : List Field) (found all : List (String × Datum))

/-- The lexemes of a part, where `Other n` are the values that an unknown member may have if they
    may nest `n` deep.  Items, fields and members go up to and with the closing bracket. -/
inductive Spells (Other : Nat → List (List Char) → Prop) : Nat → Part → List (List Char) → Prop
  | text {n : Nat} {k : String} {l : List Char} (h : Key k l) :
      Spells Other n (.value .text (.text k)) [l]
  | path {n : Nat} {k : String} {l : List Char} (h : Key k l) :
      Spells Other n (.value .path (.text k)) [l]
  | natural {n bits m : Nat} {l : List Char} (h : Atom (.number (.int m)) l)
      (hm : m < Nat.pow 2 bits) : Spells Other n (.value (.natural bits) (.natural m)) [l]
  | absent {n : Nat} {s : Shape} : Spells Other n (.value (.optional s) .absent) ["null".toList]
  | present {n : Nat} {s : Shape} {d : Datum} {ls : List (List Char)}
      (h : Spells Other n (.value s d) ls) :
      Spells Other n (.value (.optional s) (.present d)) ls
  | list {n : Nat} {s : Shape} {ds : List Datum} {ls : List (List Char)} (hn : 1 < n)
      (h : Spells Other (n - 1) (.items true s ds) ls) :
      Spells Other n (.value (.list s) (.list ds)) (['['] :: ls)
  | array {n : Nat} {name : String} {fs : List Field} {ds more : List Datum}
      {ls : List (List Char)} (hn : 1 < n) (h : Spells Other (n - 1) (.fields true fs ds) ls)
      (hmore : defaults name fs ds.length = .ok more) :
      Spells Other n (.value (.record name fs) (.record (ds ++ more))) (['['] :: ls)
  | object {n : Nat} {name : String} {fs : List Field} {all : List (String × Datum)}
      {ds : List Datum} {ls : List (List Char)} (hn : 1 < n)
      (h : Spells Other (n - 1) (.members true fs [] all) ls) (hall : gather all fs = .ok ds) :
      Spells Other n (.value (.record name fs) (.record ds)) (['\x7b'] :: ls)
  | noItem {n : Nat} {first : Bool} {s : Shape} : Spells Other n (.items first s []) [[']']]
  | item {n : Nat} {first : Bool} {s : Shape} {d : Datum} {ds : List Datum}
      {ls rs : List (List Char)} (hd : Spells Other n (.value s d) ls)
      (hds : Spells Other n (.items false s ds) rs) :
      Spells Other n (.items first s (d :: ds)) (lead first ++ (ls ++ rs))
  | noField {n : Nat} {first : Bool} {fs : List Field} :
      Spells Other n (.fields first fs []) [[']']]
  | field {n : Nat} {first : Bool} {f : Field} {fs : List Field} {d : Datum} {ds : List Datum}
      {ls rs : List (List Char)} (hd : Spells Other n (.value f.2.1 d) ls)
      (hds : Spells Other n (.fields false fs ds) rs) :
      Spells Other n (.fields first (f :: fs) (d :: ds)) (lead first ++ (ls ++ rs))
  | noMember {n : Nat} {first : Bool} {fs : List Field} {found : List (String × Datum)} :
      Spells Other n (.members first fs found found) [['\x7d']]
  | known {n : Nat} {first : Bool} {fs : List Field} {found all : List (String × Datum)}
      {k : String} {f : Field} {d : Datum} {l : List Char} {ls rs : List (List Char)} (hk : Key k l)
      (hf : fs.find? (·.1 == k) = some f) (hnew : found.lookup k = none)
      (hd : Spells Other n (.value f.2.1 d) ls)
      (hms : Spells Other n (.members false fs ((k, d) :: found) all) rs) :
      Spells Other n (.members first fs found all) (lead first ++ l :: [':'] :: (ls ++ rs))
  | unknown {n : Nat} {first : Bool} {fs : List Field} {found all : List (String × Datum)}
      {k : String} {l : List Char} {ls rs : List (List Char)} (hk : Key k l)
      (hf : fs.find? (·.1 == k) = none) (hd : Other n ls)
      (hms : Spells Other n (.members false fs found all) rs) :
      Spells Other n (.members first fs found all) (lead first ++ l :: [':'] :: (ls ++ rs))

/-- What a reader of text lets an unknown member be: it is passed over. -/
def passedOver (_n : Nat) (ls : List (List Char)) : Prop := Passed .value ls

/-- The reader of a part takes it from one cursor to another. -/
def Part.ReadFrom (fuel n : Nat) (c e : Cursor) : Part → Prop
  | .value s d => readAt fuel n s c = .ok (d, e)
  | .items first s ds => readItems fuel n s first c = .ok (ds, e)
  | .fields first fs ds => ∃ b, readFields fuel n first fs c = .ok (ds, b) ∧ closeList b = .ok e
  | .members first fs found all =>
    ∃ b, readMembers fuel n first fs found c = .ok (all, b) ∧ b.next = e

/-- Where a part may end: a value that is a word must not run on. -/
def Part.EndsAt (s : List Char) : Part → Prop
  | .value _ _ => Boundary s
  | _ => True

variable {α : Type} {c e : Cursor} {x : Char} {s : Shape} {d : Datum} {ds : List Datum}
  {fs : List Field} {found all : List (String × Datum)} {n fuel bits : Nat} {first : Bool} {p : Part}
  {l : List Char} {ls more : List (List Char)} {Other : Nat → List (List Char) → Prop}

/-! ### Steps of the reader -/

/-- A fault of syntax stays one: `lift` changes no result. -/
theorem lift_eq_ok_iff {r : Except Json.SyntaxFault α} {a : α} : lift r = .ok a ↔ r = .ok a := by
  cases r <;> simp [lift]

/-- Where something else stands nothing is read. -/
theorem wrongType_ne_ok {wanted : String} {a : α} : wrongType x wanted c ≠ .ok a := by
  intro h
  obtain ⟨_, -, h⟩ := bind_eq_ok_iff.mp h
  cases h

/-- A natural number of `bits` bits is an integer from 0 below `2 ^ bits`. -/
theorem naturalOf_eq_ok_iff {m : JsonNumber} :
    naturalOf bits m = .ok d ↔ ∃ k : Nat, m = .int k ∧ k < Nat.pow 2 bits ∧ d = .natural k := by
  cases m with
  | float y => simp [naturalOf]
  | int i =>
    simp only [naturalOf, JsonNumber.int.injEq]
    constructor
    · intro h
      split_ifs at h with hi
      obtain rfl : Datum.natural i.toNat = d := by simpa using h
      exact ⟨i.toNat, by omega, by omega, rfl⟩
    · rintro ⟨k, rfl, hk, rfl⟩
      have hi : 0 ≤ (k : Int) ∧ (k : Int) < (Nat.pow 2 bits : Nat) := by omega
      rw [if_pos hi, Int.toNat_natCast]

/-- A list is closed by the lexeme `]`. -/
theorem closeList_eq_ok (h : closeList c = .ok e) :
    lexemes c.rest = [']'] :: lexemes e.rest := by
  obtain ⟨⟨x, b⟩, hx, h⟩ := bind_eq_ok_iff.mp h
  obtain ⟨rfl, hx⟩ := peek_eq_ok_iff.mp (lift_eq_ok_iff.mp hx)
  rw [← lexemes_skipBlanks c]
  simp only at h
  split_ifs at h with hclose hcomma
  · obtain rfl : (Json.skipBlanks c).next = e := by simpa using h
    rw [lexemes_mark hx (by rw [hclose]; decide), hclose]
  · split at h <;> cases h
  · cases h

/-- The word for nothing. -/
theorem lexemes_null {v : Json} (h : Json.scalar 'n' c = .ok (v, e)) (hx : c.rest.head? = some 'n')
    (he : Boundary e.rest) : lexemes c.rest = "null".toList :: lexemes e.rest := by
  have hrest : c.rest = "null".toList ++ e.rest := Json.word_of_constant hx h
  rw [hrest]
  have hnull : "null".toList.all Json.isWordChar = true := by decide
  exact lexemes_append (.word (by decide) (List.all_eq_true.mp hnull)) fun _ => he

/-! ### What is read is spelt -/

/-- The parts that are read with this fuel are spelt. -/
def SpeltAt (fuel : Nat) : Prop :=
  ∀ (p : Part) (n : Nat) (c e : Cursor), p.ReadFrom fuel n c e → p.EndsAt e.rest →
    ∃ ls, lexemes c.rest = ls ++ lexemes e.rest ∧ Spells passedOver n p ls

/-- A text and a path are read from a literal, and from nothing else. -/
theorem key_of_readAt (hs : s = .text ∨ s = .path) (h : readAt (fuel + 1) n s c = .ok (d, e)) :
    ∃ k l, d = .text k ∧ lexemes c.rest = l :: lexemes e.rest ∧ Key k l := by
  rcases hs with rfl | rfl
  all_goals
    rw [readAt] at h
    obtain ⟨⟨x, b⟩, hx, h⟩ := bind_eq_ok_iff.mp h
    obtain ⟨rfl, hx⟩ := peek_eq_ok_iff.mp (lift_eq_ok_iff.mp hx)
    rw [← lexemes_skipBlanks c]
    simp only at h
    split_ifs at h with hquote
    · obtain ⟨⟨k, b⟩, hk, hret⟩ := bind_eq_ok_iff.mp h
      obtain ⟨rfl, rfl⟩ : Datum.text k = d ∧ b = e := by simpa using hret
      obtain ⟨l, hl, hkey⟩ := Json.stringAt_sound (hquote ▸ hx) (lift_eq_ok_iff.mp hk)
      exact ⟨k, l, rfl, hl, hkey⟩
    · exact absurd h wrongType_ne_ok

/-- The lexeme of a natural number spells it. -/
theorem spells_natural
    (h : readAt (fuel + 1) n (.natural bits) c = .ok (d, e)) (he : Boundary e.rest) :
    ∃ ls, lexemes c.rest = ls ++ lexemes e.rest ∧
      Spells passedOver n (.value (.natural bits) d) ls := by
  rw [readAt] at h
  obtain ⟨⟨x, b⟩, hx, h⟩ := bind_eq_ok_iff.mp h
  obtain ⟨rfl, hx⟩ := peek_eq_ok_iff.mp (lift_eq_ok_iff.mp hx)
  rw [← lexemes_skipBlanks c]
  by_cases hnumber : x = '-' ∨ Text.isDigit x = true
  · simp only [if_pos hnumber] at h
    obtain ⟨⟨m, b⟩, hm, h⟩ := bind_eq_ok_iff.mp h
    simp only at h
    split at h
    · rename_i d' hd
      obtain ⟨rfl, rfl⟩ : d' = d ∧ b = e := by simpa using h
      obtain ⟨k, rfl, hk, rfl⟩ := naturalOf_eq_ok_iff.mp hd
      have hscalar := Json.scalar_eq_number_iff.mpr ⟨hnumber, lift_eq_ok_iff.mp hm⟩
      obtain ⟨l, hl, hatom⟩ := Json.exists_atom hscalar hx he
      exact ⟨[l], by rw [hl, lexemes_append hatom.token fun _ => he]; rfl, .natural hatom hk⟩
    · cases h
  · simp only [if_neg hnumber] at h
    exact absurd h wrongType_ne_ok

/-- What is optional is spelt by `null` or by a value, with less fuel for that. -/
theorem spells_optional (ih : SpeltAt fuel)
    (h : readAt (fuel + 1) n (.optional s) c = .ok (d, e)) (he : Boundary e.rest) :
    ∃ ls, lexemes c.rest = ls ++ lexemes e.rest ∧
      Spells passedOver n (.value (.optional s) d) ls := by
  rw [readAt] at h
  obtain ⟨⟨x, b⟩, hx, h⟩ := bind_eq_ok_iff.mp h
  obtain ⟨rfl, hx⟩ := peek_eq_ok_iff.mp (lift_eq_ok_iff.mp hx)
  rw [← lexemes_skipBlanks c]
  simp only at h
  split_ifs at h with hnull
  · obtain ⟨⟨v, b⟩, hv, hret⟩ := bind_eq_ok_iff.mp h
    obtain ⟨rfl, rfl⟩ : Datum.absent = d ∧ b = e := by simpa using hret
    rw [hnull] at hv hx
    exact ⟨["null".toList], lexemes_null (lift_eq_ok_iff.mp hv) hx he, .absent⟩
  · obtain ⟨⟨d', b⟩, hd, hret⟩ := bind_eq_ok_iff.mp h
    obtain ⟨rfl, rfl⟩ : Datum.present d' = d ∧ b = e := by simpa using hret
    obtain ⟨ls, hls, hspells⟩ := ih (.value s d') _ _ _ hd he
    exact ⟨ls, hls, .present hspells⟩

/-- A list is spelt by its brackets and items. -/
theorem spells_list (ih : SpeltAt fuel) (h : readAt (fuel + 1) n (.list s) c = .ok (d, e)) :
    ∃ ls, lexemes c.rest = ls ++ lexemes e.rest ∧ Spells passedOver n (.value (.list s) d) ls := by
  rw [readAt] at h
  obtain ⟨⟨x, b⟩, hx, h⟩ := bind_eq_ok_iff.mp h
  obtain ⟨rfl, hx⟩ := peek_eq_ok_iff.mp (lift_eq_ok_iff.mp hx)
  rw [← lexemes_skipBlanks c]
  simp only at h
  split_ifs at h with harray hdepth
  · cases h
  · obtain ⟨⟨ds, b⟩, hds, hret⟩ := bind_eq_ok_iff.mp h
    obtain ⟨rfl, rfl⟩ : Datum.list ds = d ∧ b = e := by simpa using hret
    obtain ⟨ls, hls, hspells⟩ := ih (.items true s ds) _ _ _ hds trivial
    refine ⟨['['] :: ls, ?_, .list (by omega) hspells⟩
    rw [lexemes_mark hx (by rw [harray]; decide), harray, hls]
    rfl
  · exact absurd h wrongType_ne_ok

/-- A record is an array of its first fields, or an object with members in any order. -/
theorem spells_record {name : String} (ih : SpeltAt fuel)
    (h : readAt (fuel + 1) n (.record name fs) c = .ok (d, e)) :
    ∃ ls, lexemes c.rest = ls ++ lexemes e.rest
      ∧ Spells passedOver n (.value (.record name fs) d) ls := by
  rw [readAt] at h
  obtain ⟨⟨x, b⟩, hx, h⟩ := bind_eq_ok_iff.mp h
  obtain ⟨rfl, hx⟩ := peek_eq_ok_iff.mp (lift_eq_ok_iff.mp hx)
  rw [← lexemes_skipBlanks c]
  simp only at h
  split_ifs at h with hdepth harray hobject
  · cases h
  · obtain ⟨⟨ds, b⟩, hds, h⟩ := bind_eq_ok_iff.mp h
    simp only at h
    split at h
    · cases h
    · rename_i more hmore
      obtain ⟨b', hclose, hret⟩ := bind_eq_ok_iff.mp h
      obtain ⟨rfl, rfl⟩ : Datum.record (ds ++ more) = d ∧ b' = e := by simpa using hret
      obtain ⟨ls, hls, hspells⟩ := ih (.fields true fs ds) _ _ _ ⟨b, hds, hclose⟩ trivial
      refine ⟨['['] :: ls, ?_, .array (by simp [harray] at hdepth; omega) hspells hmore⟩
      rw [lexemes_mark hx (by rw [harray]; decide), harray, hls]
      rfl
  · obtain ⟨⟨all, b⟩, hall, h⟩ := bind_eq_ok_iff.mp h
    simp only at h
    split at h
    · cases h
    · rename_i ds hds
      obtain ⟨rfl, rfl⟩ : Datum.record ds = d ∧ b.next = e := by simpa using h
      obtain ⟨ls, hls, hspells⟩ := ih (.members true fs [] all) _ _ _ ⟨b, hall, rfl⟩ trivial
      refine ⟨['\x7b'] :: ls, ?_, .object (by simp [hobject] at hdepth; omega) hspells hds⟩
      rw [lexemes_mark hx (by rw [hobject]; decide), hobject, hls]
      rfl
  · exact absurd h wrongType_ne_ok

/-- A value of any shape is spelt, if what is inside is spelt with less fuel. -/
theorem spells_value (ih : SpeltAt fuel) (h : readAt (fuel + 1) n s c = .ok (d, e))
    (he : Boundary e.rest) :
    ∃ ls, lexemes c.rest = ls ++ lexemes e.rest ∧ Spells passedOver n (.value s d) ls := by
  cases s with
  | text =>
    obtain ⟨k, l, rfl, hl, hkey⟩ := key_of_readAt (.inl rfl) h
    exact ⟨[l], hl, .text hkey⟩
  | path =>
    obtain ⟨k, l, rfl, hl, hkey⟩ := key_of_readAt (.inr rfl) h
    exact ⟨[l], hl, .path hkey⟩
  | natural bits => exact spells_natural h he
  | optional s => exact spells_optional ih h he
  | list s => exact spells_list ih h
  | record name fs => exact spells_record ih h

/-- Items, fields and members that are not the first begin with a mark, so no word runs into
    them. -/
theorem Spells.exists_mark (h : Spells Other n p ls) (hp : ∀ s d, p ≠ .value s d)
    (hi : ∀ s ds, p ≠ .items true s ds) (hf : ∀ fs ds, p ≠ .fields true fs ds)
    (hm : ∀ fs found all, p ≠ .members true fs found all) : ∃ x rs, ls = [x] :: rs ∧ x ∈ marks := by
  cases h with
  | noItem => exact ⟨_, _, rfl, by decide⟩
  | @item _ first _ _ _ _ _ _ _ =>
    cases first with
    | true => exact absurd rfl (hi _ _)
    | false => exact ⟨',', _, rfl, by decide⟩
  | noField => exact ⟨_, _, rfl, by decide⟩
  | @field _ first _ _ _ _ _ _ _ _ =>
    cases first with
    | true => exact absurd rfl (hf _ _)
    | false => exact ⟨',', _, rfl, by decide⟩
  | noMember => exact ⟨_, _, rfl, by decide⟩
  | @known _ first _ _ _ _ _ _ _ _ _ _ _ _ _ _ =>
    cases first with
    | true => exact absurd rfl (hm _ _ _)
    | false => exact ⟨',', _, rfl, by decide⟩
  | @unknown _ first _ _ _ _ _ _ _ _ _ _ _ =>
    cases first with
    | true => exact absurd rfl (hm _ _ _)
    | false => exact ⟨',', _, rfl, by decide⟩
  | _ => exact absurd rfl (hp _ _)

/-- So are the items of a list. -/
theorem spells_items (ih : SpeltAt fuel) (h : readItems (fuel + 1) n s first c = .ok (ds, e)) :
    ∃ ls, lexemes c.rest = ls ++ lexemes e.rest ∧ Spells passedOver n (.items first s ds) ls := by
  rw [readItems] at h
  obtain ⟨⟨more, b⟩, hmore, h⟩ := bind_eq_ok_iff.mp h
  have hlead := Json.hasItem_sound (lift_eq_ok_iff.mp hmore)
  cases more with
  | false =>
    obtain ⟨rfl, rfl⟩ : [] = ds ∧ b.next = e := by simpa using h
    exact ⟨[[']']], by simpa using hlead, .noItem⟩
  | true =>
    simp only [if_true] at h hlead
    obtain ⟨⟨d, b₁⟩, hd, h⟩ := bind_eq_ok_iff.mp h
    obtain ⟨⟨ds', b₂⟩, hds, h⟩ := bind_eq_ok_iff.mp h
    obtain ⟨rfl, rfl⟩ : d :: ds' = ds ∧ b₂ = e := by simpa using h
    -- the items behind the value begin with a mark, so the value has ended
    obtain ⟨rs, hrs, hrest⟩ := ih (.items false s ds') _ _ _ hds trivial
    obtain ⟨x, ts, rfl, hx⟩ := hrest.exists_mark (by simp) (by simp) (by simp) (by simp)
    obtain ⟨ls, hls, hvalue⟩ := ih (.value s d) _ _ _ hd (boundary_of_mark hrs hx)
    refine ⟨lead first ++ (ls ++ [x] :: ts), ?_, .item hvalue hrest⟩
    rw [hlead, hls, hrs, List.append_assoc, List.append_assoc]

/-- Where no item follows, the bracket has been found and is found again. -/
theorem lexemes_of_hasItem_false {b : Cursor} (h : Json.hasItem first c = .ok (false, b)) :
    lexemes b.rest = lexemes c.rest := by
  obtain ⟨⟨x, b'⟩, hx, h⟩ := bind_eq_ok_iff.mp h
  obtain ⟨rfl, hx⟩ := peek_eq_ok_iff.mp hx
  simp only at h
  split_ifs at h
  · obtain rfl : Json.skipBlanks c = b := by simpa using h
    exact lexemes_skipBlanks c
  · cases h
  · obtain ⟨⟨y, b'⟩, hy, h⟩ := bind_eq_ok_iff.mp h
    simp only at h
    split_ifs at h
    cases h

/-- So are the fields of a record that is written as an array. -/
theorem spells_fields {b : Cursor} (ih : SpeltAt fuel)
    (h : readFields (fuel + 1) n first fs c = .ok (ds, b)) (hclose : closeList b = .ok e) :
    ∃ ls, lexemes c.rest = ls ++ lexemes e.rest ∧ Spells passedOver n (.fields first fs ds) ls := by
  have hend := closeList_eq_ok hclose
  cases fs with
  | nil =>
    rw [readFields] at h
    obtain ⟨rfl, rfl⟩ : [] = ds ∧ c = b := by simpa using h
    exact ⟨[[']']], hend, .noField⟩
  | cons f fs =>
    rw [readFields] at h
    obtain ⟨⟨more, b₁⟩, hmore, h⟩ := bind_eq_ok_iff.mp h
    have hlead := Json.hasItem_sound (lift_eq_ok_iff.mp hmore)
    cases more with
    | false =>
      obtain ⟨rfl, rfl⟩ : [] = ds ∧ b₁ = b := by simpa using h
      rw [lexemes_of_hasItem_false (lift_eq_ok_iff.mp hmore)] at hend
      exact ⟨[[']']], hend, .noField⟩
    | true =>
      simp only [if_true] at h hlead
      obtain ⟨⟨d, b₂⟩, hd, h⟩ := bind_eq_ok_iff.mp h
      obtain ⟨⟨ds', b₃⟩, hds, h⟩ := bind_eq_ok_iff.mp h
      obtain ⟨rfl, rfl⟩ : d :: ds' = ds ∧ b₃ = b := by simpa using h
      -- the fields behind the value begin with a mark, so the value has ended
      obtain ⟨rs, hrs, hrest⟩ := ih (.fields false fs ds') _ _ _ ⟨_, hds, hclose⟩ trivial
      obtain ⟨x, ts, rfl, hx⟩ := hrest.exists_mark (by simp) (by simp) (by simp) (by simp)
      obtain ⟨ls, hls, hvalue⟩ := ih (.value f.2.1 d) _ _ _ hd (boundary_of_mark hrs hx)
      refine ⟨lead first ++ (ls ++ [x] :: ts), ?_, .field hvalue hrest⟩
      rw [hlead, hls, hrs, List.append_assoc, List.append_assoc]

/-- So are the members of a record, those that it does not know included. -/
theorem spells_members {b : Cursor} (ih : SpeltAt fuel)
    (h : readMembers (fuel + 1) n first fs found c = .ok (all, b)) :
    ∃ ls, lexemes c.rest = ls ++ lexemes b.next.rest
      ∧ Spells passedOver n (.members first fs found all) ls := by
  rw [readMembers] at h
  obtain ⟨⟨more, b₁⟩, hmore, h⟩ := bind_eq_ok_iff.mp h
  obtain ⟨hlead, hquote⟩ := Json.hasMember_sound (lift_eq_ok_iff.mp hmore)
  cases more with
  | false =>
    obtain ⟨rfl, rfl⟩ : found = all ∧ b₁ = b := by simpa using h
    exact ⟨[['\x7d']], by simpa using hlead, .noMember⟩
  | true =>
    simp only [if_true] at h hlead
    obtain ⟨⟨k, b₂⟩, hk, h⟩ := bind_eq_ok_iff.mp h
    obtain ⟨l, hl, hkey⟩ := Json.stringAt_sound (hquote rfl) (lift_eq_ok_iff.mp hk)
    simp only at h
    split at h
    · rename_i hf
      obtain ⟨b₃, hcolon, h⟩ := bind_eq_ok_iff.mp h
      obtain ⟨b₄, hskip, h⟩ := bind_eq_ok_iff.mp h
      -- the members behind the value begin with a mark, so the value has ended
      obtain ⟨rs, hrs, hrest⟩ := ih (.members false fs found all) _ _ _ ⟨b, h, rfl⟩ trivial
      obtain ⟨x, ts, rfl, hx⟩ := hrest.exists_mark (by simp) (by simp) (by simp) (by simp)
      obtain ⟨ls, hls, hpassed⟩ := Json.exists_passed _ .value _ _ (lift_eq_ok_iff.mp hskip)
        (boundary_of_mark hrs hx)
      refine ⟨lead first ++ l :: [':'] :: (ls ++ [x] :: ts), ?_, .unknown hkey hf hpassed hrest⟩
      rw [hlead, hl, Json.colon_sound (lift_eq_ok_iff.mp hcolon), hls, hrs]
      simp
    · rename_i f hf
      split_ifs at h with hnew
      obtain ⟨b₃, hcolon, h⟩ := bind_eq_ok_iff.mp h
      obtain ⟨⟨d, b₄⟩, hd, h⟩ := bind_eq_ok_iff.mp h
      obtain ⟨rs, hrs, hrest⟩ := ih (.members false fs ((k, d) :: found) all) _ _ _ ⟨b, h, rfl⟩ trivial
      obtain ⟨x, ts, rfl, hx⟩ := hrest.exists_mark (by simp) (by simp) (by simp) (by simp)
      obtain ⟨ls, hls, hvalue⟩ := ih (.value f.2.1 d) _ _ _ hd (boundary_of_mark hrs hx)
      refine ⟨lead first ++ l :: [':'] :: (ls ++ [x] :: ts), ?_,
        .known hkey hf (Option.not_isSome_iff_eq_none.mp hnew) hvalue hrest⟩
      rw [hlead, hl, Json.colon_sound (lift_eq_ok_iff.mp hcolon), hls, hrs]
      simp

/-- **What is read is spelt**, by the lexemes between the two cursors. -/
theorem exists_spells (fuel : Nat) : SpeltAt fuel := by
  induction fuel with
  | zero =>
    intro p n c e h _
    cases p with
    | value s d => simp [Part.ReadFrom, readAt, lift] at h
    | items first s ds => simp [Part.ReadFrom, readItems, lift] at h
    | fields first fs ds => simp [Part.ReadFrom, readFields, lift] at h
    | members first fs found all => simp [Part.ReadFrom, readMembers, lift] at h
  | succ fuel ih =>
    intro p n c e h he
    cases p with
    | value s d => exact spells_value ih h he
    | items first s ds => exact spells_items ih h
    | fields first fs ds =>
      obtain ⟨b, h, hclose⟩ := h
      exact spells_fields ih h hclose
    | members first fs found all =>
      obtain ⟨b, h, rfl⟩ := h
      exact spells_members ih h

/-! ### What is spelt is read -/

/-- Nothing in a shape is optional twice over, so a reader has fuel for each of its parts. -/
inductive Plain : Shape → Prop
  | text : Plain .text
  | path : Plain .path
  | natural {bits : Nat} : Plain (.natural bits)
  | optional {s : Shape} (h : Plain s) (hs : ∀ t, s ≠ .optional t) : Plain (.optional s)
  | list {s : Shape} (h : Plain s) : Plain (.list s)
  | record {name : String} {fs : List Field} (h : ∀ f ∈ fs, Plain f.2.1) : Plain (.record name fs)

/-- The shapes that a part is about. -/
def Part.Plain : Part → Prop
  | .value s _ => s.Plain
  | .items _ s _ => s.Plain
  | .fields _ fs _ => ∀ f ∈ fs, f.2.1.Plain
  | .members _ fs _ _ => ∀ f ∈ fs, f.2.1.Plain

/-- An optional value takes one step more than the value in it. -/
def Part.spare : Part → Nat
  | .value (.optional _) _ => 0
  | _ => 1

/-- The part is read wherever its lexemes stand, with twice as much fuel as there are of them. -/
def ReadAs (n : Nat) (p : Part) (ls : List (List Char)) : Prop :=
  ∀ ⦃c : Cursor⦄ ⦃more : List (List Char)⦄ ⦃fuel : Nat⦄, lexemes c.rest = ls ++ more →
    2 * ls.length ≤ fuel + p.spare → ∃ e, p.ReadFrom fuel n c e ∧ lexemes e.rest = more

/-- A value that is not optional begins with a bracket, a literal or a number, and an optional one
    may also be nothing. -/
theorem Spells.exists_head (h : Spells Other n (.value s d) ls) :
    ∃ l rs x, ls = l :: rs ∧ l.head? = some x ∧ x ∉ [']', '\x7d', ',', ':']
      ∧ ((∀ t, s ≠ .optional t) → x ≠ 'n') := by
  generalize hp : Part.value s d = p at h
  induction h generalizing s d with
  | text h =>
    exact ⟨_, _, '"', rfl, h.head, by decide, fun _ => by decide⟩
  | path h => exact ⟨_, _, '"', rfl, h.head, by decide, fun _ => by decide⟩
  | @natural _ _ _ l h _ =>
    obtain ⟨x, b, hx, hmark, hok, -⟩ := h.scalar_eq_ok (c := .start l) (r := [])
      (List.append_nil l).symm fun _ => trivial
    have hsub : [']', '\x7d', ',', ':'] ⊆ marks := by decide
    refine ⟨l, [], x, rfl, hx, fun hmem => hmark (hsub hmem), fun _ => ?_⟩
    rintro rfl
    exact absurd (Json.scalar_eq_number_iff.mp hok).1 (by decide)
  | absent =>
    obtain ⟨rfl, -⟩ := Part.value.inj hp
    exact ⟨_, _, 'n', rfl, rfl, by decide, fun h => absurd rfl (h _)⟩
  | present _ ih =>
    obtain ⟨rfl, -⟩ := Part.value.inj hp
    obtain ⟨l, rs, x, hls, hx, hmark, -⟩ := ih rfl
    exact ⟨l, rs, x, hls, hx, hmark, fun h => absurd rfl (h _)⟩
  | list _ _ _ => exact ⟨_, _, '[', rfl, rfl, by decide, fun _ => by decide⟩
  | array _ _ _ _ => exact ⟨_, _, '[', rfl, rfl, by decide, fun _ => by decide⟩
  | object _ _ _ _ => exact ⟨_, _, '\x7b', rfl, rfl, by decide, fun _ => by decide⟩
  | _ => cases hp

/-- Whatever is spelt has a lexeme. -/
theorem Spells.length_pos (h : Spells Other n p ls) : 0 < ls.length := by
  cases p with
  | value s d =>
    obtain ⟨l, rs, x, rfl, -⟩ := h.exists_head
    simp
  | items first s ds =>
    cases h with
    | noItem => simp
    | item hd _ =>
      obtain ⟨l, rs, x, rfl, -⟩ := hd.exists_head
      simp only [List.length_append, List.length_cons]
      omega
  | fields first fs ds =>
    cases h with
    | noField => simp
    | field hd _ =>
      obtain ⟨l, rs, x, rfl, -⟩ := hd.exists_head
      simp only [List.length_append, List.length_cons]
      omega
  | members first fs found all =>
    cases h with
    | noMember => simp
    | _ =>
      simp only [List.length_append, List.length_cons]
      omega

/-- Only an optional shape takes two steps for one lexeme. -/
theorem spare_of_ne (hs : ∀ t, s ≠ .optional t) : (Part.value s d).spare = 1 := by
  unfold Part.spare
  split
  · rename_i heq
    exact absurd (Part.value.inj heq).1 (hs _)
  · rfl

/-- A literal is read where text is wanted. -/
theorem readText {k : String} (wanted : String) (h : Key k l) (hc : lexemes c.rest = l :: more) :
    ∃ x e, Json.peek .eofValue c = .ok (x, Json.skipBlanks c)
      ∧ (if x = '"' then (do
            let (t, b) ← lift (Json.stringAt (Json.skipBlanks c).next)
            .ok (Datum.text t, b))
          else wrongType x wanted (Json.skipBlanks c)) = .ok (.text k, e)
      ∧ lexemes e.rest = more := by
  obtain ⟨x, r, hpeek, hx, hr, -, hmore⟩ := Json.exists_peek .eofValue hc
  obtain rfl : '"' = x := by simpa [h.head] using hx
  obtain ⟨b, t, rfl, hquoted, rfl⟩ := h
  obtain ⟨e, he, hrest⟩ := Json.accepts_stringAt.complete (c := (Json.skipBlanks c).next)
    ⟨t, hquoted, rfl⟩ (show (Json.skipBlanks c).next.rest = b ++ r by simp [hr])
  refine ⟨'"', e, hpeek, ?_, by rw [hrest, hmore]⟩
  rw [if_pos rfl]
  exact bind_eq_ok_iff.mpr ⟨_, lift_eq_ok_iff.mpr he, rfl⟩

/-- A literal is read as a text. -/
theorem readAs_text {k : String} (h : Key k l) : ReadAs n (.value .text (.text k)) [l] := by
  intro c more fuel hc hfuel
  obtain ⟨fuel, rfl⟩ : ∃ k, fuel = k + 1 := ⟨fuel - 1, by simp [Part.spare] at hfuel; omega⟩
  obtain ⟨x, e, hpeek, he, hrest⟩ := readText (wanted .text) h hc
  refine ⟨e, ?_, hrest⟩
  rw [Part.ReadFrom, readAt]
  exact bind_eq_ok_iff.mpr ⟨_, lift_eq_ok_iff.mpr hpeek, he⟩

/-- A literal is read as a path. -/
theorem readAs_path {k : String} (h : Key k l) : ReadAs n (.value .path (.text k)) [l] := by
  intro c more fuel hc hfuel
  obtain ⟨fuel, rfl⟩ : ∃ k, fuel = k + 1 := ⟨fuel - 1, by simp [Part.spare] at hfuel; omega⟩
  obtain ⟨x, e, hpeek, he, hrest⟩ := readText (wanted .path) h hc
  refine ⟨e, ?_, hrest⟩
  rw [Part.ReadFrom, readAt]
  exact bind_eq_ok_iff.mpr ⟨_, lift_eq_ok_iff.mpr hpeek, he⟩

/-- An integer from 0 below `2 ^ bits` is read as a natural number. -/
theorem readAs_natural {m : Nat} (h : Atom (.number (.int m)) l) (hm : m < Nat.pow 2 bits) :
    ReadAs n (.value (.natural bits) (.natural m)) [l] := by
  intro c more fuel hc hfuel
  obtain ⟨fuel, rfl⟩ : ∃ k, fuel = k + 1 := ⟨fuel - 1, by simp [Part.spare] at hfuel; omega⟩
  have hc : lexemes c.rest = l :: more := hc
  obtain ⟨x, r, hpeek, hx, hr, hb, hmore⟩ := Json.exists_peek .eofValue hc
  obtain ⟨y, e, hy, -, hok, he⟩ := h.scalar_eq_ok hr hb
  obtain rfl : x = y := by
    obtain ⟨u, rfl⟩ := List.head?_eq_some_iff.mp hx
    simpa [hr] using hy
  obtain ⟨hnumber, hok⟩ := Json.scalar_eq_number_iff.mp hok
  refine ⟨e, ?_, by rw [he, hmore]⟩
  rw [Part.ReadFrom, readAt]
  refine bind_eq_ok_iff.mpr ⟨_, lift_eq_ok_iff.mpr hpeek, ?_⟩
  simp only [if_pos hnumber]
  refine bind_eq_ok_iff.mpr ⟨_, lift_eq_ok_iff.mpr hok, ?_⟩
  simp only [naturalOf_eq_ok_iff.mpr ⟨m, rfl, hm, rfl⟩]

/-- The word `null` is read as nothing. -/
theorem readAs_absent : ReadAs n (.value (.optional s) .absent) ["null".toList] := by
  intro c more fuel hc hfuel
  obtain ⟨fuel, rfl⟩ : ∃ k, fuel = k + 1 := ⟨fuel - 1, by simp [Part.spare] at hfuel; omega⟩
  have hc : lexemes c.rest = "null".toList :: more := hc
  obtain ⟨x, r, hpeek, hx, hr, -, hmore⟩ := Json.exists_peek .eofValue hc
  obtain rfl : 'n' = x := by simpa using hx
  have hrest : (Json.skipBlanks c).next.rest = "ull".toList ++ r := by simp [hr]
  obtain ⟨e, he, hrest⟩ := Json.word_complete hrest
  refine ⟨e, ?_, by rw [hrest, hmore]⟩
  rw [Part.ReadFrom, readAt]
  refine bind_eq_ok_iff.mpr ⟨_, lift_eq_ok_iff.mpr hpeek, ?_⟩
  have hscalar : Json.scalar 'n' (Json.skipBlanks c) = .ok (.null, e) :=
    bind_eq_ok_iff.mpr ⟨_, he, rfl⟩
  exact bind_eq_ok_iff.mpr ⟨_, lift_eq_ok_iff.mpr hscalar, rfl⟩

/-- Any other value is read as what is there. -/
theorem ReadAs.present (h : ReadAs n (.value s d) ls) (hspells : Spells Other n (.value s d) ls)
    (hs : ∀ t, s ≠ .optional t) : ReadAs n (.value (.optional s) (.present d)) ls := by
  intro c more fuel hc hfuel
  have hpos := hspells.length_pos
  obtain ⟨fuel, rfl⟩ : ∃ k, fuel = k + 1 := ⟨fuel - 1, by simp [Part.spare] at hfuel; omega⟩
  obtain ⟨l, rs, x, rfl, hx, -, hnull⟩ := hspells.exists_head
  obtain ⟨y, r, hpeek, hy, -⟩ := Json.exists_peek .eofValue hc
  obtain rfl : x = y := by simpa [hx] using hy
  rw [← lexemes_skipBlanks] at hc
  have hfuel : 2 * (l :: rs).length ≤ fuel + (Part.value s d).spare := by
    rw [spare_of_ne hs]
    exact hfuel
  obtain ⟨e, he, hrest⟩ := h hc hfuel
  refine ⟨e, ?_, hrest⟩
  rw [Part.ReadFrom, readAt]
  refine bind_eq_ok_iff.mpr ⟨_, lift_eq_ok_iff.mpr hpeek, ?_⟩
  simp only [if_neg (hnull hs)]
  exact bind_eq_ok_iff.mpr ⟨_, he, rfl⟩

/-- A list is read if its items are, one level deeper. -/
theorem ReadAs.list (h : ReadAs (n - 1) (.items true s ds) ls) (hn : 1 < n) :
    ReadAs n (.value (.list s) (.list ds)) (['['] :: ls) := by
  intro c more fuel hc hfuel
  simp only [List.length_cons, Part.spare] at hfuel
  obtain ⟨fuel, rfl⟩ : ∃ k, fuel = k + 1 := ⟨fuel - 1, by omega⟩
  obtain ⟨hpeek, hmore⟩ := Json.peek_mark .eofValue hc
  obtain ⟨e, he, hrest⟩ := h hmore (show 2 * ls.length ≤ fuel + 1 by omega)
  refine ⟨e, ?_, hrest⟩
  rw [Part.ReadFrom, readAt]
  refine bind_eq_ok_iff.mpr ⟨_, lift_eq_ok_iff.mpr hpeek, ?_⟩
  simp only [if_true, if_neg (show ¬ n ≤ 1 by omega)]
  exact bind_eq_ok_iff.mpr ⟨_, he, rfl⟩

/-- A record is read from an array if its fields are, and the rest have defaults. -/
theorem ReadAs.array {name : String} {after : List Datum}
    (h : ReadAs (n - 1) (.fields true fs ds) ls) (hn : 1 < n)
    (hafter : defaults name fs ds.length = .ok after) :
    ReadAs n (.value (.record name fs) (.record (ds ++ after))) (['['] :: ls) := by
  intro c more fuel hc hfuel
  simp only [List.length_cons, Part.spare] at hfuel
  obtain ⟨fuel, rfl⟩ : ∃ k, fuel = k + 1 := ⟨fuel - 1, by omega⟩
  obtain ⟨hpeek, hmore⟩ := Json.peek_mark .eofValue hc
  obtain ⟨e, ⟨b, hb, hclose⟩, hrest⟩ := h hmore (show 2 * ls.length ≤ fuel + 1 by omega)
  refine ⟨e, ?_, hrest⟩
  rw [Part.ReadFrom, readAt]
  refine bind_eq_ok_iff.mpr ⟨_, lift_eq_ok_iff.mpr hpeek, ?_⟩
  simp only [Nat.not_le_of_lt hn, false_and, if_false, if_true]
  refine bind_eq_ok_iff.mpr ⟨_, hb, ?_⟩
  simp only [hafter]
  exact bind_eq_ok_iff.mpr ⟨_, hclose, rfl⟩

/-- A record is read from an object if its members are, and they are all that is needed. -/
theorem ReadAs.object {name : String} (h : ReadAs (n - 1) (.members true fs [] all) ls)
    (hn : 1 < n) (hall : gather all fs = .ok ds) :
    ReadAs n (.value (.record name fs) (.record ds)) (['\x7b'] :: ls) := by
  intro c more fuel hc hfuel
  simp only [List.length_cons, Part.spare] at hfuel
  obtain ⟨fuel, rfl⟩ : ∃ k, fuel = k + 1 := ⟨fuel - 1, by omega⟩
  obtain ⟨hpeek, hmore⟩ := Json.peek_mark .eofValue hc
  obtain ⟨e, ⟨b, hb, rfl⟩, hrest⟩ := h hmore (show 2 * ls.length ≤ fuel + 1 by omega)
  refine ⟨b.next, ?_, hrest⟩
  rw [Part.ReadFrom, readAt]
  refine bind_eq_ok_iff.mpr ⟨_, lift_eq_ok_iff.mpr hpeek, ?_⟩
  simp only [Nat.not_le_of_lt hn, false_and, Char.reduceEq, if_false, if_true]
  refine bind_eq_ok_iff.mpr ⟨_, hb, ?_⟩
  simp only [hall]

/-- A closing bracket is read as no items. -/
theorem readAs_noItem (first : Bool) : ReadAs n (.items first s []) [[']']] := by
  intro c more fuel hc hfuel
  simp only [List.length_singleton, Part.spare] at hfuel
  obtain ⟨fuel, rfl⟩ : ∃ k, fuel = k + 1 := ⟨fuel - 1, by omega⟩
  obtain ⟨b, hb, hrest⟩ := Json.hasItem_close first hc
  refine ⟨b.next, ?_, hrest⟩
  rw [Part.ReadFrom, readItems]
  exact bind_eq_ok_iff.mpr ⟨_, lift_eq_ok_iff.mpr hb, rfl⟩

/-- What stands before an item and the item are read one behind the other. -/
theorem ReadAs.exists_item (hd : ReadAs n (.value s d) ls)
    (hspells : Spells Other n (.value s d) ls) (hc : lexemes c.rest = lead first ++ (ls ++ more))
    (hfuel : 2 * ls.length ≤ fuel) :
    ∃ b b₁, Json.hasItem first c = .ok (true, b) ∧ readAt fuel n s b = .ok (d, b₁) ∧
      lexemes b₁.rest = more := by
  obtain ⟨l, ts, x, rfl, hx, hne, -⟩ := hspells.exists_head
  obtain ⟨b, hb, hle⟩ := Json.hasItem_go_on hc hx (fun h => hne (by rw [h]; decide))
  obtain ⟨b₁, hb₁, hle₁⟩ := hd hle (hfuel.trans (Nat.le_add_right fuel _))
  exact ⟨b, b₁, hb, hb₁, hle₁⟩

/-- Each of the two parts is shorter than the whole, so there is fuel for both. -/
theorem ReadAs.item {rs : List (List Char)} (hd : ReadAs n (.value s d) ls)
    (hds : ReadAs n (.items false s ds) rs) (hspells : Spells Other n (.value s d) ls)
    (hrs : 0 < rs.length) : ReadAs n (.items first s (d :: ds)) (lead first ++ (ls ++ rs)) := by
  intro c more fuel hc hfuel
  have hls := hspells.length_pos
  simp only [List.length_append, Part.spare] at hfuel
  obtain ⟨fuel, rfl⟩ : ∃ k, fuel = k + 1 := ⟨fuel - 1, by omega⟩
  rw [List.append_assoc, List.append_assoc] at hc
  obtain ⟨b, b₁, hb, hb₁, hle₁⟩ := hd.exists_item hspells hc (show _ ≤ fuel by omega)
  obtain ⟨b₂, hb₂, hle₂⟩ := hds hle₁ (show _ ≤ fuel + 1 by omega)
  refine ⟨b₂, ?_, hle₂⟩
  rw [Part.ReadFrom, readItems]
  refine bind_eq_ok_iff.mpr ⟨_, lift_eq_ok_iff.mpr hb, ?_⟩
  exact bind_eq_ok_iff.mpr ⟨_, hb₁, bind_eq_ok_iff.mpr ⟨_, hb₂, rfl⟩⟩

/-- The lexeme `]` closes a list. -/
theorem closeList_complete (h : lexemes c.rest = [']'] :: more) :
    ∃ e, closeList c = .ok e ∧ lexemes e.rest = more := by
  obtain ⟨hpeek, hmore⟩ := Json.peek_mark .eofList h
  exact ⟨_, bind_eq_ok_iff.mpr ⟨_, lift_eq_ok_iff.mpr hpeek, by simp only [if_true]⟩, hmore⟩

/-- A closing bracket is read as no fields. -/
theorem readAs_noField (first : Bool) : ReadAs n (.fields first fs []) [[']']] := by
  intro c more fuel hc hfuel
  simp only [List.length_singleton, Part.spare] at hfuel
  obtain ⟨fuel, rfl⟩ : ∃ k, fuel = k + 1 := ⟨fuel - 1, by omega⟩
  cases fs with
  | nil =>
    obtain ⟨e, he, hrest⟩ := closeList_complete hc
    exact ⟨e, ⟨c, by rw [readFields], he⟩, hrest⟩
  | cons f fs =>
    obtain ⟨b, hb, -⟩ := Json.hasItem_close first hc
    rw [← lexemes_of_hasItem_false hb] at hc
    obtain ⟨e, he, hrest⟩ := closeList_complete hc
    refine ⟨e, ⟨b, ?_, he⟩, hrest⟩
    rw [readFields]
    exact bind_eq_ok_iff.mpr ⟨_, lift_eq_ok_iff.mpr hb, rfl⟩

/-- A field is read in front of others. -/
theorem ReadAs.field {f : Field} {rs : List (List Char)} (hd : ReadAs n (.value f.2.1 d) ls)
    (hds : ReadAs n (.fields false fs ds) rs) (hspells : Spells Other n (.value f.2.1 d) ls)
    (hrs : 0 < rs.length) :
    ReadAs n (.fields first (f :: fs) (d :: ds)) (lead first ++ (ls ++ rs)) := by
  intro c more fuel hc hfuel
  have hls := hspells.length_pos
  simp only [List.length_append, Part.spare] at hfuel
  obtain ⟨fuel, rfl⟩ : ∃ k, fuel = k + 1 := ⟨fuel - 1, by omega⟩
  rw [List.append_assoc, List.append_assoc] at hc
  obtain ⟨b, b₁, hb, hb₁, hle₁⟩ := hd.exists_item hspells hc (show _ ≤ fuel by omega)
  obtain ⟨e, ⟨b₂, hb₂, hclose⟩, hle₂⟩ := hds hle₁ (show _ ≤ fuel + 1 by omega)
  refine ⟨e, ⟨b₂, ?_, hclose⟩, hle₂⟩
  rw [readFields]
  refine bind_eq_ok_iff.mpr ⟨_, lift_eq_ok_iff.mpr hb, ?_⟩
  exact bind_eq_ok_iff.mpr ⟨_, hb₁, bind_eq_ok_iff.mpr ⟨_, hb₂, rfl⟩⟩

/-- A closing brace is read as no members. -/
theorem readAs_noMember (first : Bool) : ReadAs n (.members first fs found found) [['\x7d']] := by
  intro c more fuel hc hfuel
  simp only [List.length_singleton, Part.spare] at hfuel
  obtain ⟨fuel, rfl⟩ : ∃ k, fuel = k + 1 := ⟨fuel - 1, by omega⟩
  obtain ⟨b, hb, hrest⟩ := Json.hasMember_close first hc
  refine ⟨b.next, ⟨b, ?_, rfl⟩, hrest⟩
  rw [readMembers]
  exact bind_eq_ok_iff.mpr ⟨_, lift_eq_ok_iff.mpr hb, rfl⟩

/-- The key of a member and its colon are read one behind the other. -/
theorem exists_key {k : String} {rs : List (List Char)} (hk : Key k l)
    (hc : lexemes c.rest = lead first ++ l :: [':'] :: rs) :
    ∃ b b₁ b₂, Json.hasMember first c = .ok (true, b) ∧ Json.stringAt b.next = .ok (k, b₁)
      ∧ Json.colon b₁ = .ok b₂ ∧ lexemes b₂.rest = rs := by
  obtain ⟨b, r, hb, hbr, hle⟩ := Json.hasMember_go_on hc hk.head
  obtain ⟨u, t, rfl, hquoted, rfl⟩ := hk
  obtain ⟨b₁, hb₁, hr⟩ := Json.accepts_stringAt.complete (c := b.next) ⟨t, hquoted, rfl⟩
    (show b.next.rest = u ++ r by simp [hbr])
  rw [← hr] at hle
  obtain ⟨b₂, hb₂, hle₂⟩ := Json.colon_eq_ok hle
  exact ⟨b, b₁, b₂, hb, hb₁, hb₂, hle₂⟩

/-- A member with the key of a field is read by the shape of that field, once. -/
theorem ReadAs.known {k : String} {f : Field} {rs : List (List Char)}
    (hd : ReadAs n (.value f.2.1 d) ls)
    (hms : ReadAs n (.members false fs ((k, d) :: found) all) rs) (hk : Key k l)
    (hf : fs.find? (·.1 == k) = some f) (hnew : found.lookup k = none) :
    ReadAs n (.members first fs found all) (lead first ++ l :: [':'] :: (ls ++ rs)) := by
  intro c more fuel hc hfuel
  simp only [List.length_append, List.length_cons, Part.spare] at hfuel
  obtain ⟨fuel, rfl⟩ : ∃ k, fuel = k + 1 := ⟨fuel - 1, by omega⟩
  simp only [List.append_assoc, List.cons_append] at hc
  obtain ⟨b, b₁, b₂, hb, hb₁, hb₂, hle₂⟩ := exists_key hk hc
  obtain ⟨b₃, hb₃, hle₃⟩ := hd hle₂ (show _ ≤ fuel + _ by omega)
  obtain ⟨e, ⟨b₄, hb₄, rfl⟩, hle₄⟩ := hms hle₃ (show _ ≤ fuel + 1 by omega)
  refine ⟨b₄.next, ⟨b₄, ?_, rfl⟩, hle₄⟩
  rw [readMembers]
  refine bind_eq_ok_iff.mpr ⟨_, lift_eq_ok_iff.mpr hb, ?_⟩
  refine bind_eq_ok_iff.mpr ⟨_, lift_eq_ok_iff.mpr hb₁, ?_⟩
  simp only [hf, hnew, Option.isSome_none, Bool.false_eq_true, if_false]
  refine bind_eq_ok_iff.mpr ⟨_, lift_eq_ok_iff.mpr hb₂, ?_⟩
  exact bind_eq_ok_iff.mpr ⟨_, hb₃, hb₄⟩

/-- A member with another key is passed over. -/
theorem ReadAs.unknown {k : String} {rs : List (List Char)} (hd : Passed .value ls)
    (hms : ReadAs n (.members false fs found all) rs) (hk : Key k l)
    (hf : fs.find? (·.1 == k) = none) :
    ReadAs n (.members first fs found all) (lead first ++ l :: [':'] :: (ls ++ rs)) := by
  intro c more fuel hc hfuel
  simp only [List.length_append, List.length_cons, Part.spare] at hfuel
  obtain ⟨fuel, rfl⟩ : ∃ k, fuel = k + 1 := ⟨fuel - 1, by omega⟩
  simp only [List.append_assoc, List.cons_append] at hc
  obtain ⟨b, b₁, b₂, hb, hb₁, hb₂, hle₂⟩ := exists_key hk hc
  -- passing over has its own fuel, for all that is left of the text
  have hskip : 2 * ls.length < Json.fuelFor b₂ := by
    have hle := Json.length_lexemes_le b₂.rest
    rw [hle₂, List.length_append] at hle
    rw [Json.fuelFor]
    omega
  obtain ⟨b₃, hb₃, hle₃⟩ := hd.skipAs hle₂ hskip
  obtain ⟨e, ⟨b₄, hb₄, rfl⟩, hle₄⟩ := hms hle₃ (show _ ≤ fuel + 1 by omega)
  refine ⟨b₄.next, ⟨b₄, ?_, rfl⟩, hle₄⟩
  rw [readMembers]
  refine bind_eq_ok_iff.mpr ⟨_, lift_eq_ok_iff.mpr hb, ?_⟩
  refine bind_eq_ok_iff.mpr ⟨_, lift_eq_ok_iff.mpr hb₁, ?_⟩
  simp only [hf]
  refine bind_eq_ok_iff.mpr ⟨_, lift_eq_ok_iff.mpr hb₂, ?_⟩
  exact bind_eq_ok_iff.mpr ⟨_, lift_eq_ok_iff.mpr hb₃, hb₄⟩

/-- **What is spelt is read**, if nothing in the shape is optional twice over. -/
theorem Spells.readAs (h : Spells passedOver n p ls) (hp : p.Plain) : ReadAs n p ls := by
  induction h with
  | text h => exact readAs_text h
  | path h => exact readAs_path h
  | natural h hm => exact readAs_natural h hm
  | absent => exact readAs_absent
  | present h ih =>
    cases hp with
    | optional hs hne => exact (ih hs).present h hne
  | list hn _ ih =>
    cases hp with
    | list hs => exact (ih hs).list hn
  | array hn _ hmore ih =>
    cases hp with
    | record hfs => exact (ih hfs).array hn hmore
  | object hn _ hall ih =>
    cases hp with
    | record hfs => exact (ih hfs).object hn hall
  | noItem => exact readAs_noItem _
  | item hd hds ihd ihds => exact (ihd hp).item (ihds hp) hd hds.length_pos
  | noField => exact readAs_noField _
  | field hd hds ihd ihds =>
    obtain ⟨hf, hfs⟩ := List.forall_mem_cons.mp hp
    exact (ihd hf).field (ihds hfs) hd hds.length_pos
  | noMember => exact readAs_noMember _
  | known hk hf hnew _ _ ihd ihms =>
    exact (ihd (hp _ (List.mem_of_find?_eq_some hf))).known (ihms hp) hk hf hnew
  | unknown hk hf hd _ ihms => exact ReadAs.unknown hd (ihms hp) hk hf

/-! ### Texts -/

/-- **What is found in a text is what its lexemes spell**, and nothing is if they spell nothing. -/
theorem read_eq_ok_iff (hs : s.Plain) {text : List Char} :
    s.read text = .ok d ↔ Spells passedOver Json.depthLimit (.value s d) (lexemes text) := by
  constructor
  · intro h
    obtain ⟨⟨d', e⟩, hd, h⟩ := bind_eq_ok_iff.mp h
    obtain ⟨⟨⟩, he, h⟩ := bind_eq_ok_iff.mp h
    obtain rfl : d' = d := by simpa using h
    have hend : lexemes e.rest = [] := Json.finish_eq_ok_iff.mp (lift_eq_ok_iff.mp he)
    have hb : Boundary e.rest := Json.boundary_of_lexemes (by simp [hend])
    obtain ⟨ls, hls, hspells⟩ := exists_spells _ (.value s d') _ _ _ hd hb
    rw [hend, List.append_nil] at hls
    have hls : lexemes text = ls := hls
    rwa [hls]
  · intro h
    have hlen := Json.length_lexemes_le text
    have hfuel : 2 * (lexemes text).length
        ≤ Json.fuelFor (Cursor.start text) + (Part.value s d).spare := by
      show 2 * (lexemes text).length ≤ 2 * text.length + 2 + _
      omega
    have hall : lexemes (Cursor.start text).rest = lexemes text ++ [] := (List.append_nil _).symm
    obtain ⟨e, he, hend⟩ := h.readAs hs hall hfuel
    exact bind_eq_ok_iff.mpr ⟨_, he, bind_eq_ok_iff.mpr
      ⟨(), lift_eq_ok_iff.mpr (Json.finish_eq_ok_iff.mpr hend), rfl⟩⟩

end DeclarationDocs.Shape
