import DeclarationDocs.Proofs.Json.Literal

namespace DeclarationDocs.Json

/-!
# The grammar of JSON

The reader of values is compared with a grammar over lexemes.  Blanks, places and fuel are gone
from it, so two texts with the same lexemes are both read, with the same value, or both not.

* `Atom v l` — one lexeme that stands for a value;
* `Spells n p ls` — the lexemes `ls` are the part `p` of a value that may nest `n` deep;
* `exists_spells`, `Spells.readAs` — what is read is spelt, and what is spelt is read;
* `parse_eq_ok_iff` — the texts that are read, and the values they are read as.
-/

/-- A lexeme that stands for a string. -/
def Key (k : String) (l : List Char) : Prop :=
  ∃ b t, l = '"' :: b ∧ Quoted b t ∧ k = String.ofList t

/-- A lexeme that stands for a value: a literal, or a word that the reader of words takes whole. -/
inductive Atom : Json → List Char → Prop
  | literal {k : String} {l : List Char} (h : Key k l) : Atom (.string k) l
  | word {v : Json} {x : Char} {u : List Char} {d : Cursor} (hx : ∀ y ∈ x :: u, isWordChar y = true)
      (h : scalar x (Cursor.start (x :: u)) = .ok (v, d)) (hd : d.rest = []) : Atom v (x :: u)

/-- The parts that a value is read in. -/
inductive Part where
  | value (v : Json)
  | items (first : Bool) (vs : List Json)
  | members (first : Bool) (ms : List (String × Json))

/-- The comma in front of an item or member that is not the first. -/
def lead (first : Bool) : List (List Char) := if first then [] else [[',']]

/-- The lexemes of a part of a value.  Items and members go up to and with the closing bracket. -/
inductive Spells : Nat → Part → List (List Char) → Prop
  | atom {n : Nat} {v : Json} {l : List Char} (h : Atom v l) : Spells n (.value v) [l]
  | array {n : Nat} {vs : List Json} {ls : List (List Char)} (hn : 1 < n)
      (h : Spells (n - 1) (.items true vs) ls) : Spells n (.value (.array vs)) (['['] :: ls)
  | object {n : Nat} {ms : List (String × Json)} {ls : List (List Char)} (hn : 1 < n)
      (h : Spells (n - 1) (.members true ms) ls) : Spells n (.value (.object ms)) (['\x7b'] :: ls)
  | noItem {n : Nat} {first : Bool} : Spells n (.items first []) [[']']]
  | item {n : Nat} {first : Bool} {v : Json} {vs : List Json} {ls rs : List (List Char)}
      (hv : Spells n (.value v) ls) (hvs : Spells n (.items false vs) rs) :
      Spells n (.items first (v :: vs)) (lead first ++ (ls ++ rs))
  | noMember {n : Nat} {first : Bool} : Spells n (.members first []) [['\x7d']]
  | member {n : Nat} {first : Bool} {k : String} {v : Json} {ms : List (String × Json)}
      {l : List Char} {ls rs : List (List Char)} (hk : Key k l) (hv : Spells n (.value v) ls)
      (hms : Spells n (.members false ms) rs) :
      Spells n (.members first ((k, v) :: ms)) (lead first ++ l :: [':'] :: (ls ++ rs))

/-- The reader of a part takes it from one cursor to another. -/
def Part.ReadFrom (fuel n : Nat) (c d : Cursor) : Part → Prop
  | .value v => Json.value fuel n c = .ok (v, d)
  | .items first vs => itemsOf fuel n first c = .ok (vs, d)
  | .members first ms => membersOf fuel n first c = .ok (ms, d)

/-- Where a part may end: a value that is a word must not run on. -/
def Part.EndsAt (s : List Char) : Part → Prop
  | .value _ => Boundary s
  | _ => True

variable {c d : Cursor} {s l r : List Char} {ls more : List (List Char)} {x : Char}
  {n fuel : Nat} {first : Bool} {v : Json} {k : String} {p : Part}

/-! ### Atoms -/

/-- A key is one token. -/
theorem Key.token (h : Key k l) : Token l := by
  obtain ⟨b, t, rfl, hb, -⟩ := h
  exact .literal hb.body

/-- A key begins with a quote. -/
theorem Key.head (h : Key k l) : l.head? = some '"' := by
  obtain ⟨b, t, rfl, -, -⟩ := h
  rfl

/-- An atom is one token. -/
theorem Atom.token (h : Atom v l) : Token l := by
  cases h with
  | literal h => exact h.token
  | word hx _ _ => exact .word (by simp) hx

/-- An atom begins neither with a bracket nor with a comma or colon. -/
theorem Atom.exists_head (h : Atom v l) : ∃ x, l.head? = some x ∧ x ∉ marks := by
  cases h with
  | literal h => exact ⟨'"', h.head, by decide⟩
  | @word _ x u _ hx _ _ =>
    exact ⟨x, rfl, not_mem_marks (hx x (by simp))⟩

/-- What the reader of scalars takes from a text is an atom. -/
theorem exists_atom (h : scalar x c = .ok (v, d)) (hx : c.rest.head? = some x)
    (hd : Boundary d.rest) : ∃ l, c.rest = l ++ d.rest ∧ Atom v l := by
  obtain ⟨r, hc⟩ := List.head?_eq_some_iff.mp hx
  by_cases hq : x = '"'
  · subst hq
    obtain ⟨⟨k, e⟩, hk, hret⟩ := bind_eq_ok_iff.mp h
    obtain ⟨rfl, rfl⟩ : Json.string k = v ∧ e = d := by simpa using hret
    obtain ⟨b, hb, t, hquoted, rfl⟩ := accepts_stringAt.sound hk
    rw [Cursor.next_rest, hc, List.tail_cons] at hb
    exact ⟨'"' :: b, by rw [hc, hb]; rfl, .literal ⟨b, t, rfl, hquoted, rfl⟩⟩
  -- the word alone agrees with the text, so it is read alone, and to its end
  let w := c.rest.takeWhile isWordChar
  have hw : ∀ y ∈ w, isWordChar y = true := fun y hy => List.mem_takeWhile_imp hy
  have hagree : Agree c.rest (Cursor.start w).rest := by
    show Agree c.rest w
    have h := agree_append hw (boundary_dropWhile c.rest) (show Boundary [] from trivial)
    rwa [List.takeWhile_append_dropWhile, List.append_nil] at h
  obtain ⟨hword, d', hok, u, -, hcu, hwu, hd'⟩ :=
    scalar_agree hagree hx hq h
  have hwu : w = u ++ d'.rest := hwu
  have hnil : d'.rest = [] := by
    have hb := hd'.boundary hd
    cases hr : d'.rest with
    | nil => rfl
    | cons y t =>
      have hy : isWordChar y = true := hw y (by simp [hwu, hr])
      rw [hr] at hb
      exact absurd hb (not_boundary_cons hy)
  have hwx : w = x :: r.takeWhile isWordChar := by
    show c.rest.takeWhile isWordChar = _
    rw [hc, List.takeWhile_cons, if_pos hword]
  refine ⟨w, by rw [hcu, hwu, hnil, List.append_nil], ?_⟩
  rw [hwx] at hok hw ⊢
  exact .word hw hok hnil

/-- An atom is read wherever it stands, if it is no word that runs on. -/
theorem Atom.scalar_eq_ok (h : Atom v l) (hc : c.rest = l ++ r) (hr : IsWord l → Boundary r) :
    ∃ x d, c.rest.head? = some x ∧ x ∉ marks ∧ scalar x c = .ok (v, d) ∧ d.rest = r := by
  cases h with
  | @literal k _ h =>
    obtain ⟨b, t, rfl, hquoted, rfl⟩ := h
    have hc : c.rest = '"' :: (b ++ r) := hc
    obtain ⟨d, hd, hrest⟩ := accepts_stringAt.complete (c := c.next) ⟨t, hquoted, rfl⟩
      (show c.next.rest = b ++ r by simp [hc])
    refine ⟨'"', d, by simp [hc], by decide, bind_eq_ok_iff.mpr ⟨_, hd, rfl⟩, hrest⟩
  | @word _ x u e hx h he =>
    have hword : isWordChar x = true := hx x (by simp)
    have hagree : Agree (Cursor.start (x :: u)).rest c.rest := by
      have h := agree_append hx (show Boundary [] from trivial) (hr ⟨x, rfl, hword⟩)
      rwa [List.append_nil, ← hc] at h
    have hq : x ≠ '"' := ne_of_isWordChar hword (by decide)
    obtain ⟨-, d, hok, w, -, hw, hcw, -⟩ := scalar_agree hagree rfl hq h
    rw [he, List.append_nil] at hw
    refine ⟨x, d, by rw [hc]; rfl, not_mem_marks hword, hok, ?_⟩
    have hw : x :: u = w := hw
    rw [hc, hw] at hcw
    exact (List.append_cancel_left hcw).symm

/-! ### Between the lexemes -/

/-- Skipping blanks leaves `s.dropWhile isBlank`. -/
theorem skipBlanksIn_rest (h : c.rest = s) :
    (skipBlanksIn s c).rest = s.dropWhile isBlank := by
  induction s generalizing c with
  | nil => exact h
  | cons x r ih =>
    simp only [skipBlanksIn, List.dropWhile_cons]
    split
    · exact ih (by simp [h])
    · exact h

/-- So it does at a cursor. -/
theorem skipBlanks_rest (c : Cursor) : (skipBlanks c).rest = c.rest.dropWhile isBlank :=
  skipBlanksIn_rest rfl

/-- Skipping blanks leaves all lexemes. -/
theorem lexemes_skipBlanks (c : Cursor) : lexemes (skipBlanks c).rest = lexemes c.rest := by
  rw [skipBlanks_rest, lexemes_dropWhile]

/-- A look ahead skips blanks, and gives the next character. -/
theorem peek_eq_ok_iff {flaw : Flaw} :
    peek flaw c = .ok (x, d) ↔ d = skipBlanks c ∧ d.rest.head? = some x := by
  unfold peek
  constructor
  · intro h
    simp only at h
    split at h
    · cases h
    · rename_i y r hr
      obtain ⟨rfl, rfl⟩ : y = x ∧ skipBlanks c = d := by simpa using h
      exact ⟨rfl, by rw [hr, List.head?_cons]⟩
  · rintro ⟨rfl, hx⟩
    obtain ⟨r, hr⟩ := List.head?_eq_some_iff.mp hx
    simp [hr]

/-- A mark is a lexeme of its own. -/
theorem lexemes_mark (hc : c.rest.head? = some x) (hx : x ∈ marks) :
    lexemes c.rest = [x] :: lexemes c.next.rest := by
  obtain ⟨r, hr⟩ := List.head?_eq_some_iff.mp hc
  rw [Cursor.next_rest, hr, List.tail_cons]
  exact lexemes_append (.mark hx) fun hw => absurd hw (not_isWord_mark hx)

/-- Before a lexeme, the next character is its first one. -/
theorem exists_peek (flaw : Flaw) (h : lexemes c.rest = l :: more) :
    ∃ x r, peek flaw c = .ok (x, skipBlanks c) ∧ l.head? = some x ∧ (skipBlanks c).rest = l ++ r
      ∧ (IsWord l → Boundary r) ∧ lexemes r = more := by
  obtain ⟨r, hr, hne, hb, hmore⟩ := exists_of_lexemes_eq_cons h
  obtain ⟨x, u, rfl⟩ := List.exists_cons_of_ne_nil hne
  rw [← skipBlanks_rest] at hr
  exact ⟨x, r, peek_eq_ok_iff.mpr ⟨rfl, by rw [hr]; rfl⟩, rfl, hr, hb, hmore⟩

/-- Before a mark, the next character is the mark. -/
theorem peek_mark (flaw : Flaw) (h : lexemes c.rest = [x] :: more) :
    peek flaw c = .ok (x, skipBlanks c) ∧ lexemes (skipBlanks c).next.rest = more := by
  obtain ⟨y, r, hpeek, hy, hr, -, hmore⟩ := exists_peek flaw h
  obtain rfl : x = y := by simpa using hy
  refine ⟨hpeek, ?_⟩
  rw [Cursor.next_rest, hr]
  exact hmore

/-! ### What is read is spelt -/

/-- An item follows behind `lead first`; if there is none the closing bracket does. -/
theorem hasItem_sound {b : Bool} (h : hasItem first c = .ok (b, d)) :
    lexemes c.rest = if b then lead first ++ lexemes d.rest else [']'] :: lexemes d.next.rest := by
  obtain ⟨⟨x, e⟩, hx, h⟩ := bind_eq_ok_iff.mp h
  obtain ⟨rfl, hx⟩ := peek_eq_ok_iff.mp hx
  have hls := lexemes_skipBlanks c
  simp only at h
  split_ifs at h with hclose hfirst hcomma
  · obtain ⟨rfl, rfl⟩ : false = b ∧ skipBlanks c = d := by simpa using h
    rw [← hls, lexemes_mark hx (by rw [hclose]; decide), hclose]
    rfl
  · obtain ⟨rfl, rfl⟩ : true = b ∧ skipBlanks c = d := by simpa using h
    rw [hfirst, hls]
    rfl
  · obtain ⟨⟨y, e⟩, hy, h⟩ := bind_eq_ok_iff.mp h
    obtain ⟨rfl, hy⟩ := peek_eq_ok_iff.mp hy
    simp only at h
    split_ifs at h
    obtain ⟨rfl, rfl⟩ : true = b ∧ _ = d := by simpa using h
    rw [← hls, lexemes_mark hx (by rw [hcomma]; decide), hcomma, lexemes_skipBlanks]
    simp [lead, hfirst]

/-- A member follows behind `lead first`; if there is none the closing brace does. -/
theorem hasMember_sound {b : Bool} (h : hasMember first c = .ok (b, d)) :
    lexemes c.rest
        = (if b then lead first ++ lexemes d.rest else ['\x7d'] :: lexemes d.next.rest)
      ∧ (b = true → d.rest.head? = some '"') := by
  obtain ⟨⟨x, e⟩, hx, h⟩ := bind_eq_ok_iff.mp h
  obtain ⟨rfl, hx⟩ := peek_eq_ok_iff.mp hx
  have hls := lexemes_skipBlanks c
  simp only at h
  split_ifs at h with hclose hfirst hquote hcomma
  · obtain ⟨rfl, rfl⟩ : false = b ∧ skipBlanks c = d := by simpa using h
    refine ⟨?_, by simp⟩
    rw [← hls, lexemes_mark hx (by rw [hclose]; decide), hclose]
    rfl
  · obtain ⟨rfl, rfl⟩ : true = b ∧ skipBlanks c = d := by simpa using h
    refine ⟨?_, fun _ => by rw [hx, hquote]⟩
    rw [hfirst, hls]
    rfl
  · obtain ⟨⟨y, e⟩, hy, h⟩ := bind_eq_ok_iff.mp h
    obtain ⟨rfl, hy⟩ := peek_eq_ok_iff.mp hy
    simp only at h
    split_ifs at h with hquote
    obtain ⟨rfl, rfl⟩ : true = b ∧ _ = d := by simpa using h
    refine ⟨?_, fun _ => by rw [hy, hquote]⟩
    rw [← hls, lexemes_mark hx (by rw [hcomma]; decide), hcomma, lexemes_skipBlanks]
    simp [lead, hfirst]

/-- Behind a key the lexeme `:` is taken. -/
theorem colon_sound (h : colon c = .ok d) : lexemes c.rest = [':'] :: lexemes d.rest := by
  obtain ⟨⟨x, e⟩, hx, h⟩ := bind_eq_ok_iff.mp h
  obtain ⟨rfl, hx⟩ := peek_eq_ok_iff.mp hx
  simp only at h
  split_ifs at h with hcolon
  obtain rfl : (skipBlanks c).next = d := by simpa using h
  rw [← lexemes_skipBlanks c, lexemes_mark hx (by rw [hcolon]; decide), hcolon]

/-- What is read behind a quote is one lexeme, which spells the key. -/
theorem stringAt_sound (hq : c.rest.head? = some '"') (h : stringAt c.next = .ok (k, d)) :
    ∃ l, lexemes c.rest = l :: lexemes d.rest ∧ Key k l := by
  obtain ⟨r, hr⟩ := List.head?_eq_some_iff.mp hq
  obtain ⟨b, hb, t, hquoted, rfl⟩ := accepts_stringAt.sound h
  rw [Cursor.next_rest, hr, List.tail_cons] at hb
  refine ⟨'"' :: b, ?_, b, t, rfl, hquoted, rfl⟩
  rw [hr, hb]
  exact lexemes_append (.literal hquoted.body) fun hw => absurd hw not_isWord_literal

/-- Items and members that are not the first begin with a mark, so no word runs into them. -/
theorem Spells.exists_mark (h : Spells n p ls) (hp : ∀ v, p ≠ .value v)
    (hi : ∀ vs, p ≠ .items true vs) (hm : ∀ ms, p ≠ .members true ms) :
    ∃ x rs, ls = [x] :: rs ∧ x ∈ marks := by
  cases h with
  | atom _ => exact absurd rfl (hp _)
  | array _ _ => exact absurd rfl (hp _)
  | object _ _ => exact absurd rfl (hp _)
  | noItem => exact ⟨_, _, rfl, by decide⟩
  | @item _ first _ _ _ _ _ _ =>
    cases first with
    | true => exact absurd rfl (hi _)
    | false => exact ⟨',', _, rfl, by decide⟩
  | noMember => exact ⟨_, _, rfl, by decide⟩
  | @member _ first _ _ _ _ _ _ _ _ _ =>
    cases first with
    | true => exact absurd rfl (hm _)
    | false => exact ⟨',', _, rfl, by decide⟩

/-- A mark ends a word in front of it. -/
theorem boundary_of_mark {rs : List (List Char)} (h : lexemes s = [x] :: rs) (hx : x ∈ marks) :
    Boundary s := by
  apply boundary_of_lexemes
  intro l hl
  obtain rfl : [x] = l := by simpa [h] using hl
  exact not_isWord_mark hx

/-- The parts that are read with this fuel are spelt. -/
def SpeltAt (fuel : Nat) : Prop :=
  ∀ (p : Part) (n : Nat) (c d : Cursor), p.ReadFrom fuel n c d → p.EndsAt d.rest →
    ∃ ls, lexemes c.rest = ls ++ lexemes d.rest ∧ Spells n p ls

/-- The lexemes of a value spell it, if what is inside is spelt with less fuel. -/
theorem spells_value (ih : SpeltAt fuel) (h : value (fuel + 1) n c = .ok (v, d))
    (hd : Boundary d.rest) :
    ∃ ls, lexemes c.rest = ls ++ lexemes d.rest ∧ Spells n (.value v) ls := by
  obtain ⟨⟨x, e⟩, hx, h⟩ := bind_eq_ok_iff.mp h
  obtain ⟨rfl, hx⟩ := peek_eq_ok_iff.mp hx
  rw [← lexemes_skipBlanks c]
  simp only at h
  split_ifs at h with harray hdepth hobject hdepth
  · obtain ⟨⟨vs, e⟩, hvs, h⟩ := bind_eq_ok_iff.mp h
    obtain ⟨rfl, rfl⟩ : Json.array vs = v ∧ e = d := by simpa using h
    obtain ⟨ls, hls, hspells⟩ := ih (.items true vs) _ _ _ hvs trivial
    refine ⟨['['] :: ls, ?_, .array (by omega) hspells⟩
    rw [lexemes_mark hx (by rw [harray]; decide), harray, hls]
    rfl
  · obtain ⟨⟨ms, e⟩, hms, h⟩ := bind_eq_ok_iff.mp h
    obtain ⟨rfl, rfl⟩ : Json.object ms = v ∧ e = d := by simpa using h
    obtain ⟨ls, hls, hspells⟩ := ih (.members true ms) _ _ _ hms trivial
    refine ⟨['\x7b'] :: ls, ?_, .object (by omega) hspells⟩
    rw [lexemes_mark hx (by rw [hobject]; decide), hobject, hls]
    rfl
  · obtain ⟨l, hl, hatom⟩ := exists_atom h hx hd
    refine ⟨[l], ?_, .atom hatom⟩
    rw [hl, lexemes_append hatom.token fun _ => hd]
    rfl

/-- So do those of items, behind the comma or bracket in front of them. -/
theorem spells_items {vs : List Json} (ih : SpeltAt fuel)
    (h : itemsOf (fuel + 1) n first c = .ok (vs, d)) :
    ∃ ls, lexemes c.rest = ls ++ lexemes d.rest ∧ Spells n (.items first vs) ls := by
  obtain ⟨⟨b, e⟩, hb, h⟩ := bind_eq_ok_iff.mp h
  have hlead := hasItem_sound hb
  cases b with
  | false =>
    obtain ⟨rfl, rfl⟩ : [] = vs ∧ e.next = d := by simpa using h
    exact ⟨[[']']], by simpa using hlead, .noItem⟩
  | true =>
    simp only [if_true] at h hlead
    obtain ⟨⟨v, e₁⟩, hv, h⟩ := bind_eq_ok_iff.mp h
    obtain ⟨⟨ws, e₂⟩, hws, h⟩ := bind_eq_ok_iff.mp h
    obtain ⟨rfl, rfl⟩ : v :: ws = vs ∧ e₂ = d := by simpa using h
    -- the items behind the value begin with a mark, so the value has ended
    obtain ⟨rs, hrs, hrest⟩ := ih (.items false ws) _ _ _ hws trivial
    obtain ⟨x, ts, rfl, hx⟩ := hrest.exists_mark (by simp) (by simp) (by simp)
    obtain ⟨ls, hls, hvalue⟩ := ih (.value v) _ _ _ hv (boundary_of_mark hrs hx)
    refine ⟨lead first ++ (ls ++ [x] :: ts), ?_, .item hvalue hrest⟩
    rw [hlead, hls, hrs, List.append_assoc, List.append_assoc]

/-- So do those of members. -/
theorem spells_members {ms : List (String × Json)} (ih : SpeltAt fuel)
    (h : membersOf (fuel + 1) n first c = .ok (ms, d)) :
    ∃ ls, lexemes c.rest = ls ++ lexemes d.rest ∧ Spells n (.members first ms) ls := by
  obtain ⟨⟨b, e⟩, hb, h⟩ := bind_eq_ok_iff.mp h
  obtain ⟨hlead, hquote⟩ := hasMember_sound hb
  cases b with
  | false =>
    obtain ⟨rfl, rfl⟩ : [] = ms ∧ e.next = d := by simpa using h
    exact ⟨[['\x7d']], by simpa using hlead, .noMember⟩
  | true =>
    simp only [if_true] at h hlead
    obtain ⟨⟨k, e₁⟩, hk, h⟩ := bind_eq_ok_iff.mp h
    obtain ⟨e₂, hcolon, h⟩ := bind_eq_ok_iff.mp h
    obtain ⟨⟨v, e₃⟩, hv, h⟩ := bind_eq_ok_iff.mp h
    obtain ⟨⟨ws, e₄⟩, hws, h⟩ := bind_eq_ok_iff.mp h
    obtain ⟨rfl, rfl⟩ : (k, v) :: ws = ms ∧ e₄ = d := by simpa using h
    obtain ⟨l, hl, hkey⟩ := stringAt_sound (hquote rfl) hk
    -- the members behind the value begin with a mark, so the value has ended
    obtain ⟨rs, hrs, hrest⟩ := ih (.members false ws) _ _ _ hws trivial
    obtain ⟨x, ts, rfl, hx⟩ := hrest.exists_mark (by simp) (by simp) (by simp)
    obtain ⟨ls, hls, hvalue⟩ := ih (.value v) _ _ _ hv (boundary_of_mark hrs hx)
    refine ⟨lead first ++ l :: [':'] :: (ls ++ [x] :: ts), ?_, .member hkey hvalue hrest⟩
    rw [hlead, hl, colon_sound hcolon, hls, hrs]
    simp

/-- **What is read is spelt**, by the lexemes between the two cursors. -/
theorem exists_spells (fuel : Nat) : SpeltAt fuel := by
  induction fuel with
  | zero =>
    intro p n c d h _
    cases p <;> cases h
  | succ fuel ih =>
    intro p n c d h hd
    cases p with
    | value v => exact spells_value ih h hd
    | items first vs => exact spells_items ih h
    | members first ms => exact spells_members ih h

/-! ### What is spelt is read -/

/-- A value begins with an opening bracket, a literal or a word. -/
theorem Spells.exists_head (h : Spells n (.value v) ls) :
    ∃ l rs x, ls = l :: rs ∧ l.head? = some x ∧ x ∉ [']', '\x7d', ',', ':'] := by
  cases h with
  | @atom _ _ l h =>
    obtain ⟨x, hx, hmark⟩ := h.exists_head
    have hsub : [']', '\x7d', ',', ':'] ⊆ marks := by decide
    exact ⟨l, [], x, rfl, hx, fun hmem => hmark (hsub hmem)⟩
  | array _ _ => exact ⟨_, _, '[', rfl, rfl, by decide⟩
  | object _ _ => exact ⟨_, _, '\x7b', rfl, rfl, by decide⟩

/-- Whatever is spelt has a lexeme. -/
theorem Spells.length_pos (h : Spells n p ls) : 0 < ls.length := by
  cases h with
  | item hv _ =>
    obtain ⟨l, rs, x, rfl, -, -⟩ := hv.exists_head
    simp only [List.length_append, List.length_cons]
    omega
  | member _ _ _ =>
    simp only [List.length_append, List.length_cons]
    omega
  | _ => simp

/-- In front of a closing bracket there is no further item. -/
theorem hasItem_close (first : Bool) (h : lexemes c.rest = [']'] :: more) :
    ∃ d, hasItem first c = .ok (false, d) ∧ lexemes d.next.rest = more := by
  obtain ⟨hpeek, hmore⟩ := peek_mark .eofList h
  refine ⟨skipBlanks c, bind_eq_ok_iff.mpr ⟨_, hpeek, ?_⟩, hmore⟩
  simp

/-- Behind `lead first` there is one, if no closing bracket stands there. -/
theorem hasItem_go_on (h : lexemes c.rest = lead first ++ l :: more) (hx : l.head? = some x)
    (hne : x ≠ ']') : ∃ d, hasItem first c = .ok (true, d) ∧ lexemes d.rest = l :: more := by
  cases first with
  | true =>
    obtain ⟨y, r, hpeek, hy, -⟩ := exists_peek .eofList h
    obtain rfl : x = y := by simpa [hx] using hy
    refine ⟨skipBlanks c, bind_eq_ok_iff.mpr ⟨_, hpeek, ?_⟩, by rw [lexemes_skipBlanks, h]; rfl⟩
    simp [hne]
  | false =>
    have h : lexemes c.rest = [','] :: l :: more := h
    obtain ⟨hpeek, hmore⟩ := peek_mark .eofList h
    obtain ⟨y, r, hpeek', hy, -⟩ := exists_peek .eofValue hmore
    obtain rfl : x = y := by simpa [hx] using hy
    refine ⟨_, bind_eq_ok_iff.mpr ⟨_, hpeek, ?_⟩, by rw [lexemes_skipBlanks, hmore]⟩
    simp only [Char.reduceEq, if_false, if_true, Bool.false_eq_true]
    exact bind_eq_ok_iff.mpr ⟨_, hpeek', by simp [hne]⟩

/-- In front of a closing brace there is no further member. -/
theorem hasMember_close (first : Bool) (h : lexemes c.rest = ['\x7d'] :: more) :
    ∃ d, hasMember first c = .ok (false, d) ∧ lexemes d.next.rest = more := by
  obtain ⟨hpeek, hmore⟩ := peek_mark .eofObject h
  refine ⟨skipBlanks c, bind_eq_ok_iff.mpr ⟨_, hpeek, ?_⟩, hmore⟩
  simp

/-- Behind `lead first` there is one, if a quote stands there. -/
theorem hasMember_go_on (h : lexemes c.rest = lead first ++ l :: more)
    (hx : l.head? = some '"') :
    ∃ d r, hasMember first c = .ok (true, d) ∧ d.rest = l ++ r ∧ lexemes r = more := by
  cases first with
  | true =>
    obtain ⟨y, r, hpeek, hy, hr, -, hmore⟩ := exists_peek .eofObject h
    obtain rfl : '"' = y := by simpa [hx] using hy
    refine ⟨skipBlanks c, r, bind_eq_ok_iff.mpr ⟨_, hpeek, ?_⟩, hr, hmore⟩
    simp
  | false =>
    have h : lexemes c.rest = [','] :: l :: more := h
    obtain ⟨hpeek, hmore⟩ := peek_mark .eofObject h
    obtain ⟨y, r, hpeek', hy, hr, -, hmore⟩ := exists_peek .eofValue hmore
    obtain rfl : '"' = y := by simpa [hx] using hy
    refine ⟨_, r, bind_eq_ok_iff.mpr ⟨_, hpeek, ?_⟩, hr, hmore⟩
    simp only [Char.reduceEq, if_false, if_true, Bool.false_eq_true]
    exact bind_eq_ok_iff.mpr ⟨_, hpeek', by simp⟩

/-- The lexeme `:` is read as a colon. -/
theorem colon_eq_ok (h : lexemes c.rest = [':'] :: more) :
    ∃ d, colon c = .ok d ∧ lexemes d.rest = more := by
  obtain ⟨hpeek, hmore⟩ := peek_mark .eofObject h
  exact ⟨_, bind_eq_ok_iff.mpr ⟨_, hpeek, by simp⟩, hmore⟩

/-- The part is read wherever its lexemes stand, with twice as much fuel as there are of them. -/
def ReadAs (n : Nat) (p : Part) (ls : List (List Char)) : Prop :=
  ∀ ⦃c : Cursor⦄ ⦃more : List (List Char)⦄ ⦃fuel : Nat⦄, lexemes c.rest = ls ++ more →
    2 * ls.length < fuel → ∃ d, p.ReadFrom fuel n c d ∧ lexemes d.rest = more

/-- An atom is read wherever it stands. -/
theorem readAs_atom (h : Atom v l) : ReadAs n (.value v) [l] := by
  intro c more fuel hc hfuel
  obtain ⟨fuel, rfl⟩ : ∃ k, fuel = k + 1 := ⟨fuel - 1, by omega⟩
  have hc : lexemes c.rest = l :: more := hc
  obtain ⟨x, r, hpeek, hx, hr, hb, hmore⟩ := exists_peek .eofValue hc
  obtain ⟨y, d, hy, hmark, hok, hd⟩ := h.scalar_eq_ok hr hb
  obtain rfl : x = y := by
    obtain ⟨u, rfl⟩ := List.head?_eq_some_iff.mp hx
    simpa [hr] using hy
  refine ⟨d, bind_eq_ok_iff.mpr ⟨_, hpeek, ?_⟩, by rw [hd, hmore]⟩
  -- no bracket opens here, so the reader of scalars is asked
  have hsquare : x ≠ '[' := fun hx => hmark (by rw [hx]; decide)
  have hcurly : x ≠ '\x7b' := fun hx => hmark (by rw [hx]; decide)
  simpa only [if_neg hsquare, if_neg hcurly] using hok

/-- An array is read if its items are, one level deeper. -/
theorem ReadAs.array {vs : List Json} (h : ReadAs (n - 1) (.items true vs) ls) (hn : 1 < n) :
    ReadAs n (.value (.array vs)) (['['] :: ls) := by
  intro c more fuel hc hfuel
  rw [List.length_cons] at hfuel
  obtain ⟨fuel, rfl⟩ : ∃ k, fuel = k + 1 := ⟨fuel - 1, by omega⟩
  obtain ⟨hpeek, hmore⟩ := peek_mark .eofValue hc
  obtain ⟨d, hd, hrest⟩ := h hmore (show 2 * ls.length < fuel by omega)
  refine ⟨d, bind_eq_ok_iff.mpr ⟨_, hpeek, ?_⟩, hrest⟩
  simp only [if_true, if_neg (show ¬ n ≤ 1 by omega)]
  exact bind_eq_ok_iff.mpr ⟨_, hd, rfl⟩

/-- An object is read if its members are, one level deeper. -/
theorem ReadAs.object {ms : List (String × Json)} (h : ReadAs (n - 1) (.members true ms) ls)
    (hn : 1 < n) : ReadAs n (.value (.object ms)) (['\x7b'] :: ls) := by
  intro c more fuel hc hfuel
  rw [List.length_cons] at hfuel
  obtain ⟨fuel, rfl⟩ : ∃ k, fuel = k + 1 := ⟨fuel - 1, by omega⟩
  obtain ⟨hpeek, hmore⟩ := peek_mark .eofValue hc
  obtain ⟨d, hd, hrest⟩ := h hmore (show 2 * ls.length < fuel by omega)
  refine ⟨d, bind_eq_ok_iff.mpr ⟨_, hpeek, ?_⟩, hrest⟩
  simp only [Char.reduceEq, if_false, if_true, if_neg (show ¬ n ≤ 1 by omega)]
  exact bind_eq_ok_iff.mpr ⟨_, hd, rfl⟩

/-- A closing bracket is read as no items. -/
theorem readAs_noItem (first : Bool) : ReadAs n (.items first []) [[']']] := by
  intro c more fuel hc hfuel
  obtain ⟨fuel, rfl⟩ : ∃ k, fuel = k + 1 := ⟨fuel - 1, by omega⟩
  obtain ⟨d, hd, hrest⟩ := hasItem_close first hc
  exact ⟨d.next, bind_eq_ok_iff.mpr ⟨_, hd, rfl⟩, hrest⟩

/-- Each of the two parts is shorter than the whole, so there is fuel for both. -/
theorem ReadAs.item {vs : List Json} {rs : List (List Char)} (hv : ReadAs n (.value v) ls)
    (hvs : ReadAs n (.items false vs) rs) (hspells : Spells n (.value v) ls) (hrs : 0 < rs.length) :
    ReadAs n (.items first (v :: vs)) (lead first ++ (ls ++ rs)) := by
  intro c more fuel hc hfuel
  have hls := hspells.length_pos
  obtain ⟨l, ts, x, rfl, hx, hne⟩ := hspells.exists_head
  simp only [List.length_append] at hfuel
  obtain ⟨fuel, rfl⟩ : ∃ k, fuel = k + 1 := ⟨fuel - 1, by omega⟩
  rw [List.append_assoc, List.append_assoc] at hc
  obtain ⟨e, he, hle⟩ := hasItem_go_on hc hx (fun h => hne (by rw [h]; decide))
  obtain ⟨e₁, he₁, hle₁⟩ := hv hle (show _ < fuel by omega)
  obtain ⟨e₂, he₂, hle₂⟩ := hvs hle₁ (show _ < fuel by omega)
  refine ⟨e₂, bind_eq_ok_iff.mpr ⟨_, he, ?_⟩, hle₂⟩
  exact bind_eq_ok_iff.mpr ⟨_, he₁, bind_eq_ok_iff.mpr ⟨_, he₂, rfl⟩⟩

/-- A closing brace is read as no members. -/
theorem readAs_noMember (first : Bool) : ReadAs n (.members first []) [['\x7d']] := by
  intro c more fuel hc hfuel
  obtain ⟨fuel, rfl⟩ : ∃ k, fuel = k + 1 := ⟨fuel - 1, by omega⟩
  obtain ⟨d, hd, hrest⟩ := hasMember_close first hc
  exact ⟨d.next, bind_eq_ok_iff.mpr ⟨_, hd, rfl⟩, hrest⟩

/-- A member is read in front of others by its key, a colon and its value. -/
theorem ReadAs.member {ms : List (String × Json)} {rs : List (List Char)}
    (hv : ReadAs n (.value v) ls) (hms : ReadAs n (.members false ms) rs) (hk : Key k l) :
    ReadAs n (.members first ((k, v) :: ms)) (lead first ++ l :: [':'] :: (ls ++ rs)) := by
  intro c more fuel hc hfuel
  simp only [List.length_append, List.length_cons] at hfuel
  obtain ⟨fuel, rfl⟩ : ∃ k, fuel = k + 1 := ⟨fuel - 1, by omega⟩
  simp only [List.append_assoc, List.cons_append] at hc
  obtain ⟨e, r, he, her, hle⟩ := hasMember_go_on hc hk.head
  -- the key, the colon, the value and the other members are read one behind the other
  obtain ⟨b, t, rfl, hquoted, rfl⟩ := hk
  obtain ⟨e₁, he₁, hr⟩ := accepts_stringAt.complete (c := e.next) ⟨t, hquoted, rfl⟩
    (show e.next.rest = b ++ r by simp [her])
  rw [← hr] at hle
  obtain ⟨e₂, he₂, hle₂⟩ := colon_eq_ok hle
  obtain ⟨e₃, he₃, hle₃⟩ := hv hle₂ (show _ < fuel by omega)
  obtain ⟨e₄, he₄, hle₄⟩ := hms hle₃ (show _ < fuel by omega)
  refine ⟨e₄, bind_eq_ok_iff.mpr ⟨_, he, ?_⟩, hle₄⟩
  refine bind_eq_ok_iff.mpr ⟨_, he₁, bind_eq_ok_iff.mpr ⟨_, he₂, ?_⟩⟩
  exact bind_eq_ok_iff.mpr ⟨_, he₃, bind_eq_ok_iff.mpr ⟨_, he₄, rfl⟩⟩

/-- **What is spelt is read.** -/
theorem Spells.readAs (h : Spells n p ls) : ReadAs n p ls := by
  induction h with
  | atom h => exact readAs_atom h
  | array hn _ ih => exact ih.array hn
  | object hn _ ih => exact ih.object hn
  | noItem => exact readAs_noItem _
  | item hv hvs ihv ihvs => exact ihv.item ihvs hv hvs.length_pos
  | noMember => exact readAs_noMember _
  | member hk _ _ ihv ihms => exact ihv.member ihms hk

/-! ### Texts -/

/-- A text may end where no lexeme is left. -/
theorem finish_eq_ok_iff : finish c = .ok () ↔ lexemes c.rest = [] := by
  rw [lexemes_eq_nil_iff, ← skipBlanks_rest]
  unfold finish
  cases hr : (skipBlanks c).rest <;> simp [hr]

/-- **A text is read as the value that its lexemes spell**, and not read if they spell none. -/
theorem parse_eq_ok_iff : parse s = .ok v ↔ Spells depthLimit (.value v) (lexemes s) := by
  constructor
  · intro h
    obtain ⟨⟨w, d⟩, hw, h⟩ := bind_eq_ok_iff.mp h
    obtain ⟨⟨⟩, hd, h⟩ := bind_eq_ok_iff.mp h
    obtain rfl : w = v := by simpa using h
    have hend : lexemes d.rest = [] := finish_eq_ok_iff.mp hd
    have hb : Boundary d.rest := boundary_of_lexemes (by simp [hend])
    obtain ⟨ls, hls, hspells⟩ := exists_spells _ (.value w) _ _ _ hw hb
    rw [hend, List.append_nil] at hls
    have hls : lexemes s = ls := hls
    rwa [hls]
  · intro h
    have hlen := length_lexemes_le s
    have hfuel : 2 * (lexemes s).length < fuelFor (Cursor.start s) := by
      show 2 * (lexemes s).length < 2 * s.length + 2
      omega
    have hall : lexemes (Cursor.start s).rest = lexemes s ++ [] := by
      rw [List.append_nil]
      rfl
    obtain ⟨d, hd, hend⟩ := h.readAs hall hfuel
    refine bind_eq_ok_iff.mpr ⟨_, hd, bind_eq_ok_iff.mpr ⟨(), finish_eq_ok_iff.mpr hend, rfl⟩⟩

/-- Where blanks stand makes no difference. -/
theorem parse_congr {t : List Char} (h : lexemes s = lexemes t) :
    parse s = .ok v ↔ parse t = .ok v := by
  rw [parse_eq_ok_iff, parse_eq_ok_iff, h]

end DeclarationDocs.Json
