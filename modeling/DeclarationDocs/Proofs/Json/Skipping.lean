import DeclarationDocs.Proofs.Json.Skimming

namespace DeclarationDocs.Json

/-!
# Passing over values

A value that nobody asked for is passed over.  It has to be spelt as JSON is, but it may nest to any
depth.

* `Passed p ls` — the lexemes of what may be passed over;
* `exists_passed`, `Passed.skipAs` — what is passed over is so spelt, and what is so spelt is passed
  over.
-/

/-- What is passed over at once: a value, or what is left of the items or members of one. -/
inductive Span where
  | value
  | items
  | members

/-- The lexemes of what is passed over. -/
inductive Passed : Span → List (List Char) → Prop
  | atom {l : List Char} (h : Unread l) : Passed .value [l]
  | noItem : Passed .value [['['], [']']]
  | array {ls : List (List Char)} (h : Passed .items ls) : Passed .value (['['] :: ls)
  | noMember : Passed .value [['\x7b'], ['\x7d']]
  | object {ls : List (List Char)} (h : Passed .members ls) : Passed .value (['\x7b'] :: ls)
  | lastItem {ls : List (List Char)} (h : Passed .value ls) : Passed .items (ls ++ [[']']])
  | item {ls rs : List (List Char)} (h : Passed .value ls) (hs : Passed .items rs) :
      Passed .items (ls ++ [','] :: rs)
  | lastMember {b : List Char} {ls : List (List Char)} (hk : Skimmed b) (h : Passed .value ls) :
      Passed .members (('"' :: b) :: [':'] :: (ls ++ [['\x7d']]))
  | member {b : List Char} {ls rs : List (List Char)} (hk : Skimmed b) (h : Passed .value ls)
      (hs : Passed .members rs) : Passed .members (('"' :: b) :: [':'] :: (ls ++ [','] :: rs))

/-- What is passed over lies between the two cursors. -/
def Span.PassFrom (fuel : Nat) (c d : Cursor) : Span → Prop
  | .value => skipValue fuel c = .ok d
  | .items => skipItems fuel c = .ok d
  | .members => skipMembers fuel c = .ok d

/-- Where it may end: a value that is a word must not run on. -/
def Span.EndsAt (s : List Char) : Span → Prop
  | .value => Boundary s
  | _ => True

variable {c d : Cursor} {b l : List Char} {x : Char} {fuel : Nat} {ls more : List (List Char)}
  {p : Span}

/-! ### What is passed over is spelt -/

/-- What is passed over with this fuel is spelt. -/
def PassedAt (fuel : Nat) : Prop :=
  ∀ (p : Span) (c d : Cursor), p.PassFrom fuel c d → p.EndsAt d.rest →
    ∃ ls, lexemes c.rest = ls ++ lexemes d.rest ∧ Passed p ls

/-- Behind an opening bracket stands the closing one, or what is inside. -/
theorem exists_opened (ih : PassedAt fuel) {flaw : Flaw} {close : Char}
    {inside : Cursor → Except SyntaxFault Cursor} (hclose : close ∈ marks)
    (hinside : ∀ e, inside e = .ok d → p.PassFrom fuel e d) (hends : p.EndsAt d.rest)
    (h : (do let (y, e) ← peek flaw c; if y = close then .ok e.next else inside e) = .ok d) :
    ∃ ls, lexemes c.rest = ls ++ lexemes d.rest ∧ (ls = [[close]] ∨ Passed p ls) := by
  obtain ⟨⟨y, e⟩, hy, h⟩ := bind_eq_ok_iff.mp h
  obtain ⟨rfl, hy⟩ := peek_eq_ok_iff.mp hy
  simp only at h
  split_ifs at h with heq
  · obtain rfl : (skipBlanks c).next = d := by simpa using h
    obtain rfl := heq
    refine ⟨[[y]], ?_, .inl rfl⟩
    rw [← lexemes_skipBlanks c, lexemes_mark hy hclose]
    rfl
  · obtain ⟨ls, hls, hpassed⟩ := ih p _ _ (hinside _ h) hends
    rw [lexemes_skipBlanks] at hls
    exact ⟨ls, hls, .inr hpassed⟩

/-- A value with a mark behind it: the mark ends it, so it is no word that runs on. -/
theorem exists_value_mark (ih : PassedAt fuel) {e : Cursor} (h : skipValue fuel c = .ok e)
    (hx : (skipBlanks e).rest.head? = some x) (hmark : x ∈ marks) :
    ∃ ls, lexemes c.rest = ls ++ [x] :: lexemes (skipBlanks e).next.rest ∧ Passed .value ls := by
  have hmore := lexemes_skipBlanks e
  rw [lexemes_mark hx hmark] at hmore
  obtain ⟨ls, hls, hpassed⟩ := ih .value _ _ h (boundary_of_mark hmore.symm hmark)
  exact ⟨ls, by rw [hls, hmore], hpassed⟩

/-- A value is passed over by its lexemes, if what is inside is with less fuel. -/
theorem passed_value (ih : PassedAt fuel) (h : skipValue (fuel + 1) c = .ok d)
    (hd : Boundary d.rest) :
    ∃ ls, lexemes c.rest = ls ++ lexemes d.rest ∧ Passed .value ls := by
  obtain ⟨⟨x, e⟩, hx, h⟩ := bind_eq_ok_iff.mp h
  obtain ⟨rfl, hx⟩ := peek_eq_ok_iff.mp hx
  rw [← lexemes_skipBlanks c]
  simp only at h
  split_ifs at h with harray hobject
  · rw [lexemes_mark hx (by rw [harray]; decide), harray]
    obtain ⟨ls, hls, rfl | hpassed⟩ :=
      exists_opened (p := .items) ih (by decide) (fun _ he => he) trivial h
    · exact ⟨[['['], [']']], by rw [hls]; rfl, .noItem⟩
    · exact ⟨['['] :: ls, by rw [hls]; rfl, .array hpassed⟩
  · rw [lexemes_mark hx (by rw [hobject]; decide), hobject]
    obtain ⟨ls, hls, rfl | hpassed⟩ :=
      exists_opened (p := .members) ih (by decide) (fun _ he => he) trivial h
    · exact ⟨[['\x7b'], ['\x7d']], by rw [hls]; rfl, .noMember⟩
    · exact ⟨['\x7b'] :: ls, by rw [hls]; rfl, .object hpassed⟩
  · obtain ⟨l, hl, hunread⟩ := exists_unread h hx
    refine ⟨[l], ?_, .atom hunread⟩
    rw [hl, lexemes_append hunread.token fun _ => hd]
    rfl

/-- So are the items of an array. -/
theorem passed_items (ih : PassedAt fuel) (h : skipItems (fuel + 1) c = .ok d) :
    ∃ ls, lexemes c.rest = ls ++ lexemes d.rest ∧ Passed .items ls := by
  obtain ⟨e, hv, h⟩ := bind_eq_ok_iff.mp h
  obtain ⟨⟨x, e'⟩, hx, h⟩ := bind_eq_ok_iff.mp h
  obtain ⟨rfl, hx⟩ := peek_eq_ok_iff.mp hx
  simp only at h
  split_ifs at h with hcomma hclose
  · obtain ⟨ls, hls, hpassed⟩ := exists_value_mark ih hv (hcomma ▸ hx) (by decide)
    obtain ⟨rs, hrs, hrest⟩ := ih .items _ _ h trivial
    refine ⟨ls ++ [','] :: rs, ?_, .item hpassed hrest⟩
    rw [hls, hrs, List.append_assoc]
    rfl
  · obtain rfl : (skipBlanks e).next = d := by simpa using h
    obtain ⟨ls, hls, hpassed⟩ := exists_value_mark ih hv (hclose ▸ hx) (by decide)
    refine ⟨ls ++ [[']']], ?_, .lastItem hpassed⟩
    rw [hls, List.append_assoc]
    rfl

theorem passed_members (ih : PassedAt fuel) (h : skipMembers (fuel + 1) c = .ok d) :
    ∃ ls, lexemes c.rest = ls ++ lexemes d.rest ∧ Passed .members ls := by
  obtain ⟨⟨x, e⟩, hx, h⟩ := bind_eq_ok_iff.mp h
  obtain ⟨rfl, hx⟩ := peek_eq_ok_iff.mp hx
  simp only at h
  split_ifs at h with hquote
  obtain ⟨e₁, hk, h⟩ := bind_eq_ok_iff.mp h
  obtain ⟨e₂, hcolon, h⟩ := bind_eq_ok_iff.mp h
  obtain ⟨e₃, hv, h⟩ := bind_eq_ok_iff.mp h
  obtain ⟨⟨y, e₄⟩, hy, h⟩ := bind_eq_ok_iff.mp h
  obtain ⟨rfl, hy⟩ := peek_eq_ok_iff.mp hy
  -- the key is one lexeme
  obtain ⟨b, hb, hskimmed⟩ := skipString_sound hk
  have hkey : lexemes c.rest = ('"' :: b) :: lexemes e₁.rest := by
    obtain ⟨r, hr⟩ := List.head?_eq_some_iff.mp hx
    rw [Cursor.next_rest, hr, List.tail_cons] at hb
    rw [← lexemes_skipBlanks c, hr, not_not.mp hquote, hb]
    exact lexemes_append (.literal hskimmed.body) fun hw => absurd hw not_isWord_literal
  rw [hkey, colon_sound hcolon]
  simp only at h
  split_ifs at h with hcomma hclose
  · obtain ⟨ls, hls, hpassed⟩ := exists_value_mark ih hv (hcomma ▸ hy) (by decide)
    obtain ⟨rs, hrs, hrest⟩ := ih .members _ _ h trivial
    refine ⟨('"' :: b) :: [':'] :: (ls ++ [','] :: rs), ?_, .member hskimmed hpassed hrest⟩
    rw [hls, hrs]
    simp
  · obtain rfl : (skipBlanks e₃).next = d := by simpa using h
    obtain ⟨ls, hls, hpassed⟩ := exists_value_mark ih hv (hclose ▸ hy) (by decide)
    refine ⟨('"' :: b) :: [':'] :: (ls ++ [['\x7d']]), ?_, .lastMember hskimmed hpassed⟩
    rw [hls]
    simp

/-- **What is passed over is spelt**, by the lexemes between the two cursors. -/
theorem exists_passed (fuel : Nat) : PassedAt fuel := by
  induction fuel with
  | zero =>
    intro p c d h _
    cases p <;> cases h
  | succ fuel ih =>
    intro p c d h hd
    cases p with
    | value => exact passed_value ih h hd
    | items => exact passed_items ih h
    | members => exact passed_members ih h

/-! ### What is spelt is passed over -/

/-- A value begins with an opening bracket, a literal or a word. -/
theorem Passed.exists_head (h : Passed p ls) :
    ∃ l rs x, ls = l :: rs ∧ l.head? = some x ∧ x ∉ [']', '\x7d', ',', ':'] := by
  induction h with
  | @atom l h =>
    have hsub : [']', '\x7d', ',', ':'] ⊆ marks := by decide
    obtain ⟨x, d, hx, hmark, -⟩ := h.skipScalar_eq_ok (c := .start l) (r := [])
      (List.append_nil l).symm fun _ => trivial
    exact ⟨l, [], x, rfl, hx, fun hmem => hmark (hsub hmem)⟩
  | noItem => exact ⟨_, _, '[', rfl, rfl, by decide⟩
  | array _ _ => exact ⟨_, _, '[', rfl, rfl, by decide⟩
  | noMember => exact ⟨_, _, '\x7b', rfl, rfl, by decide⟩
  | object _ _ => exact ⟨_, _, '\x7b', rfl, rfl, by decide⟩
  | lastItem _ ih =>
    obtain ⟨l, rs, x, rfl, hx⟩ := ih
    exact ⟨l, _, x, rfl, hx⟩
  | item _ _ ih _ =>
    obtain ⟨l, rs, x, rfl, hx⟩ := ih
    exact ⟨l, _, x, rfl, hx⟩
  | lastMember _ _ _ => exact ⟨_, _, '"', rfl, rfl, by decide⟩
  | member _ _ _ _ _ => exact ⟨_, _, '"', rfl, rfl, by decide⟩

/-- It is passed over wherever its lexemes stand, with twice as much fuel as there are of them. -/
def SkipAs (p : Span) (ls : List (List Char)) : Prop :=
  ∀ ⦃c : Cursor⦄ ⦃more : List (List Char)⦄ ⦃fuel : Nat⦄, lexemes c.rest = ls ++ more →
    2 * ls.length < fuel → ∃ d, p.PassFrom fuel c d ∧ lexemes d.rest = more

/-- One lexeme is passed over. -/
theorem skipAs_atom (h : Unread l) : SkipAs .value [l] := by
  intro c more fuel hc hfuel
  obtain ⟨fuel, rfl⟩ : ∃ k, fuel = k + 1 := ⟨fuel - 1, by omega⟩
  have hc : lexemes c.rest = l :: more := hc
  obtain ⟨x, r, hpeek, hx, hr, hb, hmore⟩ := exists_peek .eofValue hc
  obtain ⟨y, d, hy, hmark, hok, hd⟩ := h.skipScalar_eq_ok hr hb
  obtain rfl : x = y := by
    obtain ⟨u, rfl⟩ := List.head?_eq_some_iff.mp hx
    simpa [hr] using hy
  refine ⟨d, bind_eq_ok_iff.mpr ⟨_, hpeek, ?_⟩, by rw [hd, hmore]⟩
  have hsquare : x ≠ '[' := fun hx => hmark (by rw [hx]; decide)
  have hcurly : x ≠ '\x7b' := fun hx => hmark (by rw [hx]; decide)
  simpa only [if_neg hsquare, if_neg hcurly] using hok

theorem skipAs_noItem : SkipAs .value [['['], [']']] := by
  intro c more fuel hc hfuel
  obtain ⟨fuel, rfl⟩ : ∃ k, fuel = k + 1 := ⟨fuel - 1, by omega⟩
  obtain ⟨hopen, hmore⟩ := peek_mark .eofValue hc
  obtain ⟨hclose, hmore⟩ := peek_mark .eofList hmore
  refine ⟨_, bind_eq_ok_iff.mpr ⟨_, hopen, ?_⟩, hmore⟩
  exact bind_eq_ok_iff.mpr ⟨_, hclose, rfl⟩

/-- What is inside of brackets does not begin with the closing one, so it is passed over. -/
theorem SkipAs.opened (h : SkipAs p ls) (hpassed : Passed p ls) (flaw : Flaw) (close : Char)
    {inside : Cursor → Except SyntaxFault Cursor} (hclose : close ∈ [']', '\x7d'])
    (hinside : ∀ e d, p.PassFrom fuel e d → inside e = .ok d) (hc : lexemes c.rest = ls ++ more)
    (hfuel : 2 * ls.length < fuel) :
    ∃ d, (do let (y, e) ← peek flaw c; if y = close then .ok e.next else inside e) = .ok d ∧
      lexemes d.rest = more := by
  obtain ⟨l, rs, x, rfl, hx, hne⟩ := hpassed.exists_head
  obtain ⟨y, r, hpeek, hy, -⟩ := exists_peek flaw hc
  obtain rfl : x = y := by simpa [hx] using hy
  have hother : x ≠ close := by
    rintro rfl
    exact hne (List.mem_append_left [',', ':'] hclose)
  rw [← lexemes_skipBlanks] at hc
  obtain ⟨d, hd, hrest⟩ := h hc hfuel
  refine ⟨d, bind_eq_ok_iff.mpr ⟨_, hpeek, ?_⟩, hrest⟩
  simp only [if_neg hother]
  exact hinside _ _ hd

/-- An array is passed over if its items are. -/
theorem SkipAs.array (h : SkipAs .items ls) (hpassed : Passed .items ls) :
    SkipAs .value (['['] :: ls) := by
  intro c more fuel hc hfuel
  rw [List.length_cons] at hfuel
  obtain ⟨fuel, rfl⟩ : ∃ k, fuel = k + 1 := ⟨fuel - 1, by omega⟩
  obtain ⟨hopen, hmore⟩ := peek_mark .eofValue hc
  obtain ⟨d, hd, hrest⟩ := h.opened hpassed .eofList ']' (by decide) (fun _ _ he => he) hmore
    (show _ < fuel by omega)
  exact ⟨d, bind_eq_ok_iff.mpr ⟨_, hopen, hd⟩, hrest⟩

theorem skipAs_noMember : SkipAs .value [['\x7b'], ['\x7d']] := by
  intro c more fuel hc hfuel
  obtain ⟨fuel, rfl⟩ : ∃ k, fuel = k + 1 := ⟨fuel - 1, by omega⟩
  obtain ⟨hopen, hmore⟩ := peek_mark .eofValue hc
  obtain ⟨hclose, hmore⟩ := peek_mark .eofObject hmore
  refine ⟨_, bind_eq_ok_iff.mpr ⟨_, hopen, ?_⟩, hmore⟩
  exact bind_eq_ok_iff.mpr ⟨_, hclose, rfl⟩

/-- An object is passed over if its members are. -/
theorem SkipAs.object (h : SkipAs .members ls) (hpassed : Passed .members ls) :
    SkipAs .value (['\x7b'] :: ls) := by
  intro c more fuel hc hfuel
  rw [List.length_cons] at hfuel
  obtain ⟨fuel, rfl⟩ : ∃ k, fuel = k + 1 := ⟨fuel - 1, by omega⟩
  obtain ⟨hopen, hmore⟩ := peek_mark .eofValue hc
  obtain ⟨d, hd, hrest⟩ := h.opened hpassed .eofObject '\x7d' (by decide) (fun _ _ he => he) hmore
    (show _ < fuel by omega)
  exact ⟨d, bind_eq_ok_iff.mpr ⟨_, hopen, hd⟩, hrest⟩

/-- The last item is passed over with the closing bracket. -/
theorem SkipAs.lastItem (h : SkipAs .value ls) : SkipAs .items (ls ++ [[']']]) := by
  intro c more fuel hc hfuel
  simp only [List.length_append, List.length_singleton] at hfuel
  obtain ⟨fuel, rfl⟩ : ∃ k, fuel = k + 1 := ⟨fuel - 1, by omega⟩
  rw [List.append_assoc] at hc
  obtain ⟨e, he, hle⟩ := h hc (show _ < fuel by omega)
  obtain ⟨hclose, hmore⟩ := peek_mark .eofList hle
  exact ⟨_, bind_eq_ok_iff.mpr ⟨e, he, bind_eq_ok_iff.mpr ⟨_, hclose, rfl⟩⟩, hmore⟩

/-- An item is passed over with the comma and the items behind it. -/
theorem SkipAs.item {rs : List (List Char)} (h : SkipAs .value ls) (hs : SkipAs .items rs) :
    SkipAs .items (ls ++ [','] :: rs) := by
  intro c more fuel hc hfuel
  simp only [List.length_append, List.length_cons] at hfuel
  obtain ⟨fuel, rfl⟩ : ∃ k, fuel = k + 1 := ⟨fuel - 1, by omega⟩
  rw [List.append_assoc, List.cons_append] at hc
  obtain ⟨e, he, hle⟩ := h hc (show _ < fuel by omega)
  obtain ⟨hcomma, hmore⟩ := peek_mark .eofList hle
  obtain ⟨d, hd, hrest⟩ := hs hmore (show _ < fuel by omega)
  exact ⟨d, bind_eq_ok_iff.mpr ⟨e, he, bind_eq_ok_iff.mpr ⟨_, hcomma, hd⟩⟩, hrest⟩

/-- The key of a member, its colon and its value are passed over one behind the other. -/
theorem skipMember {fuel : Nat} (hk : Skimmed b) (h : SkipAs .value ls)
    (hc : lexemes c.rest = ('"' :: b) :: [':'] :: (ls ++ more)) (hfuel : 2 * ls.length < fuel) :
    ∃ e₁ e₂ e₃, peek .eofObject c = .ok ('"', skipBlanks c)
      ∧ skipString (skipBlanks c).next = .ok e₁ ∧ colon e₁ = .ok e₂ ∧ skipValue fuel e₂ = .ok e₃
      ∧ lexemes e₃.rest = more := by
  obtain ⟨x, r, hpeek, hx, hr, -, hmore⟩ := exists_peek .eofObject hc
  obtain rfl : '"' = x := by simpa using hx
  obtain ⟨e₁, he₁, hr₁⟩ := skipString_complete (c := (skipBlanks c).next) (r := r) hk (by simp [hr])
  rw [← hr₁] at hmore
  obtain ⟨e₂, he₂, hle₂⟩ := colon_eq_ok hmore
  obtain ⟨e₃, he₃, hle₃⟩ := h hle₂ hfuel
  exact ⟨e₁, e₂, e₃, hpeek, he₁, he₂, he₃, hle₃⟩

/-- The last member is passed over with the closing brace. -/
theorem SkipAs.lastMember (hk : Skimmed b) (h : SkipAs .value ls) :
    SkipAs .members (('"' :: b) :: [':'] :: (ls ++ [['\x7d']])) := by
  intro c more fuel hc hfuel
  simp only [List.length_append, List.length_cons] at hfuel
  obtain ⟨fuel, rfl⟩ : ∃ k, fuel = k + 1 := ⟨fuel - 1, by omega⟩
  simp only [List.append_assoc, List.cons_append] at hc
  obtain ⟨e₁, e₂, e₃, hpeek, he₁, he₂, he₃, hle⟩ := skipMember hk h hc (show _ < fuel by omega)
  obtain ⟨hclose, hmore⟩ := peek_mark .eofObject hle
  refine ⟨_, bind_eq_ok_iff.mpr ⟨_, hpeek, ?_⟩, hmore⟩
  exact bind_eq_ok_iff.mpr ⟨_, he₁, bind_eq_ok_iff.mpr ⟨_, he₂, bind_eq_ok_iff.mpr
    ⟨_, he₃, bind_eq_ok_iff.mpr ⟨_, hclose, rfl⟩⟩⟩⟩

/-- A member is passed over with the comma and the members behind it. -/
theorem SkipAs.member {rs : List (List Char)} (hk : Skimmed b) (h : SkipAs .value ls)
    (hs : SkipAs .members rs) :
    SkipAs .members (('"' :: b) :: [':'] :: (ls ++ [','] :: rs)) := by
  intro c more fuel hc hfuel
  simp only [List.length_append, List.length_cons] at hfuel
  obtain ⟨fuel, rfl⟩ : ∃ k, fuel = k + 1 := ⟨fuel - 1, by omega⟩
  simp only [List.append_assoc, List.cons_append] at hc
  obtain ⟨e₁, e₂, e₃, hpeek, he₁, he₂, he₃, hle⟩ := skipMember hk h hc (show _ < fuel by omega)
  obtain ⟨hcomma, hmore⟩ := peek_mark .eofObject hle
  obtain ⟨d, hd, hrest⟩ := hs hmore (show _ < fuel by omega)
  refine ⟨d, bind_eq_ok_iff.mpr ⟨_, hpeek, ?_⟩, hrest⟩
  exact bind_eq_ok_iff.mpr ⟨_, he₁, bind_eq_ok_iff.mpr ⟨_, he₂, bind_eq_ok_iff.mpr
    ⟨_, he₃, bind_eq_ok_iff.mpr ⟨_, hcomma, hd⟩⟩⟩⟩

/-- **What is spelt is passed over.** -/
theorem Passed.skipAs (h : Passed p ls) : SkipAs p ls := by
  induction h with
  | atom h => exact skipAs_atom h
  | noItem => exact skipAs_noItem
  | array h ih => exact ih.array h
  | noMember => exact skipAs_noMember
  | object h ih => exact ih.object h
  | lastItem _ ih => exact ih.lastItem
  | item _ _ ih ihs => exact ih.item ihs
  | lastMember hk _ ih => exact ih.lastMember hk
  | member hk _ _ ih ihs => exact ih.member hk ihs

end DeclarationDocs.Json
