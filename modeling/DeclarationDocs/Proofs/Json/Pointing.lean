import DeclarationDocs.Proofs.Json.Lines
import DeclarationDocs.Proofs.Json.Skimming

namespace DeclarationDocs.Json

open Text (isDigit byteLength)

/-!
# Where faults are found

The reader counts lines and bytes as it goes on, and reports a fault where it stands.  So the
place of a fault is a place in the text that was read: there is such a line, and it is long
enough for such a column.

* `Cursor.InText s`, `Position.InText s` — a cursor or place that stands in the text `s`;
* `Cursor.InText.next` — the one way in which a cursor moves; `Cursor.InText.position` and the
  like — the places that are reported;
* `Points` — a reader that stays in the text, and reports its faults there;
* `points_value`, `points_skipValue` — values are read so, whether they are asked for or not.
-/

/-- A cursor that stands in a text: its line and column count what lies before it. -/
def Cursor.InText (s : List Char) (c : Cursor) : Prop :=
  ∃ above left, lines s = above ++ (lines c.rest).modifyHead (left ++ ·) ∧
    c.line = above.length + 1 ∧ c.column = byteLength left

/-- A place in a text: the text has that line, and the line that column. -/
def Position.InText (s : List Char) (p : Position) : Prop :=
  ∃ l, 0 < p.line ∧ (lines s)[p.line - 1]? = some l ∧ p.column ≤ byteLength l

variable {s : List Char} {c : Cursor} {positive : Bool}

/-- The bytes of an append are those of its two parts. -/
theorem byteLength_append (a b : List Char) :
    byteLength (a ++ b) = byteLength a + byteLength b := by
  induction a with
  | nil => simp [byteLength]
  | cons x a ih => simp only [List.cons_append, byteLength, ih, Nat.add_assoc]

/-! ### Cursors -/

/-- The cursor at the start of `s` points into `s`. -/
theorem Cursor.inText_start (s : List Char) : (Cursor.start s).InText s := by
  refine ⟨[], [], ?_, rfl, rfl⟩
  obtain ⟨l, ls, hl⟩ := List.exists_cons_of_ne_nil (lines_ne_nil s)
  simp [Cursor.start, hl]

/-- **One step.**  Behind a line break the next line begins, and every other character makes the
    line longer. -/
theorem Cursor.InText.next (h : c.InText s) : c.next.InText s := by
  obtain ⟨above, left, hlines, hline, hcolumn⟩ := h
  unfold Cursor.next
  split
  · exact ⟨above, left, hlines, hline, hcolumn⟩
  · rename_i r hc
    rw [hc, lines_break, List.modifyHead_cons, List.append_nil] at hlines
    obtain ⟨l, ls, hl⟩ := List.exists_cons_of_ne_nil (lines_ne_nil r)
    refine ⟨above ++ [left], [], ?_, ?_, rfl⟩
    · rw [hlines, hl]
      simp
    · rw [List.length_append, List.length_singleton, ← hline]
  · rename_i x r hx hc
    have hne : x ≠ '\n' := fun heq => hx (heq ▸ rfl)
    rw [hc, lines_cons hne] at hlines
    obtain ⟨l, ls, hl⟩ := List.exists_cons_of_ne_nil (lines_ne_nil r)
    refine ⟨above, left ++ [x], ?_, hline, ?_⟩
    · rw [hlines, hl]
      simp
    · rw [byteLength_append, ← hcolumn]
      rfl

/-- It does so after skipping any number of characters. -/
theorem Cursor.InText.skip (h : c.InText s) (n : Nat) : (c.skip n).InText s := by
  induction n generalizing c with
  | zero => exact h
  | succ n ih => exact ih h.next

/-! ### Places -/

/-- The line of a cursor has the column of the cursor, and room for the bytes of the next
    character. -/
theorem Cursor.InText.exists_line (h : c.InText s) : ∃ l, (lines s)[c.line - 1]? = some l ∧
    c.column ≤ byteLength l ∧
    ∀ x r, c.rest = x :: r → x ≠ '\n' → c.column + x.utf8Size ≤ byteLength l := by
  obtain ⟨above, left, hlines, hline, hcolumn⟩ := h
  obtain ⟨l, ls, hl⟩ := List.exists_cons_of_ne_nil (lines_ne_nil c.rest)
  rw [hl, List.modifyHead_cons] at hlines
  refine ⟨left ++ l, ?_, ?_, ?_⟩
  · rw [hline, hlines]
    simp
  · rw [byteLength_append, hcolumn]
    exact Nat.le_add_right _ _
  · intro x r hc hx
    obtain ⟨l', ls', hl'⟩ := List.exists_cons_of_ne_nil (lines_ne_nil r)
    rw [hc, lines_cons hx, hl', List.modifyHead_cons] at hl
    obtain ⟨rfl, -⟩ := List.cons.inj hl
    rw [byteLength_append, hcolumn, byteLength]
    omega

/-- Lines count from 1. -/
theorem Cursor.InText.line_pos (h : c.InText s) : 0 < c.line := by
  obtain ⟨above, left, -, hline, -⟩ := h
  omega

/-- The position of a cursor is one of `s`. -/
theorem Cursor.InText.position (h : c.InText s) : c.position.InText s := by
  obtain ⟨l, hl, hcolumn, -⟩ := h.exists_line
  exact ⟨l, h.line_pos, hl, hcolumn⟩

/-- A place among the bytes of the next character is on its line. -/
theorem Cursor.InText.inside (h : c.InText s) {x : Char} {r : List Char} {k : Nat}
    (hc : c.rest = x :: r) (hx : x ≠ '\n') (hk : k ≤ x.utf8Size) :
    Position.InText s ⟨c.line, c.column + k⟩ := by
  obtain ⟨l, hl, -, hroom⟩ := h.exists_line
  refine ⟨l, h.line_pos, hl, ?_⟩
  have := hroom x r hc hx
  show c.column + k ≤ byteLength l
  omega

/-- So is the position behind the next byte. -/
theorem Cursor.InText.positionAfterByte (h : c.InText s) : c.positionAfterByte.InText s := by
  unfold Cursor.positionAfterByte
  split
  · exact h.position
  · rename_i r hc
    have hnext := h.next.position
    rwa [Cursor.next, hc] at hnext
  · rename_i hnil hx
    obtain ⟨x, r, hc⟩ := List.exists_cons_of_ne_nil hnil
    exact h.inside hc (fun heq => hx r (heq ▸ hc)) x.utf8Size_pos

/-- So is the position behind `n` bytes. -/
theorem Cursor.InText.positionAfterBytes (h : c.InText s) (n : Nat) :
    (c.positionAfterBytes n).InText s := by
  fun_induction Cursor.positionAfterBytes n c with
  | case1 c => exact h.position
  | case2 n c hc => exact h.position
  | case3 n c x r hc hx ih => exact ih h.next
  | case4 n c x r hc hx =>
    -- the count ends among the bytes of a character, which a line break does not have
    have hne : x ≠ '\n' := by
      rintro rfl
      exact hx (by simp [Char.utf8Size])
    have hk : n + 1 ≤ x.utf8Size := by omega
    exact h.inside hc hne hk

/-! ### Readers -/

/-- A result of reading in a text: the cursor `behind` what was read stands there, or else the
    fault does. -/
def Points {α : Type} (s : List Char) (behind : α → Cursor) : Except SyntaxFault α → Prop :=
  Ends (fun a => (behind a).InText s) fun e => e.position.InText s

variable {α β : Type} {behind : α → Cursor} {behind' : β → Cursor}

/-- Steps of a reader point into the text one after the other. -/
theorem Points.bind {x : Except SyntaxFault α} {f : α → Except SyntaxFault β}
    (hx : Points s behind x) (hf : ∀ a, (behind a).InText s → Points s behind' (f a)) :
    Points s behind' (x >>= f) :=
  Ends.bind hx hf

/-- A step that succeeds points to where it ends. -/
theorem points_ok {a : α} (h : (behind a).InText s) : Points s behind (.ok a) := h

/-- A fault at a cursor points to that place. -/
theorem points_fault (h : c.InText s) (f : Flaw) :
    Points s behind (.error (c.fault f) : Except SyntaxFault α) :=
  h.position

/-- A fault behind the next byte points to that place. -/
theorem points_faultAfter (h : c.InText s) (f : Flaw) :
    Points s behind (.error (c.faultAfter f) : Except SyntaxFault α) :=
  h.positionAfterByte

/-- Skipping blanks stays in the text. -/
theorem Cursor.InText.skipBlanks (h : c.InText s) : (skipBlanks c).InText s := by
  have hin : ∀ (t : List Char) (c : Cursor), c.InText s → (skipBlanksIn t c).InText s := by
    intro t
    induction t with
    | nil => exact fun c h => h
    | cons x t ih =>
      intro c h
      unfold skipBlanksIn
      split
      · exact ih _ h.next
      · exact h
  exact hin _ _ h

/-- The reader of a word points into the text, wherever it fails. -/
theorem points_word (t : List Char) (h : c.InText s) : Points s Prod.snd (word t c) := by
  induction t generalizing c with
  | nil => exact points_ok h
  | cons x t ih =>
    unfold word
    split
    · exact points_fault h _
    · split
      · exact ih h.next
      · exact points_faultAfter h _

/-! ### Strings -/

theorem points_hexEscape (h : c.InText s) : Points s Prod.snd (hexEscape c) := by
  unfold hexEscape
  split
  · split
    · exact points_ok (h.skip 4)
    · exact h.positionAfterBytes 4
  · split
    · exact h.positionAfterBytes 4
    · exact points_fault (h.skip _) _

theorem points_pairMark (x : Char) (h : c.InText s) : Points s id (pairMark x c) := by
  unfold pairMark
  split
  · exact points_fault h _
  · split
    · exact points_ok h.next
    · exact points_faultAfter h _

theorem points_unicodeEscape (h : c.InText s) : Points s Prod.snd (unicodeEscape c) := by
  refine (points_hexEscape h).bind ?_
  rintro ⟨n, c₁⟩ h₁
  dsimp only at h₁ ⊢
  split
  · exact points_fault h₁ _
  · split
    · refine (points_pairMark '\\' h₁).bind fun c₂ h₂ => ?_
      refine (points_pairMark 'u' h₂).bind fun c₃ h₃ => ?_
      refine (points_hexEscape h₃).bind ?_
      rintro ⟨m, c₄⟩ h₄
      dsimp only at h₄ ⊢
      split
      · exact points_ok h₄
      · exact points_fault h₄ _
    · exact points_ok h₁

/-- **Strings.**  By induction on the bound for their length, one case for each kind of
    character. -/
theorem points_stringTail (checked : Bool) (fuel : Nat) (acc : List Char) (h : c.InText s) :
    Points s Prod.snd (stringTail checked fuel acc c) := by
  induction fuel generalizing acc c with
  | zero => exact points_fault h _
  | succ fuel ih =>
    unfold stringTail
    split
    · exact points_fault h _
    · exact points_ok h.next
    · dsimp only
      split
      · exact points_fault h.next _
      · split
        · refine (points_unicodeEscape h.next.next).bind ?_
          rintro ⟨x, c₁⟩ h₁
          exact ih _ h₁
        · refine (points_hexEscape h.next.next).bind ?_
          rintro ⟨_, c₁⟩ h₁
          exact ih _ h₁
      · split
        · exact ih _ h.next.next
        · exact points_faultAfter h.next _
    · split
      · split
        · exact points_faultAfter h _
        · exact points_fault h _
      · exact ih _ h.next

theorem points_stringAt (h : c.InText s) : Points s Prod.snd (stringAt c) :=
  (points_stringTail true _ [] h).bind fun _ h₁ => points_ok h₁

/-! ### Numbers -/

/-- Reading digits stays in the text. -/
theorem Cursor.InText.digits (t : List Char) (n used : Nat) (h : c.InText s) :
    (digits t n used c).2.2.InText s := by
  induction t generalizing n used c with
  | nil => exact h
  | cons x t ih =>
    unfold Json.digits
    split
    · exact ih _ _ h.next
    · exact h

/-- Dropping digits stays in the text. -/
theorem Cursor.InText.dropDigits (t : List Char) (count : Nat) (h : c.InText s) :
    (dropDigits t count c).2.InText s := by
  induction t generalizing count c with
  | nil => exact h
  | cons x t ih =>
    unfold Json.dropDigits
    split
    · exact ih _ h.next
    · exact h

/-- The reader of an exponent's digits points into the text. -/
theorem points_exponentDigits (significand : Nat) (exponent : Int) (down : Bool)
    (h : c.InText s) :
    Points s Prod.snd (exponentDigits positive significand exponent down c) := by
  have hbehind := h.dropDigits c.rest 0
  unfold exponentDigits
  split
  · exact points_fault h _
  · split
    · exact points_faultAfter h _
    · dsimp only
      split
      · split
        · exact points_ok hbehind
        · exact points_fault hbehind _
      · split
        · exact points_fault (h.skip _) _
        · exact points_ok hbehind

theorem points_exponentPart (significand : Nat) (exponent : Int) (h : c.InText s) :
    Points s Prod.snd (exponentPart positive significand exponent c) := by
  rw [exponentPart_eq]
  refine points_exponentDigits _ _ _ ?_
  rw [signAt_eq]
  split
  · exact h.next.next
  · split
    · exact h.next.next
    · exact h.next

theorem points_floatTail (significand : Nat) (exponent : Int) (h : c.InText s) :
    Points s Prod.snd (floatTail positive significand exponent c) := by
  unfold floatTail
  split
  · exact points_exponentPart _ _ h
  · exact points_exponentPart _ _ h
  · split
    · exact points_ok h
    · exact points_fault h _

theorem points_fractionPart (significand : Nat) (exponent : Int) (h : c.InText s) :
    Points s Prod.snd (fractionPart positive significand exponent c) := by
  rw [fractionPart_eq]
  unfold fractionBehind
  split
  · exact points_fault h.next _
  · split
    · exact points_faultAfter h.next _
    · exact points_floatTail _ _ ((h.next.digits _ _ _).dropDigits _ _)

theorem points_numberTail (significand : Nat) (h : c.InText s) :
    Points s Prod.snd (numberTail positive significand c) := by
  unfold numberTail
  split
  · exact points_fractionPart _ _ h
  · exact points_exponentPart _ _ h
  · exact points_exponentPart _ _ h
  · split
    · exact points_ok h
    · split
      · exact points_ok h
      · exact points_ok h

theorem points_digitsTail (h : c.InText s) : Points s Prod.snd (digitsTail positive c) := by
  have hkept := h.digits c.rest 0 0
  unfold digitsTail
  dsimp only
  split
  · exact points_numberTail _ hkept
  · have hmore := hkept.dropDigits (digits c.rest 0 0 c).2.2.rest 0
    unfold largeTail
    split
    · exact points_fractionPart _ _ hmore
    · exact points_floatTail _ _ hmore

theorem points_zeroTail (h : c.InText s) : Points s Prod.snd (zeroTail positive c) := by
  unfold zeroTail
  split
  · split
    · exact points_faultAfter h _
    · exact points_numberTail _ h
  · exact points_numberTail _ h

theorem points_numberAt (h : c.InText s) : Points s Prod.snd (numberAt positive c) := by
  cases hc : c.rest with
  | nil =>
    rw [numberAt, hc]
    exact points_fault h _
  | cons x r =>
    by_cases hx : x = '0'
    · subst hx
      rw [numberAt_of_zero hc]
      exact points_zeroTail h.next
    · rw [numberAt_of_ne hc hx]
      split
      · exact points_faultAfter h _
      · exact points_digitsTail h

/-! ### Values -/

/-- A look ahead points into the text, also at the end of it. -/
theorem points_peek (atEnd : Flaw) (h : c.InText s) : Points s Prod.snd (peek atEnd c) := by
  unfold peek
  dsimp only
  split
  · exact points_fault h.skipBlanks _
  · exact points_ok h.skipBlanks

/-- The reader of an atom points into the text. -/
theorem points_scalar (x : Char) (h : c.InText s) : Points s Prod.snd (scalar x c) := by
  unfold scalar
  split
  · exact (points_word _ h.next).bind fun _ h₁ => points_ok h₁
  · exact (points_word _ h.next).bind fun _ h₁ => points_ok h₁
  · exact (points_word _ h.next).bind fun _ h₁ => points_ok h₁
  · exact (points_numberAt h.next).bind fun _ h₁ => points_ok h₁
  · exact (points_stringAt h.next).bind fun _ h₁ => points_ok h₁
  · split
    · exact (points_numberAt h).bind fun _ h₁ => points_ok h₁
    · exact points_faultAfter h _

theorem points_hasItem (first : Bool) (h : c.InText s) : Points s Prod.snd (hasItem first c) := by
  refine (points_peek .eofList h).bind ?_
  rintro ⟨x, c₁⟩ h₁
  dsimp only at h₁ ⊢
  split
  · exact points_ok h₁
  · split
    · exact points_ok h₁
    · split
      · refine (points_peek .eofValue h₁.next).bind ?_
        rintro ⟨y, c₂⟩ h₂
        dsimp only at h₂ ⊢
        split
        · exact points_faultAfter h₂ _
        · exact points_ok h₂
      · exact points_faultAfter h₁ _

theorem points_hasMember (first : Bool) (h : c.InText s) :
    Points s Prod.snd (hasMember first c) := by
  refine (points_peek .eofObject h).bind ?_
  rintro ⟨x, c₁⟩ h₁
  dsimp only at h₁ ⊢
  split
  · exact points_ok h₁
  · split
    · split
      · exact points_ok h₁
      · exact points_faultAfter h₁ _
    · split
      · refine (points_peek .eofValue h₁.next).bind ?_
        rintro ⟨y, c₂⟩ h₂
        dsimp only at h₂ ⊢
        split
        · exact points_ok h₂
        · split
          · exact points_faultAfter h₂ _
          · exact points_faultAfter h₂ _
      · exact points_faultAfter h₁ _

theorem points_colon (h : c.InText s) : Points s id (colon c) := by
  refine (points_peek .eofObject h).bind ?_
  rintro ⟨x, c₁⟩ h₁
  dsimp only at h₁ ⊢
  split
  · exact points_ok h₁.next
  · exact points_faultAfter h₁ _

mutual

/-- **Values.**  By induction on the fuel, together with the items and members of values. -/
theorem points_value (fuel depth : Nat) {c : Cursor} (h : c.InText s) :
    Points s Prod.snd (value fuel depth c) := by
  cases fuel with
  | zero => exact points_fault h _
  | succ fuel =>
    unfold value
    refine (points_peek .eofValue h).bind ?_
    rintro ⟨x, c₁⟩ h₁
    dsimp only at h₁ ⊢
    split
    · split
      · exact points_faultAfter h₁ _
      · exact (points_itemsOf fuel _ true h₁.next).bind fun _ h₂ => points_ok h₂
    · split
      · split
        · exact points_faultAfter h₁ _
        · exact (points_membersOf fuel _ true h₁.next).bind fun _ h₂ => points_ok h₂
      · exact points_scalar x h₁

/-- So does the reader of items, by induction on the fuel together with that of values. -/
theorem points_itemsOf (fuel depth : Nat) (first : Bool) {c : Cursor} (h : c.InText s) :
    Points s Prod.snd (itemsOf fuel depth first c) := by
  cases fuel with
  | zero => exact points_fault h _
  | succ fuel =>
    unfold itemsOf
    refine (points_hasItem first h).bind ?_
    rintro ⟨more, c₁⟩ h₁
    dsimp only at h₁ ⊢
    split
    · refine (points_value fuel depth h₁).bind ?_
      rintro ⟨v, c₂⟩ h₂
      exact (points_itemsOf fuel depth false h₂).bind fun _ h₃ => points_ok h₃
    · exact points_ok h₁.next

theorem points_membersOf (fuel depth : Nat) (first : Bool) {c : Cursor} (h : c.InText s) :
    Points s Prod.snd (membersOf fuel depth first c) := by
  cases fuel with
  | zero => exact points_fault h _
  | succ fuel =>
    unfold membersOf
    refine (points_hasMember first h).bind ?_
    rintro ⟨more, c₁⟩ h₁
    dsimp only at h₁ ⊢
    split
    · refine (points_stringAt h₁.next).bind ?_
      rintro ⟨k, c₂⟩ h₂
      refine (points_colon h₂).bind fun c₃ h₃ => ?_
      refine (points_value fuel depth h₃).bind ?_
      rintro ⟨v, c₄⟩ h₄
      exact (points_membersOf fuel depth false h₄).bind fun _ h₅ => points_ok h₅
    · exact points_ok h₁.next

end

/-- What follows a value fails in the text, if it fails. -/
theorem ends_finish (h : c.InText s) :
    Ends (fun _ => True) (fun e => e.position.InText s) (finish c) := by
  unfold finish
  dsimp only
  split
  · trivial
  · exact h.skipBlanks.positionAfterByte

/-- **Whole texts.**  The fault of a text that has no value is found in it. -/
theorem inText_of_parse {e : SyntaxFault} (h : parse s = .error e) : e.position.InText s := by
  have hparse : Ends (fun _ => True) (fun e => e.position.InText s) (parse s) := by
    refine Ends.bind (points_value _ _ (Cursor.inText_start s)) ?_
    rintro ⟨v, c⟩ hc
    exact Ends.bind (ends_finish hc) fun _ _ => trivial
  rwa [h] at hparse

/-! ### Values that nobody asked for -/

/-- Passing over digits points into the text. -/
theorem points_someDigits (h : c.InText s) : Points s id (someDigits c) := by
  unfold someDigits
  split
  · split
    · exact points_ok (h.dropDigits _ _)
    · exact points_faultAfter h _
  · exact points_fault h _

theorem points_skipExponent (h : c.InText s) : Points s id (skipExponent c) := by
  unfold skipExponent
  split
  · split
    · split
      · exact points_someDigits h.next.next
      · exact points_someDigits h.next.next
      · exact points_someDigits h.next
    · exact points_ok h
  · exact points_ok h

theorem points_skipNumber (h : c.InText s) : Points s id (skipNumber c) := by
  rw [skipNumber_eq]
  have hwhole : Points s id (skipWhole c) := by
    unfold skipWhole
    split
    · split
      · exact points_faultAfter h.next _
      · exact points_ok h.next
    · exact points_someDigits h
  refine hwhole.bind fun c₁ h₁ => ?_
  have hfraction : Points s id (skipFraction c₁) := by
    unfold skipFraction
    split
    · exact points_someDigits h₁.next
    · exact points_ok h₁
  exact hfraction.bind fun c₂ h₂ => points_skipExponent h₂

theorem points_skipString (h : c.InText s) : Points s id (skipString c) :=
  (points_stringTail false _ [] h).bind fun _ h₁ => points_ok h₁

theorem points_skipScalar (x : Char) (h : c.InText s) : Points s id (skipScalar x c) := by
  unfold skipScalar
  split
  · exact points_skipNumber h.next
  · exact points_skipString h.next
  · split
    · exact points_skipNumber h
    · exact (points_scalar x h).bind fun _ h₁ => points_ok h₁

mutual

/-- **Values that are passed over.**  By induction on the fuel, as for values that are read. -/
theorem points_skipValue (fuel : Nat) {c : Cursor} (h : c.InText s) :
    Points s id (skipValue fuel c) := by
  cases fuel with
  | zero => exact points_fault h _
  | succ fuel =>
    unfold skipValue
    refine (points_peek .eofValue h).bind ?_
    rintro ⟨x, c₁⟩ h₁
    dsimp only at h₁ ⊢
    split
    · refine (points_peek .eofList h₁.next).bind ?_
      rintro ⟨y, c₂⟩ h₂
      dsimp only at h₂ ⊢
      split
      · exact points_ok h₂.next
      · exact points_skipItems fuel h₂
    · split
      · refine (points_peek .eofObject h₁.next).bind ?_
        rintro ⟨y, c₂⟩ h₂
        dsimp only at h₂ ⊢
        split
        · exact points_ok h₂.next
        · exact points_skipMembers fuel h₂
      · exact points_skipScalar x h₁

/-- So does passing over items, by induction on the fuel together with values. -/
theorem points_skipItems (fuel : Nat) {c : Cursor} (h : c.InText s) :
    Points s id (skipItems fuel c) := by
  cases fuel with
  | zero => exact points_fault h _
  | succ fuel =>
    unfold skipItems
    refine (points_skipValue fuel h).bind fun c₁ h₁ => ?_
    refine (points_peek .eofList h₁).bind ?_
    rintro ⟨x, c₂⟩ h₂
    dsimp only at h₂ ⊢
    split
    · exact points_skipItems fuel h₂.next
    · split
      · exact points_ok h₂.next
      · exact points_faultAfter h₂ _

theorem points_skipMembers (fuel : Nat) {c : Cursor} (h : c.InText s) :
    Points s id (skipMembers fuel c) := by
  cases fuel with
  | zero => exact points_fault h _
  | succ fuel =>
    unfold skipMembers
    refine (points_peek .eofObject h).bind ?_
    rintro ⟨x, c₁⟩ h₁
    dsimp only at h₁ ⊢
    split
    · exact points_faultAfter h₁ _
    · refine (points_skipString h₁.next).bind fun c₂ h₂ => ?_
      refine (points_colon h₂).bind fun c₃ h₃ => ?_
      refine (points_skipValue fuel h₃).bind fun c₄ h₄ => ?_
      refine (points_peek .eofObject h₄).bind ?_
      rintro ⟨y, c₅⟩ h₅
      dsimp only at h₅ ⊢
      split
      · exact points_skipMembers fuel h₅.next
      · split
        · exact points_ok h₅.next
        · exact points_faultAfter h₅ _

end

end DeclarationDocs.Json
