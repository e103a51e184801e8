import DeclarationDocs.Proofs.Json.Grammar

namespace DeclarationDocs.Json

open Text (isDigit)

/-!
# Lexemes that are passed over

Where a value is passed over nothing is made of it, so less is asked of a lexeme than where it is
read: a number may be of any size, and an escape `\u` need not stand for a character.

* `Skimmed b` — the rest of a literal that may be passed over;
* `Numeral l` — a number as it may be written;
* `exists_unread`, `Unread.skipScalar_eq_ok` — the lexemes that are passed over as values.
-/

/-- The rest of a literal behind its opening quote, where escapes need not stand for characters. -/
inductive Skimmed : List Char → Prop
  | quote : Skimmed ['"']
  | char {x : Char} {b : List Char} (hq : x ≠ '"') (hs : x ≠ '\\') (hx : ¬ x.toNat < 0x20)
      (h : Skimmed b) : Skimmed (x :: b)
  | escape {x y : Char} {b : List Char} (hx : simpleEscape? x = some y) (h : Skimmed b) :
      Skimmed ('\\' :: x :: b)
  | unicode {u : List Char} {n : Nat} {b : List Char} (hu : HexEscape u n) (h : Skimmed b) :
      Skimmed ('\\' :: 'u' :: (u ++ b))

/-- One digit or more. -/
def Digits (u : List Char) : Prop := u ≠ [] ∧ ∀ x ∈ u, isDigit x = true

/-- The digits in front of the point: no zero stands before others. -/
def Whole (u : List Char) : Prop := u = ['0'] ∨ (Digits u ∧ u.head? ≠ some '0')

/-- The fraction of a number, if it has one. -/
def Fraction (u : List Char) : Prop := u = [] ∨ ∃ w, u = '.' :: w ∧ Digits w

/-- The exponent of a number, if it has one. -/
def Exponent (u : List Char) : Prop :=
  u = [] ∨ ∃ e w, (e = 'e' ∨ e = 'E') ∧ Digits w ∧
    (u = e :: w ∨ u = e :: '+' :: w ∨ u = e :: '-' :: w)

/-- A number without a sign. -/
def Unsigned (l : List Char) : Prop :=
  ∃ u v w, l = u ++ (v ++ w) ∧ Whole u ∧ Fraction v ∧ Exponent w

/-- A number as it may be written. -/
def Numeral (l : List Char) : Prop := Unsigned l ∨ ∃ u, l = '-' :: u ∧ Unsigned u

/-- The words that are no numbers. -/
def constants : List (List Char) := ["null".toList, "true".toList, "false".toList]

/-- One lexeme that is passed over as a value. -/
inductive Unread : List Char → Prop
  | constant {l : List Char} (h : l ∈ constants) : Unread l
  | numeral {l : List Char} (h : Numeral l) : Unread l
  | literal {b : List Char} (h : Skimmed b) : Unread ('"' :: b)

variable {c d : Cursor} {u b r s l acc : List Char} {x : Char} {n fuel : Nat}

/-! ### Literals -/

/-- What may be passed over as the rest of a literal is one. -/
theorem Skimmed.body (h : Skimmed b) : Body b := by
  induction h with
  | quote => exact .quote
  | char hq hs _ _ ih => exact .char hq hs ih
  | escape _ _ ih => exact .escape _ ih
  | unicode hu _ ih => exact .escape 'u' (hu.body ih)

/-- A quote ends a literal that is passed over. -/
theorem skimTail_of_quote (hc : c.rest = '"' :: r) :
    stringTail false (fuel + 1) acc c = .ok (acc.reverse, c.next) := by
  simp [stringTail, hc]

/-- Behind `\u` four digits are enough. -/
theorem skimTail_of_unicode (hc : c.rest = '\\' :: 'u' :: r) :
    stringTail false (fuel + 1) acc c = (do
      let (_, c) ← hexEscape c.next.next
      stringTail false fuel acc c) := by
  simp [stringTail, hc]

/-- Behind another backslash a simple escape is read, or there is a fault. -/
theorem skimTail_of_escape (hc : c.rest = '\\' :: x :: r) (hx : x ≠ 'u') :
    stringTail false (fuel + 1) acc c = match simpleEscape? x with
      | some y => stringTail false fuel (y :: acc) c.next.next
      | none => .error (c.next.faultAfter .invalidEscape) := by
  cases hy : simpleEscape? x <;> simp [stringTail, hc, hy]

/-- Any other character is passed over unless it is a control character. -/
theorem skimTail_of_char (hc : c.rest = x :: r) (hq : x ≠ '"') (hs : x ≠ '\\') :
    stringTail false (fuel + 1) acc c = if x.toNat < 0x20 then
        .error (c.fault .controlCharacter)
      else stringTail false fuel (x :: acc) c.next := by
  simp [stringTail, hc]

/-- What is passed over as the rest of a literal is `Skimmed`. -/
theorem exists_skimmed (h : stringTail false fuel acc c = .ok (s, d)) :
    ∃ b, c.rest = b ++ d.rest ∧ Skimmed b := by
  induction fuel generalizing acc c with
  | zero => cases h
  | succ fuel ih =>
    cases hc : c.rest with
    | nil => simp [stringTail, hc] at h
    | cons x r =>
      by_cases hq : x = '"'
      · subst hq
        rw [skimTail_of_quote hc] at h
        obtain ⟨-, rfl⟩ : acc.reverse = s ∧ c.next = d := by simpa using h
        exact ⟨['"'], by simp [hc], .quote⟩
      by_cases hs : x = '\\'
      · subst hs
        -- what follows a backslash is one character, or a mark and four digits
        cases r with
        | nil => simp [stringTail, hc] at h
        | cons y r =>
          by_cases hu : y = 'u'
          · subst hu
            rw [skimTail_of_unicode hc] at h
            obtain ⟨⟨n, e⟩, hn, h⟩ := bind_eq_ok_iff.mp h
            obtain ⟨u, hrest, hu⟩ := accepts_hexEscape.sound hn
            obtain ⟨b, hb, hskimmed⟩ := ih h
            have hr : r = u ++ e.rest := by simpa [hc] using hrest
            exact ⟨_, by simp [hr, hb], .unicode hu hskimmed⟩
          · rw [skimTail_of_escape hc hu] at h
            cases hy : simpleEscape? y with
            | none => simp [hy] at h
            | some z =>
              rw [hy] at h
              obtain ⟨b, hb, hskimmed⟩ := ih h
              have hr : r = b ++ d.rest := by simpa [hc] using hb
              exact ⟨_, by simp [hr], .escape hy hskimmed⟩
      · rw [skimTail_of_char hc hq hs] at h
        split_ifs at h with hcontrol
        obtain ⟨b, hb, hskimmed⟩ := ih h
        have hr : r = b ++ d.rest := by simpa [hc] using hb
        exact ⟨_, by simp [hr], .char hq hs hcontrol hskimmed⟩

/-- What is described is passed over, with fuel for each of its characters. -/
theorem stringTail_of_skimmed (h : Skimmed b) (hc : c.rest = b ++ r) (n : Nat) :
    ∃ t d, stringTail false (b.length + n) acc c = .ok (t, d) ∧ d.rest = r := by
  induction h generalizing acc c n with
  | quote =>
    have hc : c.rest = '"' :: r := hc
    have hfuel : ['"'].length + n = n + 1 := by rw [List.length_singleton, Nat.add_comm]
    exact ⟨_, c.next, by rw [hfuel, skimTail_of_quote hc], by simp [hc]⟩
  | @char x b hq hs hx _ ih =>
    have hc : c.rest = x :: (b ++ r) := hc
    have hfuel : (x :: b).length + n = b.length + n + 1 := by rw [List.length_cons]; omega
    have hnext : c.next.rest = b ++ r := by simp [hc]
    rw [hfuel, skimTail_of_char hc hq hs, if_neg hx]
    exact ih hnext n
  | @escape x y b hx _ ih =>
    have hc : c.rest = '\\' :: x :: (b ++ r) := hc
    have hfuel : ('\\' :: x :: b).length + n = b.length + (n + 1) + 1 := by
      rw [List.length_cons, List.length_cons]
      omega
    have hu : x ≠ 'u' := by
      rintro rfl
      rw [simpleEscape?_u] at hx
      cases hx
    have hnext : c.next.next.rest = b ++ r := by simp [hc]
    rw [hfuel, skimTail_of_escape hc hu, hx]
    exact ih hnext (n + 1)
  | @unicode u m b hu _ ih =>
    have hc : c.rest = '\\' :: 'u' :: (u ++ (b ++ r)) := by simpa using hc
    have hfuel : ('\\' :: 'u' :: (u ++ b)).length + n = b.length + (u.length + n + 1) + 1 := by
      rw [List.length_cons, List.length_cons, List.length_append]
      omega
    have hnext : c.next.next.rest = u ++ (b ++ r) := by simp [hc]
    -- the digits take no step of their own, so their fuel is left over
    obtain ⟨e, he, her⟩ := accepts_hexEscape.complete hu hnext
    obtain ⟨t, d, hd, hr⟩ : ∃ t d, stringTail false (b.length + (u.length + n + 1)) acc e
        = .ok (t, d) ∧ d.rest = r := ih her (u.length + n + 1)
    refine ⟨t, d, ?_, hr⟩
    rw [hfuel, skimTail_of_unicode hc]
    exact bind_eq_ok_iff.mpr ⟨(m, e), he, hd⟩

/-- What `skipString` passes over behind the opening quote is `Skimmed`. -/
theorem skipString_sound (h : skipString c = .ok d) : ∃ b, c.rest = b ++ d.rest ∧ Skimmed b := by
  obtain ⟨⟨t, e⟩, ht, hret⟩ := bind_eq_ok_iff.mp h
  obtain rfl : e = d := by simpa using hret
  exact exists_skimmed ht

/-- What is `Skimmed` is passed over by `skipString`, and no more. -/
theorem skipString_complete (h : Skimmed b) (hc : c.rest = b ++ r) :
    ∃ d, skipString c = .ok d ∧ d.rest = r := by
  have hfuel : c.rest.length + 1 = b.length + (r.length + 1) := by
    rw [hc, List.length_append]
    omega
  obtain ⟨t, d, hd, hr⟩ : ∃ t d, stringTail false (b.length + (r.length + 1)) [] c = .ok (t, d)
      ∧ d.rest = r := stringTail_of_skimmed h hc (r.length + 1)
  rw [← hfuel] at hd
  exact ⟨d, bind_eq_ok_iff.mpr ⟨(t, d), hd, rfl⟩, hr⟩

/-! ### Numbers -/

theorem digits_zero : Digits ['0'] := ⟨by simp, List.all_eq_true.mp (by decide)⟩

/-- Digits are characters of a word. -/
theorem Digits.isWordChar (h : Digits u) : ∀ x ∈ u, isWordChar x = true :=
  fun x hx => isWordChar_of_isDigit (h.2 x hx)

/-- No digit follows. -/
def DigitFree (s : List Char) : Prop := ∀ x ∈ s.head?, isDigit x = false

/-- Where a word ends there is no digit. -/
theorem digitFree_of_boundary (h : Boundary s) : DigitFree s := by
  intro x hx
  obtain ⟨r, rfl⟩ := List.head?_eq_some_iff.mp hx
  by_contra hd
  exact not_boundary_cons (isWordChar_of_isDigit (by simpa using hd)) h

/-- Whether a digit follows is seen from the first character. -/
theorem digitFree_cons (hx : isDigit x = false) : DigitFree (x :: s) := by
  simpa [DigitFree] using hx

/-- At least one digit is passed over, and all that follow it. -/
theorem someDigits_eq_ok_iff : someDigits c = .ok d
    ↔ (∃ x, c.rest.head? = some x ∧ isDigit x = true) ∧ (dropDigits c.rest 0 c).2 = d := by
  unfold someDigits
  cases hc : c.rest with
  | nil => simp
  | cons x r =>
    cases hx : isDigit x <;> simp [hx]

/-- What `someDigits` passes over are `Digits`. -/
theorem someDigits_sound (h : someDigits c = .ok d) : ∃ u, c.rest = u ++ d.rest ∧ Digits u := by
  obtain ⟨⟨x, hx, hdigit⟩, rfl⟩ := someDigits_eq_ok_iff.mp h
  obtain ⟨r, hr⟩ := List.head?_eq_some_iff.mp hx
  obtain ⟨-, hrest⟩ := dropDigits_spec (c := c) (k := 0) rfl
  refine ⟨c.rest.takeWhile isDigit, by rw [hrest, List.takeWhile_append_dropWhile], ?_,
    fun y hy => List.mem_takeWhile_imp hy⟩
  simp [hr, hdigit]

/-- All `Digits` are passed over by `someDigits`, and no more if no digit follows. -/
theorem someDigits_complete (h : Digits u) (hc : c.rest = u ++ r) (hr : DigitFree r) :
    ∃ d, someDigits c = .ok d ∧ d.rest = r := by
  obtain ⟨x, t, rfl⟩ := List.exists_cons_of_ne_nil h.1
  obtain ⟨-, hrest⟩ := dropDigits_spec (c := c) (k := 0) rfl
  refine ⟨_, someDigits_eq_ok_iff.mpr ⟨⟨x, by simp [hc], h.2 x (by simp)⟩, rfl⟩, ?_⟩
  rw [hrest, hc, List.dropWhile_append_of_pos h.2]
  cases r with
  | nil => rfl
  | cons y r => rw [List.dropWhile_cons, hr y (by simp), if_neg Bool.false_ne_true]

/-- Step over the digits in front of the point. -/
def skipWhole (c : Cursor) : Except SyntaxFault Cursor :=
  match c.rest with
  | '0' :: x :: _ =>
    if isDigit x then Except.error (c.next.faultAfter .invalidNumber) else Except.ok c.next
  | _ => someDigits c

/-- Step over a fraction, if there is one. -/
def skipFraction (c : Cursor) : Except SyntaxFault Cursor :=
  match c.rest with
  | '.' :: _ => someDigits c.next
  | _ => Except.ok c

/-- Only a zero with something behind it is treated otherwise. -/
theorem skipWhole_of_ne (h : ∀ x r, c.rest = '0' :: x :: r → False) :
    skipWhole c = someDigits c := by
  unfold skipWhole
  split
  · rename_i hc
    exact (h _ _ hc).elim
  · rfl

/-- A number is passed over in three parts. -/
theorem skipNumber_eq (c : Cursor) :
    skipNumber c = (do let c ← skipWhole c; let c ← skipFraction c; skipExponent c) := by
  have hfraction : ∀ d : Cursor, (do let d ← skipFraction d; skipExponent d) =
      match d.rest with
      | '.' :: _ => (do let d ← someDigits d.next; skipExponent d)
      | _ => (do let d ← Except.ok d; skipExponent d) := by
    intro d
    unfold skipFraction
    split <;> rfl
  simp only [hfraction, skipNumber]
  split
  · rename_i hc
    simp only [skipWhole, hc]
    split_ifs <;> rfl
  · rename_i hc
    exact (skipWhole_of_ne hc).symm ▸ rfl

/-- What is passed over in front of the point is `Whole`. -/
theorem skipWhole_sound (h : skipWhole c = .ok d) : ∃ u, c.rest = u ++ d.rest ∧ Whole u := by
  unfold skipWhole at h
  split at h
  · rename_i x r hc
    split_ifs at h
    obtain rfl : c.next = d := by simpa using h
    exact ⟨['0'], by simp [hc], Or.inl rfl⟩
  · rename_i hne
    obtain ⟨u, hu, hdigits⟩ := someDigits_sound h
    by_cases hzero : u.head? = some '0'
    · -- a zero that other digits follow is refused, so it stands alone
      obtain ⟨t, rfl⟩ := List.head?_eq_some_iff.mp hzero
      cases t with
      | nil => exact ⟨['0'], hu, Or.inl rfl⟩
      | cons y t => exact absurd hu (hne y (t ++ d.rest))
    · exact ⟨u, hu, Or.inr ⟨hdigits, hzero⟩⟩

/-- What is `Whole` is passed over, and no more if no digit follows. -/
theorem skipWhole_complete (h : Whole u) (hc : c.rest = u ++ r) (hr : DigitFree r) :
    ∃ d, skipWhole c = .ok d ∧ d.rest = r := by
  rcases h with rfl | ⟨hdigits, hzero⟩
  · cases r with
    | nil =>
      obtain ⟨d, hd, hrest⟩ := someDigits_complete digits_zero hc hr
      refine ⟨d, ?_, hrest⟩
      simpa [skipWhole, hc] using hd
    | cons x r =>
      have hx : isDigit x = false := hr x (by simp)
      refine ⟨c.next, ?_, by simp [hc]⟩
      simp [skipWhole, hc, hx]
  · obtain ⟨d, hd, hrest⟩ := someDigits_complete hdigits hc hr
    refine ⟨d, ?_, hrest⟩
    obtain ⟨x, t, rfl⟩ := List.exists_cons_of_ne_nil hdigits.1
    have hx : x ≠ '0' := by simpa using hzero
    rw [skipWhole_of_ne fun y r' heq => hx (List.cons.inj (hc.symm.trans heq)).1]
    exact hd

/-- What is passed over behind it is a `Fraction`. -/
theorem skipFraction_sound (h : skipFraction c = .ok d) :
    ∃ u, c.rest = u ++ d.rest ∧ Fraction u := by
  unfold skipFraction at h
  split at h
  · rename_i r hc
    obtain ⟨u, hu, hdigits⟩ := someDigits_sound h
    refine ⟨'.' :: u, ?_, Or.inr ⟨u, rfl, hdigits⟩⟩
    have hr : r = u ++ d.rest := by simpa [hc] using hu
    rw [hc, hr, List.cons_append]
  · obtain rfl : c = d := by simpa using h
    exact ⟨[], rfl, Or.inl rfl⟩

/-- A `Fraction` is passed over, and no more if neither a digit nor a point follows. -/
theorem skipFraction_complete (h : Fraction u) (hc : c.rest = u ++ r) (hr : DigitFree r)
    (hpoint : r.head? ≠ some '.') : ∃ d, skipFraction c = .ok d ∧ d.rest = r := by
  rcases h with rfl | ⟨w, rfl, hdigits⟩
  · rw [List.nil_append] at hc
    refine ⟨c, ?_, hc⟩
    unfold skipFraction
    split
    · rename_i heq
      exact absurd (by rw [← hc, heq, List.head?_cons]) hpoint
    · rfl
  · have hc : c.rest = '.' :: (w ++ r) := hc
    have hnext : c.next.rest = w ++ r := by simp [hc]
    obtain ⟨d, hd, hrest⟩ := someDigits_complete hdigits hnext hr
    exact ⟨d, by simpa [skipFraction, hc] using hd, hrest⟩

/-- What is passed over at the end is an `Exponent`. -/
theorem skipExponent_sound (h : skipExponent c = .ok d) :
    ∃ u, c.rest = u ++ d.rest ∧ Exponent u := by
  unfold skipExponent at h
  cases hc : c.rest with
  | nil =>
    obtain rfl : c = d := by simpa [hc] using h
    exact ⟨[], by simp [hc], Or.inl rfl⟩
  | cons x r =>
    simp only [hc] at h
    split_ifs at h with hx
    · split at h
      · obtain ⟨w, hw, hdigits⟩ := someDigits_sound h
        simp only [Cursor.next_rest, hc, List.tail_cons] at hw
        exact ⟨x :: '+' :: w, by simp [hw], Or.inr ⟨x, w, hx, hdigits, by simp⟩⟩
      · obtain ⟨w, hw, hdigits⟩ := someDigits_sound h
        simp only [Cursor.next_rest, hc, List.tail_cons] at hw
        exact ⟨x :: '-' :: w, by simp [hw], Or.inr ⟨x, w, hx, hdigits, by simp⟩⟩
      · obtain ⟨w, hw, hdigits⟩ := someDigits_sound h
        simp only [Cursor.next_rest, hc, List.tail_cons] at hw
        exact ⟨x :: w, by simp [hw], Or.inr ⟨x, w, hx, hdigits, by simp⟩⟩
    · obtain rfl : c = d := by simpa using h
      exact ⟨[], by simp [hc], Or.inl rfl⟩

/-- An `Exponent` is passed over, and no more if the word ends there. -/
theorem skipExponent_complete (h : Exponent u) (hc : c.rest = u ++ r) (hr : Boundary r) :
    ∃ d, skipExponent c = .ok d ∧ d.rest = r := by
  have hfree := digitFree_of_boundary hr
  rcases h with rfl | ⟨e, w, he, hdigits, hu⟩
  · refine ⟨c, ?_, hc⟩
    have hc : c.rest = r := hc
    unfold skipExponent
    cases hr' : r with
    | nil => simp [hc, hr']
    | cons x t =>
      have hx : ¬ (x = 'e' ∨ x = 'E') := by
        rw [hr'] at hr
        rintro (rfl | rfl)
        · exact not_boundary_cons (by decide) hr
        · exact not_boundary_cons (by decide) hr
      simp [hc, hr', hx]
  · obtain ⟨y, t, rfl⟩ := List.exists_cons_of_ne_nil hdigits.1
    have hy : isDigit y = true := hdigits.2 y (by simp)
    -- a digit is no sign, so the three spellings are told apart
    have hplus : y ≠ '+' := by rintro rfl; exact absurd hy (by decide)
    have hminus : y ≠ '-' := by rintro rfl; exact absurd hy (by decide)
    rcases hu with rfl | rfl | rfl
    · obtain ⟨d, hd, hrest⟩ := someDigits_complete (c := c.next) hdigits (by simp [hc]) hfree
      exact ⟨d, by simpa [skipExponent, hc, he, hplus, hminus] using hd, hrest⟩
    · obtain ⟨d, hd, hrest⟩ := someDigits_complete (c := c.next.next) hdigits (by simp [hc]) hfree
      exact ⟨d, by simpa [skipExponent, hc, he] using hd, hrest⟩
    · obtain ⟨d, hd, hrest⟩ := someDigits_complete (c := c.next.next) hdigits (by simp [hc]) hfree
      exact ⟨d, by simpa [skipExponent, hc, he] using hd, hrest⟩

/-- What `skipNumber` passes over is an `Unsigned` number. -/
theorem skipNumber_sound (h : skipNumber c = .ok d) : ∃ u, c.rest = u ++ d.rest ∧ Unsigned u := by
  rw [skipNumber_eq] at h
  obtain ⟨e₁, h₁, h⟩ := bind_eq_ok_iff.mp h
  obtain ⟨e₂, h₂, h₃⟩ := bind_eq_ok_iff.mp h
  obtain ⟨u, hu, hwhole⟩ := skipWhole_sound h₁
  obtain ⟨v, hv, hfraction⟩ := skipFraction_sound h₂
  obtain ⟨w, hw, hexponent⟩ := skipExponent_sound h₃
  refine ⟨u ++ (v ++ w), ?_, u, v, w, rfl, hwhole, hfraction, hexponent⟩
  rw [hu, hv, hw]
  simp

/-- Behind a fraction or exponent no digit follows that could belong to what stands before it. -/
theorem digitFree_append (h : Fraction u ∨ Exponent u) (hr : DigitFree r) :
    DigitFree (u ++ r) := by
  rcases h with (rfl | ⟨w, rfl, -⟩) | rfl | ⟨e, w, he, -, hu⟩
  · exact hr
  · exact digitFree_cons (by decide)
  · exact hr
  · have hdigit : isDigit e = false := by rcases he with rfl | rfl <;> decide
    rcases hu with rfl | rfl | rfl <;> exact digitFree_cons hdigit

/-- An `Unsigned` number is passed over in front of whatever ends a word. -/
theorem skipNumber_complete (h : Unsigned l) (hc : c.rest = l ++ r) (hr : Boundary r) :
    ∃ d, skipNumber c = .ok d ∧ d.rest = r := by
  obtain ⟨u, v, w, rfl, hwhole, hfraction, hexponent⟩ := h
  rw [List.append_assoc, List.append_assoc] at hc
  have hfree : DigitFree (w ++ r) := digitFree_append (Or.inr hexponent) (digitFree_of_boundary hr)
  have hpoint : (w ++ r).head? ≠ some '.' := by
    rcases hexponent with rfl | ⟨e, t, he, -, hw⟩
    · intro hhead
      obtain ⟨s, hs⟩ := List.head?_eq_some_iff.mp hhead
      rw [List.nil_append] at hs
      exact not_boundary_cons (by decide) (hs ▸ hr)
    · rcases hw with rfl | rfl | rfl <;> rcases he with rfl | rfl <;> simp
  obtain ⟨e₁, h₁, hrest₁⟩ := skipWhole_complete hwhole hc (digitFree_append (Or.inl hfraction) hfree)
  obtain ⟨e₂, h₂, hrest₂⟩ := skipFraction_complete hfraction hrest₁ hfree hpoint
  obtain ⟨e₃, h₃, hrest₃⟩ := skipExponent_complete hexponent hrest₂ hr
  refine ⟨e₃, ?_, hrest₃⟩
  rw [skipNumber_eq]
  exact bind_eq_ok_iff.mpr ⟨e₁, h₁, bind_eq_ok_iff.mpr ⟨e₂, h₂, h₃⟩⟩

/-- The digits in front of the point are digits, also a zero. -/
theorem Whole.digits (h : Whole u) : Digits u := by
  rcases h with rfl | ⟨h, -⟩
  · exact digits_zero
  · exact h

/-- A number without a sign begins with a digit. -/
theorem Unsigned.exists_head (h : Unsigned l) : ∃ x t, l = x :: t ∧ isDigit x = true := by
  obtain ⟨u, v, w, rfl, hwhole, -, -⟩ := h
  obtain ⟨x, t, rfl⟩ := List.exists_cons_of_ne_nil hwhole.digits.1
  exact ⟨x, _, rfl, hwhole.digits.2 x (by simp)⟩

/-- Its characters are those of a word. -/
theorem Unsigned.isWordChar (h : Unsigned l) : ∀ x ∈ l, isWordChar x = true := by
  obtain ⟨u, v, w, rfl, hwhole, hfraction, hexponent⟩ := h
  have hv : ∀ x ∈ v, Json.isWordChar x = true := by
    rcases hfraction with rfl | ⟨t, rfl, ht⟩
    · simp
    · exact List.forall_mem_cons.mpr ⟨by decide, ht.isWordChar⟩
  have hw : ∀ x ∈ w, Json.isWordChar x = true := by
    rcases hexponent with rfl | ⟨e, t, he, ht, hw⟩
    · simp
    · have he : Json.isWordChar e = true := by rcases he with rfl | rfl <;> decide
      rcases hw with rfl | rfl | rfl
      · exact List.forall_mem_cons.mpr ⟨he, ht.isWordChar⟩
      · exact List.forall_mem_cons.mpr
          ⟨he, List.forall_mem_cons.mpr ⟨by decide, ht.isWordChar⟩⟩
      · exact List.forall_mem_cons.mpr
          ⟨he, List.forall_mem_cons.mpr ⟨by decide, ht.isWordChar⟩⟩
  intro x hx
  rcases List.mem_append.mp hx with hx | hx
  · exact hwhole.digits.isWordChar x hx
  rcases List.mem_append.mp hx with hx | hx
  · exact hv x hx
  · exact hw x hx

/-- So are those of a number with a sign. -/
theorem Numeral.isWordChar (h : Numeral l) : ∀ x ∈ l, isWordChar x = true := by
  rcases h with h | ⟨u, rfl, h⟩
  · exact h.isWordChar
  · exact List.forall_mem_cons.mpr ⟨by decide, h.isWordChar⟩

/-! ### Single lexemes -/

/-- The `letters` of a word are taken as they are. -/
theorem word_sound {letters : List Char} {a : Unit} (h : word letters c = .ok (a, d)) :
    c.rest = letters ++ d.rest := by
  induction letters generalizing c with
  | nil =>
    obtain ⟨-, rfl⟩ : () = a ∧ c = d := by simpa [word] using h
    rfl
  | cons x letters ih =>
    obtain ⟨hx, h⟩ := word_cons_eq_ok_iff.mp h
    obtain ⟨r, hr⟩ := List.head?_eq_some_iff.mp hx
    have hrest := ih h
    rw [Cursor.next_rest, hr, List.tail_cons] at hrest
    rw [hr, hrest, List.cons_append]

/-- The `letters` of a word are taken wherever they stand. -/
theorem word_complete {letters : List Char} (hc : c.rest = letters ++ r) :
    ∃ d, word letters c = .ok ((), d) ∧ d.rest = r := by
  induction letters generalizing c with
  | nil => exact ⟨c, rfl, hc⟩
  | cons x letters ih =>
    obtain ⟨d, hd, hrest⟩ := ih (c := c.next) (by simp [hc])
    exact ⟨d, word_cons_eq_ok_iff.mpr ⟨by simp [hc], hd⟩, hrest⟩

/-- A lexeme that is passed over as a value is a token. -/
theorem Unread.token (h : Unread l) : Token l := by
  cases h with
  | constant h =>
    have hall : ∀ l ∈ constants, l ≠ [] ∧ ∀ x ∈ l, isWordChar x = true := by
      simp only [← List.all_eq_true]
      decide
    exact .word (hall l h).1 (hall l h).2
  | numeral h =>
    refine .word ?_ h.isWordChar
    rcases h with h | ⟨u, rfl, -⟩
    · obtain ⟨x, t, rfl, -⟩ := h.exists_head
      simp
    · simp
  | literal h => exact .literal h.body

/-- The letters behind the first one of a constant. -/
theorem word_of_constant {letters : List Char} {v w : Json} (hx : c.rest.head? = some x)
    (h : (do let (_, c) ← word letters c.next; .ok (w, c)) = Except.ok (v, d)) :
    c.rest = (x :: letters) ++ d.rest := by
  obtain ⟨⟨a, e⟩, hw, hret⟩ := bind_eq_ok_iff.mp h
  obtain ⟨-, rfl⟩ : w = v ∧ e = d := by simpa using hret
  obtain ⟨r, hr⟩ := List.head?_eq_some_iff.mp hx
  have hrest := word_sound hw
  rw [Cursor.next_rest, hr, List.tail_cons] at hrest
  rw [hr, hrest, List.cons_append]

/-- A value that is neither a number nor a literal is a constant. -/
theorem exists_constant {v : Json} (h : scalar x c = .ok (v, d)) (hx : c.rest.head? = some x)
    (hminus : x ≠ '-') (hq : x ≠ '"') (hdigit : ¬ isDigit x = true) :
    ∃ l ∈ constants, c.rest = l ++ d.rest := by
  unfold scalar at h
  split at h
  · exact ⟨_, by decide, word_of_constant hx h⟩
  · exact ⟨_, by decide, word_of_constant hx h⟩
  · exact ⟨_, by decide, word_of_constant hx h⟩
  · exact absurd rfl hminus
  · exact absurd rfl hq
  · rw [if_neg hdigit] at h
    cases h

/-- What the reader passes over at once is one lexeme. -/
theorem exists_unread (h : skipScalar x c = .ok d) (hx : c.rest.head? = some x) :
    ∃ l, c.rest = l ++ d.rest ∧ Unread l := by
  obtain ⟨r, hr⟩ := List.head?_eq_some_iff.mp hx
  unfold skipScalar at h
  split at h
  · obtain ⟨u, hu, hunsigned⟩ := skipNumber_sound h
    rw [Cursor.next_rest, hr, List.tail_cons] at hu
    exact ⟨'-' :: u, by rw [hr, hu]; rfl, .numeral (Or.inr ⟨u, rfl, hunsigned⟩)⟩
  · obtain ⟨b, hb, hskimmed⟩ := skipString_sound h
    rw [Cursor.next_rest, hr, List.tail_cons] at hb
    exact ⟨'"' :: b, by rw [hr, hb]; rfl, .literal hskimmed⟩
  · rename_i hminus hq
    split_ifs at h with hdigit
    · obtain ⟨u, hu, hunsigned⟩ := skipNumber_sound h
      exact ⟨u, hu, .numeral (Or.inl hunsigned)⟩
    · obtain ⟨⟨v, e⟩, hv, hret⟩ := bind_eq_ok_iff.mp h
      obtain rfl : e = d := by simpa using hret
      obtain ⟨l, hl, hrest⟩ := exists_constant hv hx hminus hq hdigit
      exact ⟨l, hrest, .constant hl⟩

/-- One lexeme is passed over wherever it stands, if it is no word that runs on. -/
theorem Unread.skipScalar_eq_ok (h : Unread l) (hc : c.rest = l ++ r) (hr : IsWord l → Boundary r) :
    ∃ x d, c.rest.head? = some x ∧ x ∉ marks ∧ skipScalar x c = .ok d ∧ d.rest = r := by
  cases h with
  | constant h =>
    have hconstant : ∀ {y : Char} {letters : List Char}, c.rest = (y :: letters) ++ r →
        ∃ d, word letters c.next = .ok ((), d) ∧ d.rest = r :=
      fun hy => word_complete (by simp [hy])
    simp only [constants, List.mem_cons, List.not_mem_nil, or_false] at h
    rcases h with rfl | rfl | rfl
    all_goals
      obtain ⟨d, hd, hrest⟩ := hconstant hc
      refine ⟨_, d, by rw [hc]; rfl, ?_, ?_, hrest⟩
      · decide
      · exact bind_eq_ok_iff.mpr ⟨_, bind_eq_ok_iff.mpr ⟨_, hd, rfl⟩, rfl⟩
  | numeral h =>
    rcases h with h | ⟨u, rfl, h⟩
    · obtain ⟨x, t, rfl, hdigit⟩ := h.exists_head
      have hword : isWordChar x = true := isWordChar_of_isDigit hdigit
      obtain ⟨d, hd, hrest⟩ := skipNumber_complete h hc (hr ⟨x, rfl, hword⟩)
      refine ⟨x, d, by rw [hc]; rfl, not_mem_marks hword, ?_, hrest⟩
      unfold skipScalar
      split
      · exact absurd hdigit (by decide)
      · exact absurd hdigit (by decide)
      · rw [if_pos hdigit]
        exact hd
    · have hboundary : Boundary r := hr ⟨'-', rfl, by decide⟩
      obtain ⟨d, hd, hrest⟩ := skipNumber_complete (c := c.next) h (by simp [hc]) hboundary
      exact ⟨'-', d, by rw [hc]; rfl, by decide, hd, hrest⟩
  | @literal b h =>
    obtain ⟨d, hd, hrest⟩ := skipString_complete (c := c.next) h (r := r) (by simp [hc])
    exact ⟨'"', d, by rw [hc]; rfl, by decide, hd, hrest⟩

end DeclarationDocs.Json
