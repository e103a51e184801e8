import DeclarationDocs.Proofs.Json.Word

namespace DeclarationDocs.Json

open Text (hexDigit?)

/-!
# Reading literals

A string literal is described character by character, escapes included, and the reader of strings
accepts exactly what is described, whatever stands behind the literal.

* `HexEscape`, `UnicodeEscape` — the four digits behind `\u`, and one or two of them;
* `Quoted b t` — `b`, up to and with the closing quote, stands for the characters `t`;
* `Accepts f P` — the reader `f` reads what `P` describes and nothing else;
* `accepts_stringAt` — the reader of strings reads what is described;
* `Quoted.body` — so the literal ends where a text is cut into lexemes.
-/

/-- Four hexadecimal digits and the number they stand for. -/
def HexEscape (u : List Char) (n : Nat) : Prop :=
  ∃ a b d e x y z w, u = [a, b, d, e] ∧ hexDigit? a = some x ∧ hexDigit? b = some y
    ∧ hexDigit? d = some z ∧ hexDigit? e = some w ∧ n = ((x * 16 + y) * 16 + z) * 16 + w

/-- What stands behind `\u` for a character: one number, or the two of a surrogate pair. -/
inductive UnicodeEscape : List Char → Char → Prop
  | one {u : List Char} {n : Nat} (h : HexEscape u n) (hlow : ¬ (0xDC00 ≤ n ∧ n ≤ 0xDFFF))
      (hhigh : ¬ (0xD800 ≤ n ∧ n ≤ 0xDBFF)) : UnicodeEscape u (Char.ofNat n)
  | pair {u v : List Char} {n m : Nat} (hu : HexEscape u n) (hhigh : 0xD800 ≤ n ∧ n ≤ 0xDBFF)
      (hv : HexEscape v m) (hlow : 0xDC00 ≤ m ∧ m ≤ 0xDFFF) :
      UnicodeEscape (u ++ '\\' :: 'u' :: v)
        (Char.ofNat (0x10000 + (n - 0xD800) * 0x400 + (m - 0xDC00)))

/-- The rest of a literal behind its opening quote, and the characters it stands for. -/
inductive Quoted : List Char → List Char → Prop
  | quote : Quoted ['"'] []
  | char {x : Char} {b t : List Char} (hq : x ≠ '"') (hs : x ≠ '\\') (hx : ¬ x.toNat < 0x20)
      (h : Quoted b t) : Quoted (x :: b) (x :: t)
  | escape {x y : Char} {b t : List Char} (hx : simpleEscape? x = some y) (h : Quoted b t) :
      Quoted ('\\' :: x :: b) (y :: t)
  | unicode {u : List Char} {y : Char} {b t : List Char} (hu : UnicodeEscape u y)
      (h : Quoted b t) : Quoted ('\\' :: 'u' :: (u ++ b)) (y :: t)

/-- The reader takes from a text exactly what is described, and leaves what follows. -/
structure Accepts {α : Type} (f : Reader α) (P : List Char → α → Prop) : Prop where
  sound {c d : Cursor} {a : α} (h : f c = .ok (a, d)) : ∃ u, c.rest = u ++ d.rest ∧ P u a
  complete {c : Cursor} {u r : List Char} {a : α} (hu : P u a) (hc : c.rest = u ++ r) :
    ∃ d, f c = .ok (a, d) ∧ d.rest = r

variable {c d : Cursor} {u b r t s acc : List Char} {x y : Char} {n fuel : Nat}

/-! ### Escapes -/

/-- Skipping `n` characters leaves `c.rest.drop n`. -/
theorem Cursor.skip_rest (n : Nat) (c : Cursor) : (c.skip n).rest = c.rest.drop n := by
  induction n generalizing c with
  | zero => rfl
  | succ n ih =>
    show (Cursor.skip n c.next).rest = _
    rw [ih, Cursor.next_rest, List.drop_tail]

/-- What `hexEscape` reads are the four digits of a `HexEscape`. -/
theorem accepts_hexEscape : Accepts hexEscape HexEscape where
  sound {c d n} h := by
    unfold hexEscape at h
    split at h
    · rename_i a b d' e r hc
      split at h
      · rename_i x y z w ha hb hd he
        obtain ⟨hn, rfl⟩ : _ ∧ c.skip 4 = d := by simpa using h
        refine ⟨[a, b, d', e], by simp [Cursor.skip_rest, hc], ?_⟩
        exact ⟨a, b, d', e, x, y, z, w, rfl, ha, hb, hd, he, hn.symm⟩
      · cases h
    · split_ifs at h
  complete {c u r n} hu hc := by
    obtain ⟨a, b, d, e, x, y, z, w, rfl, ha, hb, hd, he, rfl⟩ := hu
    have hc : c.rest = a :: b :: d :: e :: r := hc
    refine ⟨c.skip 4, ?_, by simp [Cursor.skip_rest, hc]⟩
    simp only [hexEscape, hc, ha, hb, hd, he]

/-- The mark of a second half is one character, `x`. -/
theorem pairMark_eq_ok_iff : pairMark x c = .ok d ↔ c.rest.head? = some x ∧ d = c.next := by
  unfold pairMark
  cases hc : c.rest with
  | nil => simp
  | cons y r =>
    simp only [List.head?_cons, Option.some.injEq]
    split_ifs with hxy
    · simp [hxy, eq_comm]
    · simp [Ne.symm hxy]

/-- What `unicodeEscape` reads is a `UnicodeEscape`, of one part or of two. -/
theorem accepts_unicodeEscape : Accepts unicodeEscape UnicodeEscape where
  sound {c d y} h := by
    obtain ⟨⟨n, e⟩, hn, h⟩ := bind_eq_ok_iff.mp h
    obtain ⟨u, hc, hu⟩ := accepts_hexEscape.sound hn
    simp only at h
    split_ifs at h with hlow hhigh
    · -- the second half of the pair
      obtain ⟨e₁, h₁, hback⟩ := bind_eq_ok_iff.mp h
      obtain ⟨e₂, h₂, hletter⟩ := bind_eq_ok_iff.mp hback
      obtain ⟨⟨m, e₃⟩, hm, hlast⟩ := bind_eq_ok_iff.mp hletter
      obtain ⟨hhead₁, rfl⟩ := pairMark_eq_ok_iff.mp h₁
      obtain ⟨hhead₂, rfl⟩ := pairMark_eq_ok_iff.mp h₂
      obtain ⟨v, hv, hmv⟩ := accepts_hexEscape.sound hm
      split_ifs at hlast with hpair
      obtain ⟨rfl, rfl⟩ : _ = y ∧ e₃ = d := by simpa using hlast
      refine ⟨u ++ '\\' :: 'u' :: v, ?_, .pair hu hhigh hmv hpair⟩
      obtain ⟨r, hr⟩ := List.head?_eq_some_iff.mp hhead₁
      rw [Cursor.next_rest, hr, List.tail_cons] at hhead₂
      obtain ⟨r', rfl⟩ := List.head?_eq_some_iff.mp hhead₂
      rw [Cursor.next_rest, Cursor.next_rest, hr, List.tail_cons, List.tail_cons] at hv
      simp [hc, hr, hv]
    · obtain ⟨rfl, rfl⟩ : Char.ofNat n = y ∧ e = d := by simpa using h
      exact ⟨u, hc, .one hu hlow hhigh⟩
  complete {c u r y} hu hc := by
    cases hu with
    | one h hlow hhigh =>
      obtain ⟨d, hd, hr⟩ := accepts_hexEscape.complete h hc
      refine ⟨d, bind_eq_ok_iff.mpr ⟨_, hd, ?_⟩, hr⟩
      simp only [if_neg hlow, if_neg hhigh]
    | @pair u v n m hu hhigh hv hlow =>
      rw [List.append_assoc, List.cons_append, List.cons_append] at hc
      obtain ⟨e, he, her⟩ := accepts_hexEscape.complete hu hc
      obtain ⟨d, hd, hr⟩ := accepts_hexEscape.complete hv
        (show e.next.next.rest = v ++ r by simp [her])
      -- a first half is no second half, so the reader goes on to the other escape
      have hfirst : ¬ (0xDC00 ≤ n ∧ n ≤ 0xDFFF) := by omega
      refine ⟨d, bind_eq_ok_iff.mpr ⟨_, he, ?_⟩, hr⟩
      simp only [if_neg hfirst, if_pos hhigh]
      refine bind_eq_ok_iff.mpr ⟨e.next, pairMark_eq_ok_iff.mpr ⟨by simp [her], rfl⟩, ?_⟩
      refine bind_eq_ok_iff.mpr ⟨e.next.next, pairMark_eq_ok_iff.mpr ⟨by simp [her], rfl⟩, ?_⟩
      refine bind_eq_ok_iff.mpr ⟨_, hd, ?_⟩
      simp only [if_pos hlow]

/-! ### Characters and closing quote -/

theorem simpleEscape?_u : simpleEscape? 'u' = none := by decide

/-- A quote ends a literal. -/
theorem stringTail_of_quote (hc : c.rest = '"' :: r) :
    stringTail true (fuel + 1) acc c = .ok (acc.reverse, c.next) := by
  simp [stringTail, hc]

/-- Behind `\u` the escape is read, and then the rest of the literal. -/
theorem stringTail_of_unicode (hc : c.rest = '\\' :: 'u' :: r) :
    stringTail true (fuel + 1) acc c = (do
      let (x, c) ← unicodeEscape c.next.next
      stringTail true fuel (x :: acc) c) := by
  simp [stringTail, hc]

/-- Behind another backslash a simple escape is read, or there is a fault. -/
theorem stringTail_of_escape (hc : c.rest = '\\' :: x :: r) (hx : x ≠ 'u') :
    stringTail true (fuel + 1) acc c = match simpleEscape? x with
      | some y => stringTail true fuel (y :: acc) c.next.next
      | none => .error (c.next.faultAfter .invalidEscape) := by
  cases hy : simpleEscape? x <;> simp [stringTail, hc, hy]

/-- Any other character stands for itself unless it is a control character. -/
theorem stringTail_of_char (hc : c.rest = x :: r) (hq : x ≠ '"') (hs : x ≠ '\\') :
    stringTail true (fuel + 1) acc c = if x.toNat < 0x20 then
        .error (c.faultAfter .controlCharacter)
      else stringTail true fuel (x :: acc) c.next := by
  simp [stringTail, hc]

/-! ### Literals -/

/-- What the reader of strings accepts is described. -/
theorem exists_quoted (h : stringTail true fuel acc c = .ok (s, d)) :
    ∃ b t, c.rest = b ++ d.rest ∧ Quoted b t ∧ s = acc.reverse ++ t := by
  induction fuel generalizing acc c with
  | zero => cases h
  | succ fuel ih =>
    cases hc : c.rest with
    | nil => simp [stringTail, hc] at h
    | cons x r =>
      by_cases hq : x = '"'
      · subst hq
        rw [stringTail_of_quote hc] at h
        obtain ⟨rfl, rfl⟩ : acc.reverse = s ∧ c.next = d := by simpa using h
        exact ⟨['"'], [], by simp [hc], .quote, by simp⟩
      by_cases hs : x = '\\'
      · subst hs
        cases r with
        | nil => simp [stringTail, hc] at h
        | cons y r =>
          by_cases hu : y = 'u'
          · subst hu
            rw [stringTail_of_unicode hc] at h
            obtain ⟨⟨z, e⟩, hz, h⟩ := bind_eq_ok_iff.mp h
            obtain ⟨u, hrest, hu⟩ := accepts_unicodeEscape.sound hz
            obtain ⟨b, t, hb, hquoted, rfl⟩ := ih h
            have hr : r = u ++ e.rest := by simpa [hc] using hrest
            refine ⟨_, _, ?_, .unicode hu hquoted, by simp⟩
            simp [hr, hb]
          · rw [stringTail_of_escape hc hu] at h
            cases hy : simpleEscape? y with
            | none => simp [hy] at h
            | some z =>
              rw [hy] at h
              obtain ⟨b, t, hb, hquoted, rfl⟩ := ih h
              have hr : r = b ++ d.rest := by simpa [hc] using hb
              exact ⟨_, _, by simp [hr], .escape hy hquoted, by simp⟩
      · rw [stringTail_of_char hc hq hs] at h
        split_ifs at h with hcontrol
        obtain ⟨b, t, hb, hquoted, rfl⟩ := ih h
        have hr : r = b ++ d.rest := by simpa [hc] using hb
        exact ⟨_, _, by simp [hr], .char hq hs hcontrol hquoted, by simp⟩

/-- What is described is read, with fuel for each of its characters. -/
theorem stringTail_of_quoted (h : Quoted b t) (hc : c.rest = b ++ r) (n : Nat) :
    ∃ d, stringTail true (b.length + n) acc c = .ok (acc.reverse ++ t, d) ∧ d.rest = r := by
  induction h generalizing acc c n with
  | quote =>
    have hc : c.rest = '"' :: r := hc
    have hfuel : ['"'].length + n = n + 1 := by rw [List.length_singleton, Nat.add_comm]
    exact ⟨c.next, by rw [hfuel, stringTail_of_quote hc, List.append_nil], by simp [hc]⟩
  | @char x b t hq hs hx _ ih =>
    have hc : c.rest = x :: (b ++ r) := hc
    have hfuel : (x :: b).length + n = b.length + n + 1 := by rw [List.length_cons]; omega
    have hnext : c.next.rest = b ++ r := by simp [hc]
    obtain ⟨d, hd, hr⟩ : ∃ d, stringTail true (b.length + n) (x :: acc) c.next
        = .ok ((x :: acc).reverse ++ t, d) ∧ d.rest = r := ih hnext n
    exact ⟨d, by rw [hfuel, stringTail_of_char hc hq hs, if_neg hx, hd]; simp, hr⟩
  | @escape x y b t hx _ ih =>
    have hc : c.rest = '\\' :: x :: (b ++ r) := hc
    have hfuel : ('\\' :: x :: b).length + n = b.length + (n + 1) + 1 := by
      rw [List.length_cons, List.length_cons]
      omega
    have hu : x ≠ 'u' := by
      rintro rfl
      rw [simpleEscape?_u] at hx
      cases hx
    have hnext : c.next.next.rest = b ++ r := by simp [hc]
    obtain ⟨d, hd, hr⟩ : ∃ d, stringTail true (b.length + (n + 1)) (y :: acc) c.next.next
        = .ok ((y :: acc).reverse ++ t, d) ∧ d.rest = r := ih hnext (n + 1)
    exact ⟨d, by rw [hfuel, stringTail_of_escape hc hu, hx]; simpa using hd, hr⟩
  | @unicode u y b t hu _ ih =>
    have hc : c.rest = '\\' :: 'u' :: (u ++ (b ++ r)) := by simpa using hc
    have hfuel : ('\\' :: 'u' :: (u ++ b)).length + n = b.length + (u.length + n + 1) + 1 := by
      rw [List.length_cons, List.length_cons, List.length_append]
      omega
    have hnext : c.next.next.rest = u ++ (b ++ r) := by simp [hc]
    obtain ⟨e, he, her⟩ := accepts_unicodeEscape.complete hu hnext
    obtain ⟨d, hd, hr⟩ : ∃ d, stringTail true (b.length + (u.length + n + 1)) (y :: acc) e
        = .ok ((y :: acc).reverse ++ t, d) ∧ d.rest = r := ih her (u.length + n + 1)
    refine ⟨d, ?_, hr⟩
    rw [hfuel, stringTail_of_unicode hc]
    exact bind_eq_ok_iff.mpr ⟨(y, e), he, by simpa using hd⟩

/-- **Strings are read as they are described.** -/
theorem accepts_stringAt :
    Accepts stringAt fun b k => ∃ t, Quoted b t ∧ k = String.ofList t where
  sound {c d k} h := by
    obtain ⟨⟨s, e⟩, hs, hret⟩ := bind_eq_ok_iff.mp h
    obtain ⟨rfl, rfl⟩ : String.ofList s = k ∧ e = d := by simpa using hret
    obtain ⟨b, t, hc, hquoted, hst⟩ := exists_quoted hs
    exact ⟨b, hc, t, hquoted, by rw [hst, List.reverse_nil, List.nil_append]⟩
  complete {c b r k} hb hc := by
    obtain ⟨t, hquoted, rfl⟩ := hb
    have hfuel : c.rest.length + 1 = b.length + (r.length + 1) := by
      rw [hc, List.length_append]
      omega
    obtain ⟨d, hd, hr⟩ : ∃ d, stringTail true (b.length + (r.length + 1)) [] c
        = .ok ([].reverse ++ t, d) ∧ d.rest = r := stringTail_of_quoted hquoted hc (r.length + 1)
    rw [← hfuel] at hd
    exact ⟨d, bind_eq_ok_iff.mpr ⟨_, hd, by simp⟩, hr⟩

/-! ### Literals as lexemes -/

/-- A hexadecimal digit is neither a quote nor a backslash. -/
theorem hexDigit?_ne (h : hexDigit? x = some n) : x ≠ '"' ∧ x ≠ '\\' := by
  have hquote : hexDigit? '"' = none := by decide
  have hslash : hexDigit? '\\' = none := by decide
  constructor
  · rintro rfl
    rw [hquote] at h
    cases h
  · rintro rfl
    rw [hslash] at h
    cases h

/-- Hexadecimal digits may stand anywhere in a literal. -/
theorem HexEscape.body (h : HexEscape u n) (hb : Body b) : Body (u ++ b) := by
  obtain ⟨a, b', d, e, x, y, z, w, rfl, ha, hb', hd, he, -⟩ := h
  exact .char (hexDigit?_ne ha).1 (hexDigit?_ne ha).2 <|
    .char (hexDigit?_ne hb').1 (hexDigit?_ne hb').2 <|
    .char (hexDigit?_ne hd).1 (hexDigit?_ne hd).2 <|
    .char (hexDigit?_ne he).1 (hexDigit?_ne he).2 hb

/-- An escape in front of the rest of a literal is part of it. -/
theorem UnicodeEscape.body (h : UnicodeEscape u y) (hb : Body b) : Body (u ++ b) := by
  cases h with
  | one h _ _ => exact h.body hb
  | pair hu _ hv _ =>
    rw [List.append_assoc]
    exact hu.body (.escape 'u' (hv.body hb))

/-- What is described is a closed literal. -/
theorem Quoted.body (h : Quoted b t) : Body b := by
  induction h with
  | quote => exact .quote
  | char hq hs _ _ ih => exact .char hq hs ih
  | escape _ _ ih => exact .escape _ ih
  | unicode hu _ ih => exact .escape 'u' (hu.body ih)

end DeclarationDocs.Json
