import DeclarationDocs.Url.Percent

namespace DeclarationDocs.Url

/-!
# Encoded texts

Encoding brings in percent signs and capital digits, none of which is encoded in any part of a URL.
So what was encoded once stays as it is.

* `Clean special s` — nothing in `s` has to be encoded;
* `clean_encode`, `Clean.encode_eq` — what was encoded is clean, and clean text is not changed;
* `Clean.lt_toNat` — a clean text has no control characters and no spaces.
-/

/-- No character of the text has to be encoded. -/
def Clean (special : Char → Bool) (s : List Char) : Prop := ∀ c ∈ s, special c = false

/-- The characters that encoding brings in. -/
def encodingChars : List Char := "%0123456789ABCDEF".toList

/-- A part of a URL: it encodes control characters and spaces, but nothing that encoding brings
    in. -/
structure Encodes (special : Char → Bool) : Prop where
  control : ∀ c, special c = false → isControl c = false
  space : special ' ' = true
  once : Clean special encodingChars

variable {special : Char → Bool} {c x : Char} {s r : List Char}

/-! ### Encoding -/

theorem mem_byteDigits {b : UInt8} (h : x ∈ byteDigits b) : x ∈ encodingChars := by
  have hdigit : ∀ d < 16, (Nat.digitChar d).toUpper ∈ encodingChars := by decide
  have hb : b.toNat < 256 := UInt8.toNat_lt b
  obtain ⟨d, hd, rfl⟩ := List.mem_map.mp h
  refine hdigit d ?_
  rcases List.mem_cons.mp hd with rfl | hd
  · omega
  · obtain rfl := List.mem_singleton.mp hd
    omega

/-- A character is encoded by percent signs and hexadecimal digits. -/
theorem mem_encodeChar (h : x ∈ encodeChar c) : x ∈ encodingChars := by
  obtain ⟨b, -, hx⟩ := List.mem_flatMap.mp h
  rcases List.mem_cons.mp hx with rfl | hx
  · decide
  · exact mem_byteDigits hx

/-- Nothing is encoded by nothing. -/
theorem encodeChar_ne_nil (c : Char) : encodeChar c ≠ [] := by
  obtain ⟨b, bs, hb⟩ := List.exists_cons_of_ne_nil (String.utf8EncodeChar_ne_nil (c := c))
  rw [encodeChar, hb, List.flatMap_cons]
  simp

/-- What stands in an encoded text stood there before, or was brought in. -/
theorem mem_encode (h : x ∈ encode special s) : x ∈ s ∧ special x = false ∨ x ∈ encodingChars := by
  obtain ⟨c, hc, hx⟩ := List.mem_flatMap.mp h
  cases hspecial : special c with
  | true =>
    rw [hspecial] at hx
    exact .inr (mem_encodeChar hx)
  | false =>
    rw [hspecial] at hx
    obtain rfl := List.mem_singleton.mp hx
    exact .inl ⟨hc, hspecial⟩

/-- A character that is not brought in is in the encoded text only if it was there before. -/
theorem notMem_encode (hx : x ∉ encodingChars) (h : x ∉ s) : x ∉ encode special s := by
  intro hmem
  rcases mem_encode hmem with ⟨hs, -⟩ | hchars
  · exact h hs
  · exact hx hchars

/-- Only the empty text is encoded by the empty text. -/
theorem encode_eq_nil_iff : encode special s = [] ↔ s = [] := by
  rw [encode, List.flatMap_eq_nil_iff]
  constructor
  · intro h
    cases s with
    | nil => rfl
    | cons c r =>
      have hc := h c List.mem_cons_self
      split at hc
      · exact absurd hc (encodeChar_ne_nil c)
      · exact absurd hc (by simp)
  · rintro rfl
    simp

/-- Clean is what a search finds nothing in. -/
theorem clean_iff_any : Clean special s ↔ s.any special = false := by
  simp only [Clean, List.any_eq_false, Bool.not_eq_true]

/-- **What was encoded is clean.** -/
theorem clean_encode (h : Encodes special) (s : List Char) : Clean special (encode special s) := by
  intro c hc
  rcases mem_encode hc with ⟨-, hspecial⟩ | hchars
  · exact hspecial
  · exact h.once c hchars

/-- **Clean text is not changed.** -/
theorem Clean.encode_eq (h : Clean special s) : encode special s = s := by
  induction s with
  | nil => rfl
  | cons c r ih =>
    obtain ⟨hc, hr⟩ := List.forall_mem_cons.mp h
    rw [encode, List.flatMap_cons, hc]
    exact congrArg (c :: ·) (ih hr)

/-- A text that is clean has no special character. -/
theorem Clean.notMem (h : Clean special s) (hx : special x = true) : x ∉ s := by
  intro hmem
  rw [h x hmem] at hx
  exact Bool.false_ne_true hx

/-- A part of it is clean as well. -/
theorem Clean.of_subset (h : Clean special s) (hr : r ⊆ s) : Clean special r :=
  fun c hc => h c (hr hc)

/-- What is neither a control character nor a space stands behind the space. -/
theorem lt_toNat_of_not_isControl (h : isControl c = false) (hspace : c ≠ ' ') :
    0x20 < c.toNat := by
  have hle : ¬ c.toNat < 0x20 := by
    intro hlt
    rw [isControl, decide_eq_true hlt] at h
    exact absurd h (by simp)
  have hne : c.toNat ≠ ' '.toNat := fun heq => hspace (Char.toNat_inj.mp heq)
  have h32 : ' '.toNat = 0x20 := rfl
  omega

/-- A clean text has no control characters and no spaces. -/
theorem Clean.lt_toNat (hs : Clean special s) (h : Encodes special) : ∀ c ∈ s, 0x20 < c.toNat := by
  intro c hc
  refine lt_toNat_of_not_isControl (h.control c (hs c hc)) ?_
  rintro rfl
  exact hs.notMem h.space hc

/-! ### The parts of a URL -/

theorem encodes_fragment : Encodes specialInFragment where
  control c hc := (Bool.or_eq_false_iff.mp hc).1
  space := by decide
  once := clean_iff_any.mpr (by decide)

theorem encodes_path : Encodes specialInPath where
  control c hc := encodes_fragment.control c (Bool.or_eq_false_iff.mp hc).1
  space := by decide
  once := clean_iff_any.mpr (by decide)

theorem encodes_user : Encodes specialInUser where
  control c hc := encodes_path.control c (Bool.or_eq_false_iff.mp hc).1
  space := by decide
  once := clean_iff_any.mpr (by decide)

theorem encodes_query : Encodes specialInQuery where
  control c hc := (Bool.or_eq_false_iff.mp hc).1
  space := by decide
  once := clean_iff_any.mpr (by decide)

end DeclarationDocs.Url
