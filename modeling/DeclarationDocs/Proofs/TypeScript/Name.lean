import DeclarationDocs.TypeScript.Lexeme
import Mathlib.Data.List.TakeWhile

namespace DeclarationDocs.TypeScript

/-!
# Names in a source text

A name is read up to the first character that cannot go on with it.  So it is read alike in front
of whatever cannot go on with it, and it never holds a mark that means something in a path.

* `IsName n` — the description of names, which may hold escaped characters;
* `nameHere?_eq_some` — what is read as a name is one, and stands at the head of the text;
* `IsName.nameHere?_append` — a name is read whole in front of a text that `Stops` it;
* `IsName.ne_nil`, `IsName.safe` — a name is not empty, and holds no slash, dot or NUL.
-/

variable {s r n e : List Char} {c : Char} {k : Nat}

/-! ### The description -/

/-- An escaped character of a name. -/
inductive Escaped : List Char → Prop
  | braces {ds : List Char} (hne : ds ≠ []) (hds : ∀ c ∈ ds, isHex c = true) :
      Escaped ('\\' :: 'u' :: '\x7b' :: (ds ++ ['\x7d']))
  | digits {a b c d : Char} (hds : ∀ x ∈ [a, b, c, d], isHex x = true) :
      Escaped ['\\', 'u', a, b, c, d]

/-- What may follow the start of a name. -/
inductive NameRest : List Char → Prop
  | nil : NameRest []
  | char {c : Char} {n : List Char} (hc : isNamePart c = true) (h : NameRest n) : NameRest (c :: n)
  | escaped {e n : List Char} (he : Escaped e) (h : NameRest n) : NameRest (e ++ n)

/-- The names of the language. -/
inductive IsName : List Char → Prop
  | char {c : Char} {n : List Char} (hc : isNameStart c = true) (h : NameRest n) : IsName (c :: n)
  | escaped {e n : List Char} (he : Escaped e) (h : NameRest n) : IsName (e ++ n)

/-- A text that does not go on with a name in front of it. -/
def Stops (r : List Char) : Prop := ∀ c ∈ r.head?, isNamePart c = false ∧ c ≠ '\\'

/-- Of a text in front of which a name ends only the first character matters. -/
@[simp] theorem stops_cons : Stops (c :: r) ↔ isNamePart c = false ∧ c ≠ '\\' := by simp [Stops]

/-! ### Escaped characters -/

/-- An escaped character begins with a backslash. -/
theorem Escaped.head (h : Escaped e) : ∃ t, e = '\\' :: t := by
  cases h with
  | braces => exact ⟨_, rfl⟩
  | digits => exact ⟨_, rfl⟩

theorem not_isHex_brace : isHex '\x7d' = false := by decide

/-- An escaped character is measured alike in front of every text. -/
theorem Escaped.escapeLength_append (h : Escaped e) (r : List Char) :
    escapeLength (e ++ r) = e.length := by
  cases h with
  | @braces ds hne hds =>
    have htake : (ds ++ '\x7d' :: r).takeWhile isHex = ds := by
      rw [List.takeWhile_append_of_pos hds, List.takeWhile_cons_of_neg (by simp [not_isHex_brace]),
        List.append_nil]
    obtain ⟨d, ds', rfl⟩ := List.exists_cons_of_ne_nil hne
    have htext : '\\' :: 'u' :: '\x7b' :: (d :: ds' ++ ['\x7d']) ++ r =
        '\\' :: 'u' :: '\x7b' :: (d :: ds' ++ '\x7d' :: r) := by simp
    rw [htext, escapeLength, htake]
    simp
  | @digits a b c d hds =>
    have hall : [a, b, c, d].all isHex = true := List.all_eq_true.mpr hds
    have hopen : a ≠ '\x7b' := by
      rintro rfl
      exact absurd (hds '\x7b' (by simp)) (by decide)
    show escapeLength ('\\' :: 'u' :: a :: b :: c :: d :: r) = 6
    rw [escapeLength, if_pos hall]
    simpa using hopen

/-- What is measured is an escaped character. -/
theorem exists_escaped (h : escapeLength s ≠ 0) :
    ∃ e r, Escaped e ∧ s = e ++ r ∧ escapeLength s = e.length := by
  unfold escapeLength at h
  split at h
  · rename_i t
    simp only at h
    split at h
    · rename_i d ds rest hds hrest
      -- the brace behind the digits is what was measured last
      obtain ⟨u, hu⟩ := List.takeWhile_prefix (l := t) isHex
      have hdrop : u = '\x7d' :: rest := by
        have hbehind := congrArg (List.drop (t.takeWhile isHex).length) hu
        rw [List.drop_left, hrest] at hbehind
        exact hbehind
      have hescaped : Escaped ('\\' :: 'u' :: '\x7b' :: (t.takeWhile isHex ++ ['\x7d'])) :=
        .braces (by simp [hds]) fun c hc => List.mem_takeWhile_imp hc
      have htext : '\\' :: 'u' :: '\x7b' :: t =
          '\\' :: 'u' :: '\x7b' :: (t.takeWhile isHex ++ ['\x7d']) ++ rest := by
        rw [hdrop] at hu
        simp [hu]
      exact ⟨_, rest, hescaped, htext, by rw [htext, hescaped.escapeLength_append]⟩
    · exact absurd rfl h
  · split at h
    · rename_i a b c d r hopen hall
      have hescaped : Escaped ['\\', 'u', a, b, c, d] := .digits (List.all_eq_true.mp hall)
      exact ⟨_, r, hescaped, rfl, hescaped.escapeLength_append r⟩
    · exact absurd rfl h
  · exact absurd rfl h

/-! ### Reading -/

/-- The characters that belong to an escaped one are read as they are. -/
theorem nameTail_append_length (e r : List Char) :
    nameTail e.length (e ++ r) = (e ++ (nameTail 0 r).1, (nameTail 0 r).2) := by
  induction e with
  | nil => rfl
  | cons c e ih => rw [List.length_cons, List.cons_append, nameTail, ih]; rfl

/-- A character of a name is taken by `nameTail`. -/
theorem nameTail_isNamePart (hc : isNamePart c = true) :
    nameTail 0 (c :: r) = (c :: (nameTail 0 r).1, (nameTail 0 r).2) := by
  rw [nameTail, if_pos hc]

/-- An escaped character `e` is taken by `nameTail`, whole. -/
theorem nameTail_escaped (he : Escaped e) :
    nameTail 0 (e ++ r) = (e ++ (nameTail 0 r).1, (nameTail 0 r).2) := by
  obtain ⟨t, rfl⟩ := he.head
  have hlength : escapeLength ('\\' :: (t ++ r)) = t.length + 1 := he.escapeLength_append r
  rw [List.cons_append, nameTail, if_neg (by decide), hlength]
  simp only [nameTail_append_length, List.cons_append]

/-- Nothing more is taken where the name ends: `nameTail 0 r = ([], r)`. -/
theorem nameTail_stops (hr : Stops r) : nameTail 0 r = ([], r) := by
  cases r with
  | nil => rfl
  | cons c r =>
    obtain ⟨hc, hslash⟩ := stops_cons.mp hr
    have hlength : escapeLength (c :: r) = 0 := by
      by_contra hne
      obtain ⟨e, t, he, heq, -⟩ := exists_escaped hne
      obtain ⟨u, rfl⟩ := he.head
      exact hslash (List.cons.inj heq).1
    rw [nameTail, if_neg (by simp [hc]), hlength]

/-- **Reading on.**  What follows the start of a name is read whole in front of what stops it. -/
theorem NameRest.nameTail_append (h : NameRest n) (hr : Stops r) :
    nameTail 0 (n ++ r) = (n, r) := by
  induction h with
  | nil => exact nameTail_stops hr
  | char hc _ ih => rw [List.cons_append, nameTail_isNamePart hc, ih]
  | escaped he _ ih => rw [List.append_assoc, nameTail_escaped he, ih]

/-- What is read on is what may follow the start of a name. -/
theorem nameTail_spec (s : List Char) :
    NameRest (nameTail 0 s).1 ∧ s = (nameTail 0 s).1 ++ (nameTail 0 s).2 := by
  induction hlen : s.length using Nat.strong_induction_on generalizing s with
  | _ len ih =>
    cases s with
    | nil => exact ⟨.nil, rfl⟩
    | cons c r =>
      by_cases hc : isNamePart c = true
      · obtain ⟨hrest, hsplit⟩ := ih r.length (by simp [← hlen]) r rfl
        rw [nameTail_isNamePart hc]
        exact ⟨.char hc hrest, congrArg (c :: ·) hsplit⟩
      · by_cases hlength : escapeLength (c :: r) = 0
        · rw [nameTail, if_neg hc, hlength]
          exact ⟨.nil, rfl⟩
        · obtain ⟨e, t, he, heq, -⟩ := exists_escaped hlength
          have hshort : t.length < len := by
            obtain ⟨u, rfl⟩ := he.head
            rw [← hlen, heq]
            simp only [List.length_append, List.length_cons]
            omega
          obtain ⟨hrest, hsplit⟩ := ih t.length hshort t rfl
          rw [heq, nameTail_escaped he]
          refine ⟨.escaped he hrest, ?_⟩
          show e ++ t = e ++ (nameTail 0 t).1 ++ (nameTail 0 t).2
          rw [List.append_assoc, ← hsplit]

/-! ### Names -/

/-- What a name may start with it may also hold. -/
theorem isNamePart_of_isNameStart (hc : isNameStart c = true) : isNamePart c = true := by
  unfold isNameStart at hc
  rw [Bool.and_eq_true] at hc
  exact hc.1

/-- **Reading a name.**  A name is read whole in front of what stops it. -/
theorem IsName.nameHere?_append (h : IsName n) (hr : Stops r) :
    nameHere? (n ++ r) = some (n, r) := by
  cases h with
  | @char c n hc h =>
    have hread := (NameRest.char (isNamePart_of_isNameStart hc) h).nameTail_append hr
    rw [List.cons_append] at hread ⊢
    rw [nameHere?, hc, Bool.true_or, if_pos rfl, hread]
  | @escaped e n he h =>
    have hread := (NameRest.escaped he h).nameTail_append hr
    have hlength := he.escapeLength_append (n ++ r)
    obtain ⟨t, rfl⟩ := he.head
    rw [List.append_assoc, List.cons_append] at hread ⊢
    rw [List.cons_append] at hlength
    rw [nameHere?, hlength, if_pos (by simp), hread]

/-- **What is read as a name** is one, and stands at the head of the text. -/
theorem nameHere?_eq_some (h : nameHere? s = some (n, r)) : IsName n ∧ s = n ++ r := by
  cases s with
  | nil => exact absurd h (by simp [nameHere?])
  | cons c t =>
    rw [nameHere?] at h
    split at h
    · rename_i hstart
      have hread := Option.some.inj h
      obtain ⟨hrest, hsplit⟩ := nameTail_spec (c :: t)
      rw [hread] at hrest hsplit
      refine ⟨?_, hsplit⟩
      rcases Bool.or_eq_true _ _ ▸ hstart with hc | hlength
      · -- the first character is an ordinary one
        obtain ⟨hrest', -⟩ := nameTail_spec t
        rw [nameTail_isNamePart (isNamePart_of_isNameStart hc)] at hread
        rw [← (Prod.mk.inj hread).1]
        exact .char hc hrest'
      · obtain ⟨e, u, he, heq, -⟩ := exists_escaped (by simpa using hlength)
        obtain ⟨hrest', -⟩ := nameTail_spec u
        rw [heq, nameTail_escaped he] at hread
        rw [← (Prod.mk.inj hread).1]
        exact .escaped he hrest'
    · exact absurd h (by simp)

/-- A text is a name if it is read as one whole. -/
theorem isName_of_nameHere? (h : nameHere? n = some (n, r)) : IsName n := (nameHere?_eq_some h).1

/-- A name starts with a letter or with an escaped character. -/
theorem IsName.exists_head (h : IsName n) :
    ∃ c t, n = c :: t ∧ (isNameStart c = true ∨ c = '\\') := by
  cases h with
  | char hc => exact ⟨_, _, rfl, .inl hc⟩
  | escaped he =>
    obtain ⟨t, rfl⟩ := he.head
    exact ⟨_, _, rfl, .inr rfl⟩

/-- A name is not empty. -/
theorem IsName.ne_nil (h : IsName n) : n ≠ [] := by
  obtain ⟨c, t, rfl, -⟩ := h.exists_head
  simp

/-! ### Characters that names do not hold -/

/-- A character that means nothing in a path. -/
def Safe (c : Char) : Prop := c ≠ '/' ∧ c ≠ '.' ∧ c ≠ '\x00'

/-- No character of a name is a slash, a dot or NUL. -/
theorem safe_of_isNamePart (hc : isNamePart c = true) : Safe c := by
  refine ⟨?_, ?_, ?_⟩
  all_goals
    rintro rfl
    exact absurd hc (by decide)

/-- No hexadecimal digit is one of them. -/
theorem safe_of_isHex (hc : isHex c = true) : Safe c := by
  refine ⟨?_, ?_, ?_⟩
  all_goals
    rintro rfl
    exact absurd hc (by decide)

/-- An escaped character is spelled without them. -/
theorem Escaped.safe (h : Escaped e) : ∀ c ∈ e, Safe c := by
  have hmarks : Safe '\\' ∧ Safe 'u' ∧ Safe '\x7b' ∧ Safe '\x7d' := by
    unfold Safe
    decide
  intro c hc
  cases h with
  | braces hne hds =>
    simp only [List.mem_cons, List.mem_append, List.not_mem_nil, or_false] at hc
    rcases hc with rfl | rfl | rfl | hc | rfl
    · exact hmarks.1
    · exact hmarks.2.1
    · exact hmarks.2.2.1
    · exact safe_of_isHex (hds c hc)
    · exact hmarks.2.2.2
  | digits hds =>
    rcases List.mem_cons.mp hc with rfl | hc
    · exact hmarks.1
    · rcases List.mem_cons.mp hc with rfl | hc
      · exact hmarks.2.1
      · exact safe_of_isHex (hds c hc)

/-- What goes on with a name is spelled without them. -/
theorem NameRest.safe (h : NameRest n) : ∀ c ∈ n, Safe c := by
  induction h with
  | nil => simp
  | char hc _ ih => exact List.forall_mem_cons.mpr ⟨safe_of_isNamePart hc, ih⟩
  | escaped he _ ih => exact List.forall_mem_append.mpr ⟨he.safe, ih⟩

/-- A name holds no slash, dot or NUL. -/
theorem IsName.safe (h : IsName n) : ∀ c ∈ n, Safe c := by
  cases h with
  | char hc h =>
    exact List.forall_mem_cons.mpr ⟨safe_of_isNamePart (isNamePart_of_isNameStart hc), h.safe⟩
  | escaped he h => exact List.forall_mem_append.mpr ⟨he.safe, h.safe⟩

end DeclarationDocs.TypeScript
