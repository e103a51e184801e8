import DeclarationDocs.Text.Digits
import DeclarationDocs.Text.Search
import Mathlib.Data.List.Basic
import Mathlib.Data.List.Induction

namespace DeclarationDocs.Text

/-!
# Digits and letters

A number that is written in digits is read back from them, and a text in small letters stays as it
is when capitals are made small.  Lower case beyond ASCII makes no difference to an ending in ASCII.

* `numberIn?_toDigits`, `valueOfDigits_toDigits` — the readers of digits;
* `numberIn?_lt` — few digits make small numbers;
* `notMem_lowerAscii` — what small letters are made of;
* `Lowered s l` — `l` is the text `s` in lower case, in ASCII and beyond; `Lowered.ending_iff` — an
  ending of `l` is an ending of `s` in ASCII.
-/

variable {base n d : Nat} {s l a b e stem : List Char} {x : Char}

/-! ### Characters by number -/

/-- The digits are the characters from 48 to 57. -/
theorem isDigit_iff : isDigit x = true ↔ 48 ≤ x.toNat ∧ x.toNat ≤ 57 := by
  simp only [isDigit, Bool.and_eq_true, decide_eq_true_eq, Char.le_def, UInt32.le_iff_toNat_le]
  rfl

/-- A digit is a character of one of three rows. -/
theorem toNat_of_hexDigit? (h : (hexDigit? x).isSome = true) :
    48 ≤ x.toNat ∧ x.toNat ≤ 57 ∨ 97 ≤ x.toNat ∧ x.toNat ≤ 102 ∨
      65 ≤ x.toNat ∧ x.toNat ≤ 70 := by
  unfold hexDigit? at h
  simp only [Char.le_def, UInt32.le_iff_toNat_le] at h
  split at h
  · rename_i hx
    exact .inl hx
  · split at h
    · rename_i hx
      exact .inr (.inl hx)
    · split at h
      · rename_i hx
        exact .inr (.inr hx)
      · exact absurd h (by simp)

/-! ### Writing numbers -/

/-- What a number is written with are digits. -/
theorem isDigit_of_mem_toDigits (h : x ∈ Nat.toDigits 10 n) : isDigit x = true := by
  have hx : x.isDigit = true := Nat.isDigit_of_mem_toDigits (by decide) (by decide) h
  simp only [Char.isDigit, Bool.and_eq_true, decide_eq_true_eq] at hx
  simp only [isDigit, Bool.and_eq_true, decide_eq_true_eq]
  exact hx

/-- Only zero begins with a zero. -/
theorem head?_toDigits_ne (hn : 0 < n) : (Nat.toDigits 10 n).head? ≠ some '0' := by
  induction n using Nat.strongRecOn with
  | ind n ih =>
    rcases Nat.lt_or_ge n 10 with hlt | hge
    · rw [Nat.toDigits_of_lt_base hlt, List.head?_cons, ne_eq, Option.some.injEq,
        Nat.digitChar_eq_zero]
      omega
    · rw [Nat.toDigits_of_base_le (by decide) hge, List.head?_append_of_ne_nil]
      · exact ih (n / 10) (by omega) (by omega)
      · exact Nat.toDigits_ne_nil

/-! ### Reading numbers -/

theorem hexDigit?_digitChar : ∀ n < 16, hexDigit? (Nat.digitChar n) = some n := by decide

/-- What is written in a base of sixteen at most are digits. -/
theorem isSome_of_mem_toDigits (hbase : 1 < base) (h16 : base ≤ 16) (h : x ∈ Nat.toDigits base n) :
    (hexDigit? x).isSome = true := by
  induction n using Nat.strongRecOn with
  | ind n ih =>
    have hmod : n % base < base := Nat.mod_lt _ (by omega)
    rw [Nat.toDigits_eq_if hbase] at h
    split at h
    · obtain rfl := List.mem_singleton.mp h
      rw [hexDigit?_digitChar n (by omega)]
      rfl
    · rename_i hge
      rcases List.mem_append.mp h with h | h
      · exact ih (n / base) (Nat.div_lt_self (by omega) hbase) h
      · obtain rfl := List.mem_singleton.mp h
        rw [hexDigit?_digitChar _ (by omega)]
        rfl

/-- One more digit. -/
theorem numberIn?_concat (base : Nat) (s : List Char) (x : Char) :
    numberIn? base (s ++ [x]) = (numberIn? base s).bind fun n =>
      (hexDigit? x).bind fun d => if d < base then some (n * base + d) else none := by
  unfold numberIn?
  rw [List.foldlM_append]
  simp only [List.foldlM_cons, List.foldlM_nil]
  refine congrArg _ (funext fun n => ?_)
  cases hexDigit? x with
  | none => rfl
  | some d =>
    show (if d < base then some (n * base + d) else none) >>= pure =
      if d < base then some (n * base + d) else none
    split <;> rfl

/-- **Digits make the number that they were written for.** -/
theorem numberIn?_toDigits (hbase : 1 < base) (h16 : base ≤ 16) (n : Nat) :
    numberIn? base (Nat.toDigits base n) = some n := by
  induction n using Nat.strongRecOn with
  | ind n ih =>
    have hmod : n % base < base := Nat.mod_lt _ (by omega)
    rw [Nat.toDigits_eq_if hbase]
    split
    · rename_i hlt
      rw [← List.nil_append [Nat.digitChar n], numberIn?_concat, hexDigit?_digitChar n (by omega)]
      show (if n < base then some (0 * base + n) else none) = some n
      rw [if_pos hlt, Nat.zero_mul, Nat.zero_add]
    · rename_i hge
      rw [numberIn?_concat, ih (n / base) (Nat.div_lt_self (by omega) hbase),
        hexDigit?_digitChar _ (by omega)]
      show (if n % base < base then some (n / base * base + n % base) else none) = some n
      rw [if_pos hmod, Nat.div_add_mod']

/-- **Few digits make small numbers.** -/
theorem numberIn?_lt (h : numberIn? base s = some n) : n < Nat.pow base s.length := by
  induction s using List.reverseRecOn generalizing n with
  | nil =>
    obtain rfl : 0 = n := Option.some.inj h
    simp
  | append_singleton s x ih =>
    rw [numberIn?_concat] at h
    obtain ⟨m, hm, h⟩ := Option.bind_eq_some_iff.mp h
    obtain ⟨d, -, h⟩ := Option.bind_eq_some_iff.mp h
    split at h
    · rename_i hd
      obtain rfl := Option.some.inj h
      have hm : m + 1 ≤ Nat.pow base s.length := ih hm
      rw [List.length_append, List.length_singleton]
      calc m * base + d < m * base + base := Nat.add_lt_add_left hd _
        _ = (m + 1) * base := (Nat.succ_mul m base).symm
        _ ≤ Nat.pow base s.length * base := Nat.mul_le_mul_right base hm
    · exact absurd h (by simp)

/-- The digits of a number have its value. -/
theorem valueOfDigits_toDigits (n : Nat) : valueOfDigits (Nat.toDigits 10 n) = n := by
  have hfold : ∀ (s : List Char) (m : Nat),
      s.foldl (fun n x => n * 10 + digitValue x) m = Nat.ofDigitChars 10 s m := by
    intro s m
    rw [Nat.ofDigitChars_eq_foldl]
    simp only [digitValue, Nat.mul_comm]
  rw [valueOfDigits, hfold, Nat.ofDigitChars_ten_toDigits]

/-! ### Small letters -/

/-- What is no letter is not made from one. -/
theorem eq_of_toLower_eq {c x : Char} (hx : x.toNat < 97 ∨ 122 < x.toNat) (h : c.toLower = x) :
    c = x := by
  have hnat := toNat_toLower c
  rw [h] at hnat
  split at hnat
  · omega
  · exact (Char.toNat_inj.mp hnat).symm

/-- Lower case brings in nothing but letters. -/
theorem notMem_lowerAscii {x : Char} {s : List Char} (hx : x.toNat < 97 ∨ 122 < x.toNat)
    (h : x ∉ s) : x ∉ lowerAscii s := by
  intro hmem
  obtain ⟨c, hc, hlower⟩ := List.mem_map.mp hmem
  obtain rfl := eq_of_toLower_eq hx hlower
  exact h hc

/-- Below the capitals nothing is changed by `toLower`. -/
theorem toLower_of_lt {c : Char} (hc : c.toNat < 65) : c.toLower = c := by
  have hnat := toNat_toLower c
  rw [if_neg (by omega)] at hnat
  exact Char.toNat_inj.mp hnat

/-! ### Lower case beyond ASCII -/

/-- The text `l` is `s` in lower case.  In ASCII the capitals become small.  Every other character
    becomes some characters, which may depend on where it stands; only two of them become any in
    ASCII, the capital I with a dot (an `i` with a mark) and the Kelvin sign (a `k`). -/
inductive Lowered : List Char → List Char → Prop
  | nil : Lowered [] []
  | ascii {c : Char} {s l : List Char} (hc : c.toNat < 128) (h : Lowered s l) :
      Lowered (c :: s) (c.toLower :: l)
  | beyond {c : Char} {piece s l : List Char} (hc : 128 ≤ c.toNat) (hne : piece ≠ [])
      (hpiece : ∀ x ∈ piece, x = 'i' ∨ x = 'k' ∨ 128 ≤ x.toNat) (h : Lowered s l) :
      Lowered (c :: s) (piece ++ l)

/-- A character that lower case makes of itself and of its capital only. -/
def Plain (x : Char) : Prop := x.toNat < 128 ∧ x ≠ 'i' ∧ x ≠ 'k'

/-- A character beyond ASCII may stay as it is. -/
theorem Lowered.cons_toLower (c : Char) (h : Lowered s l) : Lowered (c :: s) (c.toLower :: l) := by
  by_cases hc : c.toNat < 128
  · exact .ascii hc h
  · have hself : c.toLower = c := by
      have hnat := toNat_toLower c
      rw [if_neg (by omega)] at hnat
      exact Char.toNat_inj.mp hnat
    have hbeyond : 128 ≤ c.toNat := by omega
    rw [hself]
    show Lowered (c :: s) ([c] ++ l)
    exact .beyond hbeyond (by simp) (by simp [hbeyond]) h

/-- Making ASCII capitals small is a way to lower a text. -/
theorem lowered_lowerAscii (s : List Char) : Lowered s (lowerAscii s) := by
  induction s with
  | nil => exact .nil
  | cons c s ih => exact ih.cons_toLower c

namespace Lowered

/-- Only the empty text is lowered to the empty text. -/
theorem eq_nil_iff (h : Lowered s l) : l = [] ↔ s = [] := by
  cases h with
  | nil => simp
  | ascii hc h => simp
  | beyond hc hne hpiece h => simp [hne]

/-- What a text in lower case ends with, the text ends with.  By induction on the text: characters
    beyond ASCII leave nothing plain behind, so none of them reaches into the ending. -/
theorem exists_of_append (h : Lowered s l) (he : ∀ x ∈ e, Plain x) (hl : l = stem ++ e) :
    ∃ a b, s = a ++ b ∧ Lowered a stem ∧ lowerAscii b = e := by
  induction h generalizing stem e with
  | nil =>
    obtain ⟨rfl, rfl⟩ := List.append_eq_nil_iff.mp hl.symm
    exact ⟨[], [], rfl, .nil, rfl⟩
  | @ascii c s l hc h ih =>
    cases stem with
    | nil =>
      obtain rfl : c.toLower :: l = e := hl
      obtain ⟨a, b, rfl, ha, hb⟩ := ih (fun x hx => he x (List.mem_cons_of_mem _ hx))
        (List.nil_append l).symm
      obtain rfl := ha.eq_nil_iff.mp rfl
      exact ⟨[], c :: b, rfl, .nil, congrArg (c.toLower :: ·) hb⟩
    | cons x stem =>
      obtain ⟨rfl, hrest⟩ := List.cons.inj hl
      obtain ⟨a, b, rfl, ha, hb⟩ := ih he hrest
      exact ⟨c :: a, b, rfl, .ascii hc ha, hb⟩
  | @beyond c piece s l hc hne hpiece h ih =>
    have hwithin : ∃ stem', stem = piece ++ stem' ∧ l = stem' ++ e := by
      rcases List.append_eq_append_iff.mp hl with ⟨more, hstem, hl⟩ | ⟨more, hpieces, he'⟩
      · exact ⟨more, hstem, hl⟩
      · -- a character of the piece in the ending would be plain
        cases more with
        | nil => exact ⟨[], by simpa using hpieces.symm, by simpa using he'.symm⟩
        | cons x more =>
          obtain ⟨hascii, hi, hk⟩ := he x (by simp [he'])
          rcases hpiece x (by simp [hpieces]) with hx | hx | hx
          · exact absurd hx hi
          · exact absurd hx hk
          · omega
    obtain ⟨stem', rfl, hrest⟩ := hwithin
    obtain ⟨a, b, rfl, ha, hb⟩ := ih he hrest
    exact ⟨c :: a, b, rfl, .beyond hc hne hpiece ha, hb⟩

/-- What a text ends with in ASCII, it ends with in lower case. -/
theorem exists_append (h : Lowered (a ++ b) l) (hb : ∀ x ∈ b, x.toNat < 128) :
    ∃ stem, l = stem ++ lowerAscii b ∧ Lowered a stem := by
  induction a generalizing l with
  | nil =>
    refine ⟨[], ?_, .nil⟩
    rw [List.nil_append] at h ⊢
    induction h with
    | nil => rfl
    | ascii hc h ih =>
      exact congrArg (_ :: ·) (ih fun x hx => hb x (List.mem_cons_of_mem _ hx))
    | @beyond c piece s l hc hne hpiece h ih =>
      have := hb c List.mem_cons_self
      omega
  | cons c a ih =>
    cases h with
    | ascii hc h =>
      obtain ⟨stem, rfl, ha⟩ := ih h
      exact ⟨c.toLower :: stem, rfl, .ascii hc ha⟩
    | @beyond _ piece _ _ hc hne hpiece h =>
      obtain ⟨stem, rfl, ha⟩ := ih h
      exact ⟨piece ++ stem, (List.append_assoc ..).symm, .beyond hc hne hpiece ha⟩

/-- Only ASCII has small letters in ASCII. -/
theorem forall_lt_of_lowerAscii (h : ∀ x ∈ lowerAscii b, x.toNat < 128) :
    ∀ x ∈ b, x.toNat < 128 := by
  intro x hx
  have hlower := h x.toLower (List.mem_map_of_mem hx)
  have hnat := toNat_toLower x
  split at hnat <;> omega

/-- **Endings.**  A text has something in front of a plain ending in lower case just when it has
    something in front of that ending in ASCII, in capitals or small letters. -/
theorem ending_iff (h : Lowered s l) (he : ∀ x ∈ e, Plain x) :
    (∃ stem, stem ≠ [] ∧ l = stem ++ e) ↔ ∃ a b, a ≠ [] ∧ s = a ++ b ∧ lowerAscii b = e := by
  constructor
  · rintro ⟨stem, hne, hl⟩
    obtain ⟨a, b, hs, ha, hb⟩ := h.exists_of_append he hl
    exact ⟨a, b, fun hnil => hne (ha.eq_nil_iff.mpr hnil), hs, hb⟩
  · rintro ⟨a, b, hne, rfl, rfl⟩
    obtain ⟨stem, hl, ha⟩ := h.exists_append (forall_lt_of_lowerAscii fun x hx => (he x hx).1)
    exact ⟨stem, fun hnil => hne (ha.eq_nil_iff.mp hnil), hl⟩

/-- The same for an ending that may be all of the text. -/
theorem suffix_iff (h : Lowered s l) (he : ∀ x ∈ e, Plain x) :
    e <:+ l ↔ ∃ a b, s = a ++ b ∧ lowerAscii b = e := by
  constructor
  · rintro ⟨stem, hl⟩
    obtain ⟨a, b, hs, -, hb⟩ := h.exists_of_append he hl.symm
    exact ⟨a, b, hs, hb⟩
  · rintro ⟨a, b, rfl, rfl⟩
    obtain ⟨stem, hl, -⟩ := h.exists_append (forall_lt_of_lowerAscii fun x hx => (he x hx).1)
    exact ⟨stem, hl.symm⟩

end Lowered

end DeclarationDocs.Text
