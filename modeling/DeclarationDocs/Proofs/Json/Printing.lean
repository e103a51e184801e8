import DeclarationDocs.Json.Printer
import DeclarationDocs.Proofs.Characters
import DeclarationDocs.Proofs.Json.Decorating

namespace DeclarationDocs.Json

open Text (isDigit hexDigit? hexDigit?_digitChar isDigit_of_mem_toDigits head?_toDigits_ne)

/-!
# What is written is read

The printer leaves no gaps between lexemes and escapes what could not stand in a literal.  So the
reader finds the lexemes that were written, and in each of them what it was written for.

* `key_quoted` — text between quotes stands for that text, whatever characters it has;
* `atom_natural` — a natural number of 64 bits stands for itself;
* `Legible n v` — the numbers of `v` stand for themselves, and `v` nests at most `n` deep;
* `parse_print` — such a value is read back from its text.
-/

variable {c d : Cursor} {b t s : List Char} {x : Char} {v : Json} {vs : List Json}
  {ms : List (String × Json)} {n : Nat}

/-! ### Literals -/

/-- A control character has two digits behind two zeros. -/
theorem hexEscape_control (hx : x.toNat < 0x20) :
    HexEscape ['0', '0', Nat.digitChar (x.toNat / 16), Nat.digitChar (x.toNat % 16)] x.toNat :=
  ⟨'0', '0', _, _, 0, 0, x.toNat / 16, x.toNat % 16, rfl, by decide, by decide,
    hexDigit?_digitChar _ (by omega), hexDigit?_digitChar _ (by omega), by omega⟩

/-- A character as it is written stands for itself. -/
theorem quoted_escaped (x : Char) (h : Quoted b t) : Quoted (escaped x ++ b) (x :: t) := by
  unfold escaped
  split
  · exact .escape rfl h
  · exact .escape rfl h
  · exact .escape rfl h
  · exact .escape rfl h
  · exact .escape rfl h
  · exact .escape rfl h
  · exact .escape rfl h
  · rename_i hq hs _ _ _ _ _
    split_ifs with hcontrol
    · have hone := UnicodeEscape.one (hexEscape_control hcontrol) (by omega) (by omega)
      rw [Char.ofNat_toNat] at hone
      exact .unicode hone h
    · exact .char hq hs hcontrol h

/-- The escaped characters of `t` with a quote behind them spell `t`. -/
theorem quoted_flatMap_escaped (t : List Char) : Quoted (t.flatMap escaped ++ ['"']) t := by
  induction t with
  | nil => exact .quote
  | cons x t ih =>
    rw [List.flatMap_cons, List.append_assoc]
    exact quoted_escaped x ih

/-- **Text between quotes stands for the text.** -/
theorem key_quoted (k : String) : Key k (quoted k.toList) :=
  ⟨_, k.toList, rfl, quoted_flatMap_escaped _, String.ofList_toList.symm⟩

/-! ### Natural numbers -/

/-- Digits are all kept, as long as the number that they make is small enough. -/
theorem digits_eq (used : Nat) (hs : ∀ x ∈ s, isDigit x = true)
    (hn : Nat.ofDigitChars 10 s n < significandBound) (hc : c.rest = s) :
    (digits s n used c).1 = Nat.ofDigitChars 10 s n ∧ (digits s n used c).2.2.rest = [] := by
  induction s generalizing n c used with
  | nil => exact ⟨rfl, hc⟩
  | cons x s ih =>
    obtain ⟨hx, hs⟩ := List.forall_mem_cons.mp hs
    have hvalue : n * 10 + Text.digitValue x = 10 * n + (x.toNat - '0'.toNat) := by
      rw [Text.digitValue, Nat.mul_comm]
    rw [Nat.ofDigitChars_cons, ← hvalue] at hn ⊢
    have hle : n * 10 + Text.digitValue x
        ≤ Nat.ofDigitChars 10 s (n * 10 + Text.digitValue x) := by
      rw [Nat.ofDigitChars_eq_ofDigitChars_zero]
      exact Nat.le_add_right_of_le (Nat.le_mul_of_pos_left _ (Nat.pos_of_ne_zero (by simp)))
    have hkept : (isDigit x && decide (n * 10 + Text.digitValue x < significandBound)) = true := by
      simpa [hx] using Nat.lt_of_le_of_lt hle hn
    rw [digits, if_pos hkept]
    exact ih _ hs hn (by simp [hc])

/-- A whole number ends where the text ends. -/
theorem numberTail_of_rest (hc : c.rest = []) : numberTail true n c = .ok (.int n, c) := by
  simp [numberTail, hc]

/-- A text of digits that are all kept is one whole number. -/
theorem digitsTail_of_rest (hc : (digits c.rest 0 0 c).2.2.rest = []) :
    digitsTail true c = numberTail true (digits c.rest 0 0 c).1 (digits c.rest 0 0 c).2.2 := by
  have hmore : (dropDigits (digits c.rest 0 0 c).2.2.rest 0 (digits c.rest 0 0 c).2.2).1 = 0 := by
    rw [hc]
    rfl
  rw [digitsTail, if_pos hmore]

/-- The digits of a number are read as the number. -/
theorem numberAt_toDigits (hn : n < significandBound) (hc : c.rest = Nat.toDigits 10 n) :
    ∃ d, numberAt true c = .ok (.int n, d) ∧ d.rest = [] := by
  rcases Nat.eq_zero_or_pos n with rfl | hpos
  · rw [Nat.toDigits_zero] at hc
    have hend : c.next.rest = [] := by rw [Cursor.next_rest, hc, List.tail_cons]
    refine ⟨c.next, ?_, hend⟩
    rw [numberAt_of_zero hc, zeroTail, hend]
    exact numberTail_of_rest hend
  have hdigits : ∀ x ∈ c.rest, isDigit x = true := by
    rw [hc]
    exact fun _ h => isDigit_of_mem_toDigits h
  have hvalue : Nat.ofDigitChars 10 c.rest 0 = n := by rw [hc, Nat.ofDigitChars_ten_toDigits]
  obtain ⟨hkept, hend⟩ := digits_eq 0 hdigits (hvalue.symm ▸ hn) rfl
  refine ⟨_, numberAt_eq_ok_iff.mpr (Or.inr ⟨?_, ?_⟩), hend⟩
  · have hne : c.rest ≠ [] := by
      rw [hc]
      exact Nat.toDigits_ne_nil
    obtain ⟨x, r, hr⟩ := List.exists_cons_of_ne_nil hne
    refine ⟨x, by rw [hr, List.head?_cons], hdigits x (by simp [hr]), ?_⟩
    rintro rfl
    exact head?_toDigits_ne hpos (by rw [← hc, hr, List.head?_cons])
  · rw [digitsTail_of_rest hend, numberTail_of_rest hend, hkept, hvalue]

/-- **A natural number of 64 bits stands for itself.** -/
theorem atom_natural (hn : n < significandBound) :
    Atom (.number (.int n)) (numberText (.int n)) := by
  have htext : numberText (.int n) = Nat.toDigits 10 n := Nat.toList_repr
  obtain ⟨x, r, hr⟩ := List.exists_cons_of_ne_nil (Nat.toDigits_ne_nil (n := n) (b := 10))
  have hdigits : ∀ y ∈ x :: r, isDigit y = true := by
    rw [← hr]
    exact fun _ h => isDigit_of_mem_toDigits h
  obtain ⟨d, hd, hend⟩ := numberAt_toDigits (c := .start (x :: r)) hn hr.symm
  rw [htext, hr]
  refine .word (fun y hy => isWordChar_of_isDigit (hdigits y hy)) ?_ hend
  rw [scalar_of_isDigit (hdigits x (by simp))]
  exact bind_eq_ok_iff.mpr ⟨_, hd, rfl⟩

/-! ### Values -/

mutual

/-- Whether the numbers of a value stand for themselves, and it nests at most `n` deep. -/
def Legible : Nat → Json → Prop
  | _, .null => True
  | _, .bool _ => True
  | _, .number m => Atom (.number m) (numberText m)
  | _, .string _ => True
  | n, .array vs => 1 < n ∧ LegibleItems (n - 1) vs
  | n, .object ms => 1 < n ∧ LegibleMembers (n - 1) ms

/-- Whether all items of an array are legible. -/
def LegibleItems : Nat → List Json → Prop
  | _, [] => True
  | n, v :: vs => Legible n v ∧ LegibleItems n vs

/-- Whether the values of all members of an object are legible. -/
def LegibleMembers : Nat → List (String × Json) → Prop
  | _, [] => True
  | n, (_, v) :: ms => Legible n v ∧ LegibleMembers n ms

end

/-- The comma in front of what is left of a list, if anything is left. -/
def comma {α : Type} (rest : List α) : List Char := if rest.isEmpty then [] else [',']

/-- The first item, a comma if others follow, and those. -/
theorem printItems_cons (v : Json) (vs : List Json) :
    printItems (v :: vs) = print v ++ (comma vs ++ printItems vs) := by
  cases vs with
  | nil => simp [printItems, comma]
  | cons w vs => simp [printItems, comma]

/-- The first member, a comma if others follow, and those. -/
theorem printMembers_cons (k : String) (v : Json) (ms : List (String × Json)) :
    printMembers ((k, v) :: ms)
      = quoted k.toList ++ ':' :: (print v ++ (comma ms ++ printMembers ms)) := by
  cases ms with
  | nil => simp [printMembers, comma]
  | cons m ms => simp [printMembers, comma]

/-- A small word stands for the value that it is read as. -/
theorem atom_word {u : List Char} (hu : (x :: u).all isWordChar = true)
    (h : scalar x (.start (x :: u)) = .ok (v, d)) (hd : d.rest = []) : Atom v (x :: u) :=
  .word (List.all_eq_true.mp hu) h hd

mutual

/-- **What is written is spelt**, with nothing between the lexemes. -/
theorem exists_spells_print : ∀ (v : Json) (n : Nat), Legible n v →
    ∃ ls, Spells n (.value v) ls ∧ ls.flatten = print v
  | .null, n, _ => ⟨[print .null], .atom (atom_word (by decide) rfl rfl), rfl⟩
  | .bool true, n, _ => ⟨[print (.bool true)], .atom (atom_word (by decide) rfl rfl), rfl⟩
  | .bool false, n, _ => ⟨[print (.bool false)], .atom (atom_word (by decide) rfl rfl), rfl⟩
  | .number m, n, h => ⟨[numberText m], .atom h, by simp [print]⟩
  | .string k, n, _ => ⟨[quoted k.toList], .atom (.literal (key_quoted k)), by simp [print]⟩
  | .array vs, n, h => by
    obtain ⟨hn, hvs⟩ := h
    obtain ⟨ls, hls, htext⟩ := exists_spells_printItems vs (n - 1) true hvs
    exact ⟨['['] :: ls, .array hn hls, by simp [print, htext]⟩
  | .object ms, n, h => by
    obtain ⟨hn, hms⟩ := h
    obtain ⟨ls, hls, htext⟩ := exists_spells_printMembers ms (n - 1) true hms
    exact ⟨['\x7b'] :: ls, .object hn hls, by simp [print, htext]⟩

/-- Items are written up to the closing bracket. -/
theorem exists_spells_printItems : ∀ (vs : List Json) (n : Nat) (first : Bool), LegibleItems n vs →
    ∃ ls, Spells n (.items first vs) ls
      ∧ ls.flatten = (if first then [] else comma vs) ++ (printItems vs ++ [']'])
  | [], n, first, _ => ⟨_, .noItem, by cases first <;> rfl⟩
  | v :: vs, n, first, h => by
    obtain ⟨hv, hvs⟩ := h
    obtain ⟨ls, hls, htext⟩ := exists_spells_print v n hv
    obtain ⟨rs, hrs, htexts⟩ := exists_spells_printItems vs n false hvs
    refine ⟨_, .item hls hrs, ?_⟩
    rw [printItems_cons]
    cases first <;> simp [lead, comma, htext, htexts]

/-- Members are written up to the closing brace. -/
theorem exists_spells_printMembers : ∀ (ms : List (String × Json)) (n : Nat) (first : Bool),
    LegibleMembers n ms → ∃ ls, Spells n (.members first ms) ls
      ∧ ls.flatten = (if first then [] else comma ms) ++ (printMembers ms ++ ['\x7d'])
  | [], n, first, _ => ⟨_, .noMember, by cases first <;> rfl⟩
  | (k, v) :: ms, n, first, h => by
    obtain ⟨hv, hms⟩ := h
    obtain ⟨ls, hls, htext⟩ := exists_spells_print v n hv
    obtain ⟨rs, hrs, htexts⟩ := exists_spells_printMembers ms n false hms
    refine ⟨_, .member (key_quoted k) hls hrs, ?_⟩
    rw [printMembers_cons]
    cases first <;> simp [lead, comma, htext, htexts]

end

/-! ### Texts -/

/-- Lexemes may stand one behind the other. -/
theorem spaced_flatten (ls : List (List Char)) : Spaced Blank Blank ls ls.flatten := by
  have hnone : Blank [] := by simp [Blank]
  induction ls with
  | nil => exact .done hnone
  | cons l ls ih => exact .lexeme hnone ih

/-- **What is written is read.** -/
theorem parse_print (h : Legible depthLimit v) : parse (print v) = .ok v := by
  obtain ⟨ls, hls, htext⟩ := exists_spells_print v depthLimit h
  rw [parse_eq_ok_iff, ← htext, (spaced_flatten ls).lexemes_eq hls.token hls.isChain]
  exact hls

end DeclarationDocs.Json
