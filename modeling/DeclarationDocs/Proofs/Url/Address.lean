import DeclarationDocs.Proofs.Characters
import DeclarationDocs.Proofs.Path.Segments
import DeclarationDocs.Url.Address

namespace DeclarationDocs.Url

open Text (hexDigit? numberIn? numberIn?_toDigits isDigit_of_mem_toDigits)

/-!
# Addresses that are read back

An IPv4 address is written as four bytes, and an IPv6 address as eight pieces without their longest
run of zeros.  Both are read back from what is written.

* `ipv4?_lt`, `ipv4?_ipv4Text` — every number of 32 bits is read back, and no other is read;
* `Pieces.Small` — what has been read of an IPv6 address; `Pieces.Small.pieces?` — every step keeps
  it;
* `pieces?_joinPieces` — pieces with colons between them are read one by one;
* `ipv6?_spec`, `ipv6?_ipv6Text` — every list of eight pieces of 16 bits is read back, and no other
  is read.
-/

variable {n k m : Nat} {s r rest : List Char} {p found : Pieces} {ps qs : List Nat} {x : Char}

/-! ### IPv4 -/

/-- An address of `k` bytes has a value below `256 ^ k`. -/
theorem ipv4Value?_lt (h : ipv4Value? k ps = some n) : n < Nat.pow 256 k := by
  induction ps generalizing k n with
  | nil => cases k <;> simp [ipv4Value?] at h
  | cons part parts ih =>
    cases k with
    | zero => simp [ipv4Value?] at h
    | succ room =>
      cases parts with
      | nil =>
        rw [ipv4Value?] at h
        split at h
        · rename_i hlt
          exact Option.some.inj h ▸ hlt
        · exact absurd h (by simp)
      | cons part' parts =>
        rw [ipv4Value?] at h
        · split at h
          · rename_i hpart
            obtain ⟨m, hm, rfl⟩ := Option.map_eq_some_iff.mp h
            calc part * Nat.pow 256 room + m < part * Nat.pow 256 room + Nat.pow 256 room :=
                  Nat.add_lt_add_left (ih hm) _
              _ = (part + 1) * Nat.pow 256 room := (Nat.succ_mul _ _).symm
              _ ≤ 256 * Nat.pow 256 room := Nat.mul_le_mul_right _ hpart
              _ = Nat.pow 256 (room + 1) := Nat.mul_comm _ _
          · exact absurd h (by simp)
        · simp

/-- Addresses are numbers of 32 bits. -/
theorem ipv4?_lt (h : ipv4? s = some n) : n < Nat.pow 256 4 := by
  obtain ⟨ps, -, h⟩ := Option.bind_eq_some_iff.mp h
  exact ipv4Value?_lt h

/-- A number without leading zeros is decimal. -/
theorem ipv4Number?_toDigits (n : Nat) : ipv4Number? (Nat.toDigits 10 n) = some n := by
  have hread : numberIn? 10 (Nat.toDigits 10 n) = some n :=
    numberIn?_toDigits (by decide) (by decide) n
  by_cases hn : n = 0
  · subst hn
    rfl
  · have hhead := Text.head?_toDigits_ne (Nat.pos_of_ne_zero hn)
    unfold ipv4Number?
    split
    · rename_i hnil
      exact absurd hnil Nat.toDigits_ne_nil
    · rename_i hzero
      exact absurd (by rw [hzero]; rfl) hhead
    · rename_i hzero
      exact absurd (by rw [hzero]; rfl) hhead
    · rename_i hzero
      exact absurd (by rw [hzero]; rfl) hhead
    · exact hread

theorem notMem_toDigits (hx : Text.isDigit x = false) (n : Nat) : x ∉ Nat.toDigits 10 n := by
  intro hmem
  rw [isDigit_of_mem_toDigits hmem] at hx
  exact Bool.noConfusion hx

/-- The bytes of an address, the highest one first. -/
def ipv4Bytes (n : Nat) : List Nat := [3, 2, 1, 0].map fun k => n / Nat.pow 256 k % 256

/-- An address is written with dots between its bytes. -/
theorem splitAt_ipv4Text (n : Nat) :
    Text.splitAt '.' (ipv4Text n) = (ipv4Bytes n).map (Nat.toDigits 10) := by
  have hdot : ∀ m, Text.splitAt '.' (Nat.toDigits 10 m) = [Nat.toDigits 10 m] :=
    fun m => Text.splitAt_of_not_mem (notMem_toDigits (by decide) m)
  unfold ipv4Text
  simp only [Text.splitAt_append_cons, hdot]
  rfl

/-- An IPv4 address is written with digits and dots. -/
theorem mem_ipv4Text (h : x ∈ ipv4Text n) : x = '.' ∨ Text.isDigit x = true := by
  have hbyte : ∀ m, x ∈ Nat.toDigits 10 m → x = '.' ∨ Text.isDigit x = true :=
    fun m hm => .inr (isDigit_of_mem_toDigits hm)
  unfold ipv4Text at h
  simp only [List.mem_append, List.mem_cons] at h
  rcases h with ((h | rfl | h) | rfl | h) | rfl | h
  · exact hbyte _ h
  · exact .inl rfl
  · exact hbyte _ h
  · exact .inl rfl
  · exact hbyte _ h
  · exact .inl rfl
  · exact hbyte _ h

/-- The bytes of an address make the address. -/
theorem ipv4Value?_ipv4Bytes (hn : n < Nat.pow 256 4) : ipv4Value? 4 (ipv4Bytes n) = some n := by
  have hbyte : ∀ m, m % 256 < 256 := fun m => Nat.mod_lt m (by decide)
  have h0 : Nat.pow 256 0 = 1 := rfl
  have h1 : Nat.pow 256 1 = 256 := rfl
  have h2 : Nat.pow 256 2 = 65536 := rfl
  have h3 : Nat.pow 256 3 = 16777216 := rfl
  have h4 : Nat.pow 256 4 = 4294967296 := rfl
  rw [h4] at hn
  simp only [ipv4Bytes, List.map_cons, List.map_nil, ipv4Value?, hbyte, if_true, h0, h1, h2, h3,
    Nat.zero_add, Option.map_some, Option.some.injEq]
  omega

/-- **IPv4 addresses are read back.** -/
theorem ipv4?_ipv4Text (hn : n < Nat.pow 256 4) : ipv4? (ipv4Text n) = some n := by
  have hlast : (Text.splitAt '.' (ipv4Text n)).getLast? ≠ some [] := by
    rw [splitAt_ipv4Text]
    show some (Nat.toDigits 10 _) ≠ some []
    exact fun h => Nat.toDigits_ne_nil (Option.some.inj h)
  have hparts : ((ipv4Bytes n).map (Nat.toDigits 10)).mapM ipv4Number? = some (ipv4Bytes n) := by
    simp [ipv4Bytes, ipv4Number?_toDigits]
  unfold ipv4?
  simp only [if_neg hlast]
  rw [splitAt_ipv4Text, hparts]
  exact ipv4Value?_ipv4Bytes hn

/-- An address is recognised as one. -/
theorem endsInNumber_ipv4Text (n : Nat) : endsInNumber (ipv4Text n) = true := by
  obtain ⟨c, t, hdigits⟩ := List.exists_cons_of_ne_nil
    (Nat.toDigits_ne_nil (n := n / Nat.pow 256 0 % 256) (b := 10))
  have hall : (c :: t).all Text.isDigit = true :=
    List.all_eq_true.mpr fun x hx => isDigit_of_mem_toDigits (hdigits ▸ hx)
  have hreverse : (Text.splitAt '.' (ipv4Text n)).reverse =
      (c :: t) :: ([3, 2, 1].map fun k => Nat.toDigits 10 (n / Nat.pow 256 k % 256)).reverse := by
    rw [splitAt_ipv4Text, ← hdigits]
    rfl
  unfold endsInNumber
  simp only [hreverse, hall, List.isEmpty_cons, Bool.not_false, Bool.and_self, Bool.true_or]

/-! ### Reading IPv6 -/

/-- What may have been read of an IPv6 address: eight pieces at most, of 16 bits each. -/
structure Pieces.Small (p : Pieces) : Prop where
  length : p.read.length ≤ 8
  small : ∀ q ∈ p.read, q < 65536

/-- Pieces below `65536` may be put behind such pieces. -/
theorem Pieces.Small.append {gap : Option Nat} (h : p.Small)
    (hlength : p.read.length + qs.length ≤ 8) (hqs : ∀ q ∈ qs, q < 65536) :
    Pieces.Small ⟨p.read ++ qs, gap⟩ := by
  refine ⟨by simpa using hlength, fun q hq => ?_⟩
  rcases List.mem_append.mp hq with hq | hq
  · exact h.small q hq
  · exact hqs q hq

/-- A byte is below `256`. -/
theorem plainByte?_lt (h : plainByte? s = some n) : n < 256 := by
  unfold plainByte? at h
  split at h
  · exact absurd h (by simp)
  · exact absurd h (by simp)
  · split at h
    · simpa using (Option.filter_eq_some_iff.mp h).2
    · exact absurd h (by simp)

/-- So are all bytes of an address. -/
theorem forall_of_mapM_plainByte? {parts : List (List Char)} {bytes : List Nat}
    (h : parts.mapM plainByte? = some bytes) : ∀ b ∈ bytes, b < 256 := by
  induction parts generalizing bytes with
  | nil =>
    obtain rfl : [] = bytes := by simpa using h
    simp
  | cons s parts ih =>
    rw [List.mapM_cons] at h
    obtain ⟨b, hb, h⟩ := Option.bind_eq_some_iff.mp h
    obtain ⟨bs, hbs, h⟩ := Option.bind_eq_some_iff.mp h
    obtain rfl : b :: bs = bytes := by simpa using h
    exact List.forall_mem_cons.mpr ⟨plainByte?_lt hb, ih hbs⟩

/-- An IPv4 address stands for two pieces. -/
theorem ipv4Pieces?_spec (h : ipv4Pieces? s = some ps) : ps.length = 2 ∧ ∀ q ∈ ps, q < 65536 := by
  obtain ⟨bytes, hbytes, h⟩ := Option.bind_eq_some_iff.mp h
  have hsmall := forall_of_mapM_plainByte? hbytes
  split at h
  · rename_i a b c d
    obtain rfl := Option.some.inj h
    refine ⟨rfl, ?_⟩
    simp only [List.forall_mem_cons] at hsmall ⊢
    obtain ⟨ha, hb, hc, hd, -⟩ := hsmall
    exact ⟨by omega, by omega, by simp⟩
  · exact absurd h (by simp)

/-- Four digits make a piece. -/
theorem numberIn?_take_lt (s : List Char) : (numberIn? 16 (s.take 4)).getD 0 < 65536 := by
  cases h : numberIn? 16 (s.take 4) with
  | none => decide
  | some n =>
    have hlength : (s.take 4).length ≤ 4 := by
      rw [List.length_take]
      omega
    calc n < Nat.pow 16 (s.take 4).length := Text.numberIn?_lt h
      _ ≤ Nat.pow 16 4 := Nat.pow_le_pow_right (by decide) hlength

/-- **Every step keeps what has been read small.** -/
theorem Pieces.Small.pieces? (hp : p.Small) (h : pieces? n s p = some found) : found.Small := by
  induction n generalizing s p with
  | zero =>
    cases s with
    | nil => exact Option.some.inj h ▸ hp
    | cons c r => exact absurd h (by simp [Url.pieces?])
  | succ n ih =>
    cases s with
    | nil => exact Option.some.inj h ▸ hp
    | cons c r =>
      rw [Url.pieces?] at h
      split at h
      · exact absurd h (by simp)
      rename_i hlength
      have hroom : ∀ q : Nat, p.read.length + [q].length ≤ 8 := by
        have hle := hp.length
        simp only [List.length_singleton]
        omega
      have hvalue : ∀ q ∈ [(numberIn? 16 (((c :: r).takeWhile fun x =>
          (hexDigit? x).isSome).take 4)).getD 0], q < 65536 :=
        List.forall_mem_singleton.mpr (numberIn?_take_lt _)
      split at h
      · split at h
        · exact absurd h (by simp)
        · exact ih (hp.append (hroom _) (by simp)) h
      simp only at h
      -- behind the digits: the end, an IPv4 address, or a colon
      split at h
      · exact Option.some.inj h ▸ hp.append (hroom _) hvalue
      · split at h
        · exact absurd h (by simp)
        · rename_i hfew
          obtain ⟨more, hmore, rfl⟩ := Option.map_eq_some_iff.mp h
          obtain ⟨htwo, hsmall⟩ := ipv4Pieces?_spec hmore
          have hsix := not_or.mp hfew
          exact hp.append (by omega) hsmall
      · split at h
        · exact absurd h (by simp)
        · exact ih (hp.append (hroom _) hvalue) h
      · exact absurd h (by simp)

/-- The pieces of a whole address, with zeros where they were left out. -/
def Pieces.filled (p : Pieces) : Option (List Nat) :=
  match p.gap with
  | some g => some (p.read.take g ++ List.replicate (8 - p.read.length) 0 ++ p.read.drop g)
  | none => if p.read.length = 8 then some p.read else none

/-- What can be read of an address that begins with a colon, and of any other one. -/
def written? (s : List Char) : Option Pieces :=
  match s with
  | ':' :: ':' :: r => pieces? 9 r ⟨[0], some 1⟩
  | ':' :: _ => none
  | [] => none
  | [_] => none
  | s => pieces? 9 s ⟨[], none⟩

/-- An IPv6 address is what is written, filled up to eight pieces. -/
theorem ipv6?_eq (s : List Char) : ipv6? s = (written? s).bind Pieces.filled := by
  unfold ipv6?
  split
  all_goals rw [written?]
  all_goals first | rfl | assumption

/-- The pieces that are written are below `65536`. -/
theorem Pieces.Small.written? (h : Url.written? s = some found) : found.Small := by
  have hnone : Pieces.Small ⟨[], none⟩ := ⟨by simp, by simp⟩
  have hzero : Pieces.Small ⟨[0], some 1⟩ := ⟨by simp, by simp⟩
  unfold Url.written? at h
  split at h
  · exact hzero.pieces? h
  · exact absurd h (by simp)
  · exact absurd h (by simp)
  · exact absurd h (by simp)
  · exact hnone.pieces? h

/-- **Addresses are eight pieces of 16 bits.** -/
theorem ipv6?_spec (h : ipv6? s = some ps) : ps.length = 8 ∧ ∀ q ∈ ps, q < 65536 := by
  rw [ipv6?_eq] at h
  obtain ⟨found, hfound, h⟩ := Option.bind_eq_some_iff.mp h
  have hsmall : found.Small := .written? hfound
  unfold Pieces.filled at h
  split at h
  · obtain rfl := Option.some.inj h
    have hlength := hsmall.length
    refine ⟨?_, fun q hq => ?_⟩
    · simp only [List.length_append, List.length_take, List.length_drop, List.length_replicate]
      omega
    · simp only [List.mem_append, List.mem_replicate] at hq
      rcases hq with (hq | hq) | hq
      · exact hsmall.small q (List.mem_of_mem_take hq)
      · omega
      · exact hsmall.small q (List.mem_of_mem_drop hq)
  · split at h
    · rename_i hlength
      obtain rfl := Option.some.inj h
      exact ⟨hlength, hsmall.small⟩
    · exact absurd h (by simp)

/-! ### Writing IPv6 -/

/-- The longest run of zeros that is left out is one of two or more. -/
theorem longestZeros_spec {i : Nat} (h : longestZeros ps = some (i, n)) :
    1 < n ∧ ps = ps.take i ++ List.replicate n 0 ++ ps.drop (i + n) := by
  have hrun : ∀ i n, longestZeros ps = some (i, n) → 1 < n ∧ n = zeroRun (ps.drop i) := by
    unfold longestZeros
    refine List.foldlRecOn (motive := fun best => ∀ i n, best = some (i, n) →
      1 < n ∧ n = zeroRun (ps.drop i)) _ _ (by simp) fun best hbest j _ i n hlonger => ?_
    simp only at hlonger
    split at hlonger
    · rename_i hlt
      obtain ⟨rfl, rfl⟩ : j = i ∧ zeroRun (ps.drop j) = n := by simpa using hlonger
      refine ⟨?_, rfl⟩
      cases best with
      | none => exact hlt
      | some run => exact Nat.lt_trans (hbest run.1 run.2 rfl).1 hlt
    · exact hbest i n hlonger
  obtain ⟨hn, hzeros⟩ := hrun i n h
  refine ⟨hn, ?_⟩
  have hreplicate : (ps.drop i).takeWhile (· = 0) = List.replicate n 0 := by
    refine List.eq_replicate_iff.mpr ⟨hzeros.symm, fun q hq => ?_⟩
    simpa using List.mem_takeWhile_imp hq
  have htake : (ps.drop i).take n = List.replicate n 0 := by
    rw [← hreplicate, hzeros]
    exact (List.prefix_iff_eq_take.mp (List.takeWhile_prefix _)).symm
  rw [← htake, List.append_assoc, ← List.drop_drop, List.take_append_drop, List.take_append_drop]

theorem mem_hex (h : x ∈ Text.hex n) : (hexDigit? x).isSome = true :=
  Text.isSome_of_mem_toDigits (by decide) (by decide) h

/-- A piece has at most four digits. -/
theorem length_hex_le (hn : n < 65536) : (Text.hex n).length ≤ 4 :=
  (Nat.length_toDigits_le_iff (by decide) (by decide)).mpr hn

/-- The digits of a piece are read up to its end or the next colon. -/
theorem digits_hex (hn : n < 65536) (hr : r = [] ∨ r.head? = some ':') :
    ((Text.hex n ++ r).takeWhile fun x => (hexDigit? x).isSome).take 4 = Text.hex n := by
  have htake : (Text.hex n ++ r).takeWhile (fun x => (hexDigit? x).isSome) = Text.hex n := by
    rw [List.takeWhile_append_of_pos fun x hx => mem_hex hx]
    rcases hr with rfl | hr
    · simp
    · obtain ⟨t, rfl⟩ := List.head?_eq_some_iff.mp hr
      rw [List.takeWhile_cons_of_neg (by decide), List.append_nil]
  rw [htake, List.take_of_length_le (length_hex_le hn)]

/-- A piece begins with a digit. -/
theorem exists_hex (n : Nat) : ∃ c t, Text.hex n = c :: t ∧ c ≠ ':' := by
  obtain ⟨c, t, h⟩ := List.exists_cons_of_ne_nil (Nat.toDigits_ne_nil (n := n) (b := 16))
  refine ⟨c, t, h, ?_⟩
  rintro rfl
  exact absurd (mem_hex (n := n) (x := ':') (by rw [Text.hex, h]; simp)) (by decide)

/-- The last piece is read to the end. -/
theorem pieces?_hex (hn : n < 65536) (hlength : p.read.length < 8) :
    pieces? (k + 1) (Text.hex n) p = some ⟨p.read ++ [n], p.gap⟩ := by
  obtain ⟨c, t, hhex, hc⟩ := exists_hex n
  have hdigits := digits_hex (r := []) hn (.inl rfl)
  have hvalue : numberIn? 16 (Text.hex n) = some n := numberIn?_toDigits (by decide) (by decide) n
  rw [List.append_nil] at hdigits
  rw [hhex] at hdigits hvalue ⊢
  rw [pieces?, if_neg (by omega), if_neg hc]
  simp only [hdigits, hvalue, List.drop_length, Option.getD_some]

/-- A piece is read up to the colon behind it. -/
theorem pieces?_hex_colon (hn : n < 65536) (hlength : p.read.length < 8) (hrest : rest ≠ []) :
    pieces? (k + 1) (Text.hex n ++ ':' :: rest) p = pieces? k rest ⟨p.read ++ [n], p.gap⟩ := by
  obtain ⟨c, t, hhex, hc⟩ := exists_hex n
  have hdigits := digits_hex (r := ':' :: rest) hn (.inr rfl)
  have hvalue : numberIn? 16 (Text.hex n) = some n := numberIn?_toDigits (by decide) (by decide) n
  have hdrop : (Text.hex n ++ ':' :: rest).drop (Text.hex n).length = ':' :: rest :=
    List.drop_left
  rw [hhex] at hdigits hvalue hdrop ⊢
  rw [List.cons_append] at hdigits hdrop ⊢
  rw [pieces?, if_neg (by omega), if_neg hc]
  simp only [hdigits, hvalue, hdrop, Option.getD_some]
  rw [if_neg (by simpa using hrest)]

/-- The zeros that are left out are one zero for now. -/
theorem pieces?_gap (hlength : p.read.length < 8) (hgap : p.gap = none) :
    pieces? (k + 1) (':' :: r) p = pieces? k r ⟨p.read ++ [0], some (p.read.length + 1)⟩ := by
  rw [pieces?, if_neg (by omega), if_pos rfl, hgap]
  rfl

/-- Pieces are joined by colons. -/
theorem joinPieces_cons (a b : Nat) (qs : List Nat) :
    joinPieces (a :: b :: qs) = Text.hex a ++ ':' :: joinPieces (b :: qs) := by
  simp [joinPieces]

theorem joinPieces_ne_nil (a : Nat) (qs : List Nat) : joinPieces (a :: qs) ≠ [] := by
  obtain ⟨c, t, hhex, -⟩ := exists_hex a
  cases qs <;> simp [joinPieces, hhex]

/-- They are written with colons and hexadecimal digits. -/
theorem mem_joinPieces (h : x ∈ joinPieces qs) : x = ':' ∨ (hexDigit? x).isSome = true := by
  induction qs with
  | nil => exact absurd h (by simp [joinPieces])
  | cons q qs ih =>
    cases qs with
    | nil => exact .inr (mem_hex (n := q) (by simpa [joinPieces] using h))
    | cons q' qs =>
      rw [joinPieces_cons] at h
      rcases List.mem_append.mp h with h | h
      · exact .inr (mem_hex h)
      · exact (List.mem_cons.mp h).elim .inl ih

/-- So is an IPv6 address. -/
theorem mem_ipv6Text (h : x ∈ ipv6Text ps) : x = ':' ∨ (hexDigit? x).isSome = true := by
  unfold ipv6Text at h
  split at h
  · simp only [List.mem_append, List.mem_cons] at h
    rcases h with h | h | h | h
    · exact mem_joinPieces h
    · exact .inl h
    · exact .inl h
    · exact mem_joinPieces h
  · exact mem_joinPieces h

/-- **Pieces with colons between them are read one by one.** -/
theorem pieces?_joinPieces (hqs : ∀ q ∈ qs, q < 65536) (hlength : p.read.length + qs.length ≤ 8) :
    pieces? (k + qs.length) (joinPieces qs) p = some ⟨p.read ++ qs, p.gap⟩ := by
  induction qs generalizing p with
  | nil =>
    show pieces? k [] p = _
    rw [List.append_nil]
    cases k <;> rfl
  | cons q qs ih =>
    obtain ⟨hq, hqs⟩ := List.forall_mem_cons.mp hqs
    rw [List.length_cons] at hlength
    cases qs with
    | nil =>
      show pieces? (k + 1) (joinPieces [q]) p = _
      have hjoin : joinPieces [q] = Text.hex q := by simp [joinPieces]
      rw [hjoin, pieces?_hex hq (by simp at hlength; omega)]
    | cons q' qs =>
      rw [joinPieces_cons, List.length_cons, ← Nat.add_assoc,
        pieces?_hex_colon hq (by omega) (joinPieces_ne_nil q' qs),
        ih hqs (by simp at hlength ⊢; omega), List.append_assoc]
      rfl

/-- **Pieces in front of a colon are read one by one.** -/
theorem pieces?_joinPieces_colon (hne : qs ≠ []) (hqs : ∀ q ∈ qs, q < 65536)
    (hlength : p.read.length + qs.length ≤ 8) (hrest : rest ≠ []) :
    pieces? (k + qs.length) (joinPieces qs ++ ':' :: rest) p =
      pieces? k rest ⟨p.read ++ qs, p.gap⟩ := by
  induction qs generalizing p with
  | nil => exact absurd rfl hne
  | cons q qs ih =>
    obtain ⟨hq, hqs⟩ := List.forall_mem_cons.mp hqs
    rw [List.length_cons] at hlength
    cases qs with
    | nil =>
      show pieces? (k + 1) (joinPieces [q] ++ ':' :: rest) p = _
      have hjoin : joinPieces [q] = Text.hex q := by simp [joinPieces]
      rw [hjoin, pieces?_hex_colon hq (by simp at hlength; omega) hrest]
    | cons q' qs =>
      rw [joinPieces_cons, List.length_cons, ← Nat.add_assoc, List.append_assoc, List.cons_append,
        pieces?_hex_colon hq (by omega) (by simp), ih (by simp) hqs (by simp at hlength ⊢; omega),
        List.append_assoc]
      rfl

/-- The zeros that were left out are put back. -/
theorem filled_gap {a : List Nat} (hlength : a.length + qs.length + 1 ≤ 8) :
    Pieces.filled ⟨a ++ [0] ++ qs, some (a.length + 1)⟩ =
      some (a ++ List.replicate (8 - a.length - qs.length) 0 ++ qs) := by
  have htake : (a ++ [0] ++ qs).take (a.length + 1) = a ++ [0] := List.take_left' (by simp)
  have hdrop : (a ++ [0] ++ qs).drop (a.length + 1) = qs := List.drop_left' (by simp)
  have hzeros : List.replicate (8 - a.length - qs.length) 0 =
      0 :: List.replicate (8 - (a ++ [0] ++ qs).length) 0 := by
    rw [← List.replicate_succ]
    congr 1
    simp only [List.length_append, List.length_singleton]
    omega
  show some _ = some _
  rw [htake, hdrop, hzeros]
  simp

/-- What begins with a digit and goes on is read from its beginning. -/
theorem written?_joinPieces {a : Nat} (h : qs ≠ [] ∨ s ≠ []) :
    written? (joinPieces (a :: qs) ++ s) = pieces? 9 (joinPieces (a :: qs) ++ s) ⟨[], none⟩ := by
  obtain ⟨c, t, hhex, hc⟩ := exists_hex a
  obtain ⟨d, v, hcd⟩ : ∃ d v, joinPieces (a :: qs) ++ s = c :: d :: v := by
    have hnext : ∃ u, joinPieces (a :: qs) ++ s = c :: u ∧ u ≠ [] := by
      cases qs with
      | nil => exact ⟨t ++ s, by simp [joinPieces, hhex], by simpa using fun _ => h⟩
      | cons q qs => exact ⟨t ++ ':' :: joinPieces (q :: qs) ++ s, by
          rw [joinPieces_cons, hhex]; simp, by simp⟩
    obtain ⟨u, hu, hne⟩ := hnext
    obtain ⟨d, v, rfl⟩ := List.exists_cons_of_ne_nil hne
    exact ⟨d, v, hu⟩
  rw [hcd, written?]
  · exact fun r heq => hc (List.cons.inj heq).1
  · exact fun r heq => hc (List.cons.inj heq).1
  · exact fun heq => absurd heq (by simp)
  · exact fun x heq => absurd heq (by simp)

/-- Pieces around two colons are read with one zero between them, and its place is kept. -/
theorem written?_joinPieces_gap {a b : List Nat} (ha : ∀ q ∈ a, q < 65536)
    (hb : ∀ q ∈ b, q < 65536) (hlength : a.length + b.length < 8) :
    written? (joinPieces a ++ ':' :: ':' :: joinPieces b) =
      some ⟨a ++ [0] ++ b, some (a.length + 1)⟩ := by
  have hrest : ∀ k, b.length ≤ k →
      pieces? k (joinPieces b) ⟨a ++ [0], some (a.length + 1)⟩ =
        some ⟨a ++ [0] ++ b, some (a.length + 1)⟩ := by
    intro k hk
    obtain ⟨k, rfl⟩ := Nat.exists_eq_add_of_le' hk
    exact pieces?_joinPieces hb (by simp; omega)
  cases a with
  | nil => exact hrest 9 (by omega)
  | cons q a =>
    rw [List.length_cons] at hlength
    -- each piece takes one step of nine, and so does the second colon
    obtain ⟨k, hk, hle⟩ : ∃ k, 9 = k + 1 + (q :: a).length ∧ b.length ≤ k :=
      ⟨7 - a.length, by rw [List.length_cons]; omega, by omega⟩
    rw [written?_joinPieces (.inr (by simp)), hk,
      pieces?_joinPieces_colon (by simp) ha (by simp; omega) (by simp),
      pieces?_gap (by simp; omega) rfl]
    exact hrest k hle

/-- **IPv6 addresses are read back.** -/
theorem ipv6?_ipv6Text (hlength : ps.length = 8) (hps : ∀ q ∈ ps, q < 65536) :
    ipv6? (ipv6Text ps) = some ps := by
  rw [ipv6?_eq]
  unfold ipv6Text
  split
  · rename_i i n hzeros
    obtain ⟨hn, hcut⟩ := longestZeros_spec hzeros
    -- the pieces in front of the zeros, and those behind them
    generalize ha : ps.take i = a at hcut ⊢
    generalize hb : ps.drop (i + n) = b at hcut ⊢
    have hpieces : a.length + n + b.length = 8 := by
      rw [← hlength, hcut, List.length_append, List.length_append, List.length_replicate]
    have hasmall : ∀ q ∈ a, q < 65536 := fun q hq => hps q (List.mem_of_mem_take (ha ▸ hq))
    have hbsmall : ∀ q ∈ b, q < 65536 := fun q hq => hps q (List.mem_of_mem_drop (hb ▸ hq))
    have hn8 : 8 - a.length - b.length = n := by omega
    rw [written?_joinPieces_gap hasmall hbsmall (by omega), Option.bind_some,
      filled_gap (by omega), hn8, ← hcut]
  · have hne : ps ≠ [] := List.ne_nil_of_length_pos (by omega)
    obtain ⟨q, qs, rfl⟩ := List.exists_cons_of_ne_nil hne
    have hqs : qs ≠ [] := by
      rintro rfl
      exact absurd hlength (by simp)
    have hread := pieces?_joinPieces (k := 1) (p := ⟨[], none⟩) hps (by simp [hlength])
    rw [hlength] at hread
    have hwritten := written?_joinPieces (a := q) (s := []) (.inl hqs)
    rw [List.append_nil] at hwritten
    rw [hwritten, hread]
    exact if_pos hlength

end DeclarationDocs.Url
