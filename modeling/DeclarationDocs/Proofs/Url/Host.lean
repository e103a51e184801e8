import DeclarationDocs.Proofs.Results
import DeclarationDocs.Proofs.Url.Address
import DeclarationDocs.Proofs.Url.Percent
import DeclarationDocs.Url

namespace DeclarationDocs.Url

open Text (hexDigit? lowerAscii decodeUtf8?)

/-!
# Hosts that are read back

A host of the web is a name in small letters, an IPv4 address, or an IPv6 address in brackets.  In
each of these forms it is read back as it is, and it holds nothing that ends an authority or takes
part of one.

* `HostText names h` — the text `h` is a host that stands in an authority as it is;
* `decodeUtf8?_decode` — a name without percent signs stands for itself;
* `hostText_of_readHost` — if `readHost names s = .ok h`, then `HostText names h`, for every
  conversion `names` of domain names.
-/

/-- A host that `names` reads back, and that the parts of an authority around it leave alone. -/
structure HostText (names : DomainNames) (h : List Char) : Prop where
  reread : readHost names h = .ok h
  ne_nil : h ≠ []
  lt_toNat : ∀ c ∈ h, 0x20 < c.toNat
  endsAuthority : ∀ c ∈ h, endsAuthority true c = false
  notMem : '@' ∉ h
  length : ∀ r, (r = [] ∨ r.head? = some ':') → hostLength false (h ++ r) = h.length

variable {names : DomainNames} {n : Nat} {c x : Char} {d s host : List Char} {ps : List Nat}

/-! ### Names -/

/-- A character that is no control character has one byte. -/
theorem decodeFrom_utf8EncodeChar {r : List UInt8} (hc : isControl c = false) :
    Text.decodeFrom 0 0 0 0 (String.utf8EncodeChar c ++ r) =
      some c :: Text.decodeFrom 0 0 0 0 r := by
  have hsmall : c.toNat < 0x80 := by
    have hle := (Bool.or_eq_false_iff.mp hc).2
    have hle' : ¬ 0x7E < c.toNat := by simpa using hle
    omega
  have hbytes : String.utf8EncodeChar c = [UInt8.ofNat c.toNat] := by
    rw [String.utf8EncodeChar.eq_1]
    exact if_pos (show c.toNat ≤ 127 by omega)
  have hbyte : (UInt8.ofNat c.toNat).toNat = c.toNat := by
    rw [UInt8.toNat_ofNat', Nat.mod_eq_of_lt (by omega)]
  have hlead : Text.leadByte c.toNat = some (0, 0, 0, c.toNat) := by
    rw [Text.leadByte, if_pos hsmall]
  rw [hbytes, List.singleton_append, Text.decodeFrom, hbyte, hlead]
  simp [Char.ofNat_toNat]

/-- **Plain names.**  A name without percent signs stands for itself. -/
theorem decodeUtf8?_decode (hd : ∀ c ∈ d, isForbidden c = false) :
    decodeUtf8? (decode d) = some (String.ofList d) := by
  have hdecode : decode d = d.flatMap String.utf8EncodeChar ∧
      Text.decodeFrom 0 0 0 0 (d.flatMap String.utf8EncodeChar) = d.map some := by
    induction d with
    | nil => exact ⟨by rw [decode]; rfl, rfl⟩
    | cons c r ih =>
      obtain ⟨hc, hr⟩ := List.forall_mem_cons.mp hd
      obtain ⟨hdecode, hfrom⟩ := ih hr
      have hpercent : c ≠ '%' := by
        rintro rfl
        exact absurd hc (by decide)
      refine ⟨?_, ?_⟩
      · rw [decode, hdecode, List.flatMap_cons]
        exact fun _ _ _ heq _ => hpercent heq
      · rw [List.flatMap_cons, decodeFrom_utf8EncodeChar (Bool.or_eq_false_iff.mp hc).1, hfrom,
          List.map_cons]
  have hall : ∀ l : List Char, (l.map some).mapM id = some l := by
    intro l
    induction l with
    | nil => rfl
    | cons c r ih => simp [ih]
  rw [decodeUtf8?, hdecode.1, hdecode.2, hall]
  rfl

/-- A name `d` with `names.toAscii d = some d` is read as itself, unless it ends in a number and is
    an address then. -/
theorem readDomain_of_toAscii (hne : d ≠ []) (hself : names.toAscii d = some d) :
    readDomain names d = if endsInNumber d then
      match ipv4? d with
      | some n => .ok (ipv4Text n)
      | none => .error .invalidIpv4
    else .ok d := by
  unfold readDomain
  rw [decodeUtf8?_decode (names.allowed hself), Option.bind_some, String.toList_ofList, hself]
  exact if_neg (by simpa using hne)

/-- A host without brackets goes to the first colon. -/
theorem hostLength_append {r : List Char} (hcolon : ':' ∉ d) (hopen : '[' ∉ d) :
    hostLength false (d ++ r) = d.length + hostLength false r := by
  induction d with
  | nil => rw [List.nil_append, List.length_nil, Nat.zero_add]
  | cons c d ih =>
    rw [List.mem_cons, not_or] at hcolon hopen
    have hc : ¬ (c = ':' ∧ (!false) = true) := fun h => hcolon.1 h.1.symm
    rw [List.cons_append, hostLength, if_neg hc, if_neg (Ne.symm hopen.1), ite_self,
      ih hcolon.2 hopen.2, List.length_cons]
    omega

/-- A host in brackets goes to the closing one. -/
theorem hostLength_bracketed {r : List Char} (hopen : '[' ∉ d) (hclose : ']' ∉ d) :
    hostLength true (d ++ ']' :: r) = d.length + 1 + hostLength false r := by
  induction d with
  | nil =>
    rw [List.nil_append, hostLength, if_neg (by decide), if_neg (by decide), if_pos rfl]
    rfl
  | cons c d ih =>
    rw [List.mem_cons, not_or] at hopen hclose
    rw [List.cons_append, hostLength, if_neg (by simp), if_neg (Ne.symm hopen.1),
      if_neg (Ne.symm hclose.1), ih hopen.2 hclose.2, List.length_cons]
    omega

/-- Behind a host there is nothing of it. -/
theorem hostLength_of_end {r : List Char} (hr : r = [] ∨ r.head? = some ':') :
    hostLength false r = 0 := by
  rcases hr with rfl | hr
  · rfl
  · obtain ⟨t, rfl⟩ := List.head?_eq_some_iff.mp hr
    rw [hostLength, if_pos ⟨rfl, rfl⟩]

/-- Only these characters end the authority of a URL. -/
theorem endsAuthority_eq_false {web : Bool} (hslash : c ≠ '/') (hquestion : c ≠ '?')
    (hhash : c ≠ '#') (hback : c ≠ '\\') : Url.endsAuthority web c = false := by
  simp [Url.endsAuthority, hslash, hquestion, hhash, hback]

/-- A name without forbidden characters is a host if it is read back. -/
theorem hostText_of_not_forbidden (hne : d ≠ []) (hd : ∀ c ∈ d, isForbidden c = false)
    (hread : readDomain names d = .ok d) : HostText names d := by
  have hchars : ∀ x ∈ " %#/:<>?@[\\]^|".toList, x ∉ d := by
    intro x hx hmem
    have hforbidden : isForbidden x = true := by
      rw [isForbidden, List.contains_iff_mem.mpr hx, Bool.or_true]
    rw [hd x hmem] at hforbidden
    exact Bool.noConfusion hforbidden
  have hother : ∀ x ∈ " %#/:<>?@[\\]^|".toList, ∀ c ∈ d, c ≠ x :=
    fun x hx c hc heq => hchars x hx (heq ▸ hc)
  have hopen : '[' ∉ d := hchars '[' (by decide)
  exact
    { reread := by
        rw [readHost, if_neg, hread]
        exact fun h => hopen (List.mem_of_head? h)
      ne_nil := hne
      lt_toNat := fun c hc => lt_toNat_of_not_isControl (Bool.or_eq_false_iff.mp (hd c hc)).1
        (hother ' ' (by decide) c hc)
      endsAuthority := fun c hc => endsAuthority_eq_false (hother '/' (by decide) c hc)
        (hother '?' (by decide) c hc) (hother '#' (by decide) c hc) (hother '\\' (by decide) c hc)
      notMem := hchars '@' (by decide)
      length := fun r hr => by
        rw [hostLength_append (hchars ':' (by decide)) hopen, hostLength_of_end hr, Nat.add_zero] }

/-! ### Addresses -/

/-- Digits are allowed in the names of hosts. -/
theorem not_isForbidden_of_isDigit (h : Text.isDigit c = true) : isForbidden c = false := by
  obtain ⟨hlow, hhigh⟩ := Text.isDigit_iff.mp h
  have hcontrol : isControl c = false := by
    rw [isControl, Bool.or_eq_false_iff, decide_eq_false_iff_not, decide_eq_false_iff_not]
    omega
  have hlist : Clean Text.isDigit " %#/:<>?@[\\]^|".toList := clean_iff_any.mpr (by decide)
  rw [isForbidden, hcontrol, Bool.false_or, Bool.eq_false_iff]
  intro hmem
  rw [hlist c (List.contains_iff_mem.mp hmem)] at h
  exact Bool.noConfusion h

/-- An IPv4 address is a host. -/
theorem hostText_ipv4Text (hn : n < Nat.pow 256 4) : HostText names (ipv4Text n) := by
  have hforbidden : ∀ c ∈ ipv4Text n, isForbidden c = false := by
    intro c hc
    rcases mem_ipv4Text hc with rfl | hdigit
    · decide
    · exact not_isForbidden_of_isDigit hdigit
  have hlower : lowerAscii (ipv4Text n) = ipv4Text n := by
    refine (List.map_congr_left fun c hc => ?_).trans (List.map_id _)
    rcases mem_ipv4Text hc with rfl | hdigit
    · decide
    · exact Text.toLower_of_lt (by have hle := (Text.isDigit_iff.mp hdigit).2; omega)
  have hne : ipv4Text n ≠ [] := by simp [ipv4Text]
  -- an address has no letters, so it does not look like a converted name
  have hself : names.toAscii (ipv4Text n) = some (ipv4Text n) := by
    refine names.plain hlower hforbidden fun hxn => ?_
    rcases mem_ipv4Text (hxn.subset (List.mem_cons_self (a := 'x'))) with hdot | hdigit
    · exact absurd hdot (by decide)
    · exact absurd hdigit (by decide)
  refine hostText_of_not_forbidden hne hforbidden ?_
  rw [readDomain_of_toAscii hne hself, if_pos (endsInNumber_ipv4Text n), ipv4?_ipv4Text hn]

/-- An IPv6 address in brackets is a host. -/
theorem hostText_bracketed (hlength : ps.length = 8) (hps : ∀ q ∈ ps, q < 65536) :
    HostText names ('[' :: ipv6Text ps ++ [']']) := by
  -- the characters between the brackets are digits and colons
  have hinner : ∀ c ∈ ipv6Text ps, 48 ≤ c.toNat ∧ c.toNat ≠ 63 ∧ c.toNat ≠ 64 ∧
      c.toNat ≠ 91 ∧ c.toNat ≠ 92 ∧ c.toNat ≠ 93 := by
    intro c hc
    rcases mem_ipv6Text hc with rfl | hdigit
    · decide
    · have hrows := Text.toNat_of_hexDigit? hdigit
      omega
  have hnotMem : ∀ x : Char, (x.toNat = 64 ∨ x.toNat = 91 ∨ x.toNat = 93) → x ∉ ipv6Text ps := by
    intro x hx hmem
    have hrange := hinner x hmem
    omega
  have hall : ∀ P : Char → Prop, P '[' → P ']' → (∀ c ∈ ipv6Text ps, P c) →
      ∀ c ∈ '[' :: ipv6Text ps ++ [']'], P c := by
    intro P hopen hclose hP c hc
    simp only [List.cons_append, List.mem_cons, List.mem_append, List.not_mem_nil, or_false] at hc
    rcases hc with rfl | hc | rfl
    · exact hopen
    · exact hP c hc
    · exact hclose
  exact
    { reread := by
        have hlast : ('[' :: ipv6Text ps ++ [']']).getLast? = some ']' := List.getLast?_concat
        have hbetween : (('[' :: ipv6Text ps ++ [']']).drop 1).dropLast = ipv6Text ps := by simp
        have hhead : ('[' :: ipv6Text ps ++ [']']).head? = some '[' := rfl
        rw [readHost, if_pos hhead, readBracketed, if_pos hlast, hbetween,
          ipv6?_ipv6Text hlength hps]
      ne_nil := by simp
      lt_toNat := hall _ (by decide) (by decide) fun c hc => by
        have hlow := (hinner c hc).1
        omega
      endsAuthority := by
        refine hall _ (by decide) (by decide) fun c hc => ?_
        have hrange := hinner c hc
        refine endsAuthority_eq_false ?_ ?_ ?_ ?_ <;> rintro rfl <;>
          exact absurd hrange (by decide)
      notMem := fun hmem => hall (· ≠ '@') (by decide) (by decide)
        (fun c hc heq => hnotMem '@' (by decide) (heq ▸ hc)) '@' hmem rfl
      length := fun r hr => by
        rw [List.cons_append, List.cons_append, List.append_assoc, List.singleton_append, hostLength,
          if_neg (by decide), if_pos rfl,
          hostLength_bracketed (hnotMem '[' (by decide)) (hnotMem ']' (by decide)),
          hostLength_of_end hr]
        simp only [List.length_cons, List.length_append, List.length_nil]
        omega }

/-! ### Hosts -/

/-- What a name is read as is a host. -/
theorem hostText_of_readDomain (h : readDomain names s = .ok host) : HostText names host := by
  unfold readDomain at h
  split at h
  · exact absurd h (by simp)
  rename_i d hconverted
  obtain ⟨_, -, hd⟩ := Option.bind_eq_some_iff.mp hconverted
  split at h
  · exact absurd h (by simp)
  rename_i hempty
  have hne : d ≠ [] := by simpa using hempty
  split at h
  · split at h
    · rename_i n hn
      obtain rfl := Except.ok.inj h
      exact hostText_ipv4Text (ipv4?_lt hn)
    · exact absurd h (by simp)
  · rename_i hnumber
    obtain rfl := Except.ok.inj h
    refine hostText_of_not_forbidden hne (names.allowed hd) ?_
    rw [readDomain_of_toAscii hne (names.again hd), if_neg hnumber]

/-- **Hosts are read back.** -/
theorem hostText_of_readHost (h : readHost names s = .ok host) : HostText names host := by
  unfold readHost at h
  split at h
  · unfold readBracketed at h
    split at h
    · split at h
      · rename_i ps hps
        obtain rfl := Except.ok.inj h
        obtain ⟨hlength, hsmall⟩ := ipv6?_spec hps
        exact hostText_bracketed hlength hsmall
      · exact absurd h (by simp)
    · exact absurd h (by simp)
  · exact hostText_of_readDomain h

end DeclarationDocs.Url
