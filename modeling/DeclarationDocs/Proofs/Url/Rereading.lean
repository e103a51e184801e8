import DeclarationDocs.Proofs.Url.Host
import DeclarationDocs.Proofs.Url.Resolving

namespace DeclarationDocs.Url

/-!
# URLs that are read back

A URL of the web that was read is in normal form, and a URL in normal form is read back from its
text, be it with the path of the server's root or without one.

* `u.Normal names` — what holds of every URL `u` of the web that was read with the conversion `names`
  of domain names, by `normal_of_parse`;
* `Normal.parse_front` — scheme and authority are read back, whatever stands behind them;
* `Normal.parse_text` — so the whole URL is.
-/

/-- Credentials, host and port as they are written. -/
def authority (u : Url) : List Char :=
  u.credentials ++ u.host ++ u.port.elim [] fun p => ':' :: Nat.toDigits 10 p

/-- What is written in front of the path. -/
def front (u : Url) : List Char := u.scheme ++ "://".toList ++ u.authority

/-- A character that counts, and that does not end an authority. -/
structure InAuthority (c : Char) : Prop where
  lt_toNat : 0x20 < c.toNat
  endsAuthority : endsAuthority true c = false

/-- A URL of the web in normal form, with a host that `names` converts to itself. -/
structure Normal (u : Url) (names : DomainNames) : Prop where
  scheme : ∃ d, defaultPort? u.scheme = some d ∧ u.port ≠ some d
  user : Clean specialInUser u.user
  password : ∀ p, u.password = some p → p ≠ [] ∧ Clean specialInUser p
  host : HostText names u.host
  port : ∀ p, u.port = some p → p < 65536
  path : Resolved u.path
  query : ∀ q, u.query = some q → Clean specialInQuery q
  fragment : ∀ f, u.fragment = some f → Clean specialInFragment f

variable {names : DomainNames} {u : Url} {c : Char} {s r a rest : List Char} {o : Option (List Char)}

/-! ### Reading gives normal forms -/

/-- Credentials are encoded when they are read. -/
theorem clean_readCredentials (s : List Char) : Clean specialInUser (readCredentials s).1 ∧
    ∀ p, (readCredentials s).2 = some p → p ≠ [] ∧ Clean specialInUser p := by
  refine ⟨clean_encode encodes_user _, fun p hp => ?_⟩
  unfold readCredentials at hp
  simp only at hp
  split at hp
  · exact absurd hp (by simp)
  · rename_i hne
    obtain rfl := Option.some.inj hp
    exact ⟨fun hnil => hne (List.isEmpty_iff.mpr (encode_eq_nil_iff.mp hnil)),
      clean_encode encodes_user _⟩

/-- So are those of a whole authority. -/
theorem clean_readAuthority (s : List Char) : Clean specialInUser (readAuthority s).user ∧
    ∀ p, (readAuthority s).password = some p → p ≠ [] ∧ Clean specialInUser p :=
  clean_readCredentials _

/-- A port is below `65536`. -/
theorem readPort_lt {p : Nat} (h : readPort s = .ok (some p)) : p < 65536 := by
  unfold readPort at h
  split at h
  · exact absurd h (by simp)
  · split at h
    · simp only at h
      split at h
      · rename_i hlt
        simp only [Except.ok.injEq, Option.some.injEq] at h
        exact h ▸ hlt
      · exact absurd h (by simp)
    · exact absurd h (by simp)

/-- What is read as a URL of the web is `Normal`. -/
theorem normal_of_parseWeb {scheme : List Char} {d : Nat} (hscheme : defaultPort? scheme = some d)
    (h : parseWeb names scheme d s = .ok u) : u.Normal names := by
  unfold parseWeb at h
  simp only at h
  split at h
  · exact absurd h (by simp)
  obtain ⟨host, hhost, h⟩ := bind_eq_ok_iff.mp h
  obtain ⟨port, hport, h⟩ := bind_eq_ok_iff.mp h
  obtain rfl := Except.ok.inj h
  obtain ⟨huser, hpassword⟩ := clean_readAuthority
    ((s.dropWhile fun c => c == '/' || c == '\\').takeWhile fun c => !endsAuthority true c)
  exact
    { scheme := ⟨d, hscheme, fun heq => by simpa using (Option.filter_eq_some_iff.mp heq).2⟩
      user := huser
      password := hpassword
      host := hostText_of_readHost hhost
      port := fun p hp => by
        obtain ⟨rfl, -⟩ := Option.filter_eq_some_iff.mp hp
        exact readPort_lt hport
      path := resolved_readPath _
      query := fun q hq => by
        obtain ⟨q, -, rfl⟩ := Option.map_eq_some_iff.mp hq
        exact clean_encode encodes_query q
      fragment := fun f hf => by
        obtain ⟨f, -, rfl⟩ := Option.map_eq_some_iff.mp hf
        exact clean_encode encodes_fragment f }

/-- **Whatever is read of the web is in normal form.** -/
theorem normal_of_parse (h : parse names s = .ok u) (hweb : defaultPort? u.scheme ≠ none) :
    u.Normal names := by
  unfold parse at h
  split at h
  · exact absurd h (by simp)
  rename_i scheme rest _
  split at h
  · rename_i d hd
    exact normal_of_parseWeb hd h
  · rename_i hnone
    obtain ⟨_, -, h⟩ := bind_eq_ok_iff.mp h
    obtain rfl := Except.ok.inj h
    exact absurd hnone hweb

/-! ### Authorities -/

/-- Where nothing is left out, everything counts. -/
theorem significant_of_lt (h : ∀ c ∈ s, 0x20 < c.toNat) : significant s = s := by
  have hdrop : ∀ l : List Char, (∀ c ∈ l, 0x20 < c.toNat) →
      l.dropWhile (fun c => decide (c.toNat ≤ 0x20)) = l := by
    intro l hl
    cases l with
    | nil => rfl
    | cons c r => exact List.dropWhile_cons_of_neg (by simpa using hl c List.mem_cons_self)
  have hlines : ∀ c ∈ s, (c != '\t' && c != '\n' && c != '\r') = true := by
    intro c hc
    have hlt := h c hc
    simp only [Bool.and_eq_true, bne_iff_ne]
    refine ⟨⟨?_, ?_⟩, ?_⟩ <;> rintro rfl <;> exact absurd hlt (by decide)
  unfold significant
  simp only
  rw [hdrop s h, hdrop s.reverse fun c hc => h c (List.mem_reverse.mp hc), List.reverse_reverse]
  exact List.filter_eq_self.mpr hlines

/-- The schemes with a default port are those of the web. -/
theorem web_cases {scheme : List Char} (h : defaultPort? scheme ≠ none) :
    scheme ∈ ["http".toList, "https".toList, "ws".toList, "wss".toList, "ftp".toList] := by
  obtain ⟨d, hd⟩ := Option.ne_none_iff_exists'.mp h
  simp only [defaultPort?, List.lookup_cons] at hd
  grind

/-- The schemes of the web are read up to their colon. -/
theorem scheme?_of_web {scheme : List Char} (h : defaultPort? scheme ≠ none) (r : List Char) :
    scheme? (scheme ++ ':' :: r) = some (scheme, r) := by
  have hweb := web_cases h
  simp only [List.mem_cons, List.not_mem_nil, or_false] at hweb
  rcases hweb with rfl | rfl | rfl | rfl | rfl <;> rfl

/-- A text goes on up to the first character that it does not have. -/
theorem takeWhile_ne_append (h : c ∉ a) (hr : r = [] ∨ r.head? = some c) :
    (a ++ r).takeWhile (· != c) = a := by
  have hall : ∀ x ∈ a, (x != c) = true := by
    intro x hx
    rw [bne_iff_ne]
    rintro rfl
    exact h hx
  rw [List.takeWhile_append_of_pos hall]
  rcases hr with rfl | hr
  · simp
  · obtain ⟨t, rfl⟩ := List.head?_eq_some_iff.mp hr
    simp

theorem head?_elim (c : Char) (o : Option (List Char)) :
    o.elim [] (c :: ·) = [] ∨ (o.elim [] (c :: ·)).head? = some c := by
  cases o with
  | none => exact .inl rfl
  | some t => exact .inr rfl

/-- What stands in front of a character that ends it is split off. -/
theorem splitFirst_append (h : c ∉ a) (o : Option (List Char)) :
    splitFirst c (a ++ o.elim [] (c :: ·)) = (a, o) := by
  unfold splitFirst
  simp only [takeWhile_ne_append h (head?_elim c o)]
  cases o with
  | none => simp
  | some t => simp

/-- Clean credentials are read as they are. -/
theorem readCredentials_of_clean {user : List Char} {password : Option (List Char)}
    (huser : Clean specialInUser user)
    (hpassword : ∀ p, password = some p → p ≠ [] ∧ Clean specialInUser p) :
    readCredentials (user ++ password.elim [] (':' :: ·)) = (user, password) := by
  have hcolon : ':' ∉ user := huser.notMem (by decide)
  unfold readCredentials
  simp only [takeWhile_ne_append hcolon (head?_elim ':' password), huser.encode_eq]
  cases password with
  | none => simp
  | some p =>
    obtain ⟨hne, hclean⟩ := hpassword p rfl
    simp [hne, hclean.encode_eq]

/-- Credentials are written in front of an `@`, and not at all if there are none. -/
theorem credentials_cases (u : Url) : u.credentials = [] ∧ u.user = [] ∧ u.password = none ∨
    u.credentials = u.user ++ u.password.elim [] (':' :: ·) ++ ['@'] := by
  unfold credentials
  cases u.password with
  | none =>
    cases u.user with
    | nil => exact .inl ⟨rfl, rfl, rfl⟩
    | cons c r => exact .inr (by simp)
  | some p =>
    cases u.user with
    | nil => exact .inr (by simp)
    | cons c r => exact .inr (by simp)

/-- The credentials of a normal URL are printed so that they are read again. -/
theorem Normal.exists_credentials (h : u.Normal names) : ∃ x, readCredentials x = (u.user, u.password) ∧
    (u.credentials = [] ∧ x = [] ∨ u.credentials = x ++ ['@']) := by
  refine ⟨_, readCredentials_of_clean h.user h.password, ?_⟩
  rcases credentials_cases u with ⟨hnone, huser, hpassword⟩ | hsome
  · exact .inl ⟨hnone, by rw [huser, hpassword]; rfl⟩
  · exact .inr hsome

/-- What stands behind the last `@` is host and port. -/
theorem readAuthority_append {x pre : List Char} (hat : '@' ∉ s)
    (hpre : pre = [] ∧ x = [] ∨ pre = x ++ ['@']) :
    readAuthority (pre ++ s) = ⟨(readCredentials x).1, (readCredentials x).2,
      s.take (hostLength false s),
      if hostLength false s < s.length then some (s.drop (hostLength false s + 1)) else none⟩ := by
  have hafter : ((pre ++ s).reverse.takeWhile (· != '@')).reverse = s := by
    rw [List.reverse_append, takeWhile_ne_append, List.reverse_reverse]
    · exact List.mem_reverse.not.mpr hat
    · rcases hpre with ⟨rfl, -⟩ | rfl <;> simp
  have hbefore : (pre ++ s).take ((pre ++ s).length - s.length - 1) = x := by
    rcases hpre with ⟨rfl, rfl⟩ | rfl
    · simp
    · have hlength : (x ++ ['@'] ++ s).length - s.length - 1 = x.length := by
        simp only [List.length_append, List.length_singleton]
        omega
      rw [hlength, List.append_assoc, List.take_left]
  unfold readAuthority
  simp only [hafter, hbefore]

/-- **Authorities are read back.** -/
theorem Normal.readAuthority (h : u.Normal names) : readAuthority u.authority =
    ⟨u.user, u.password, u.host, u.port.map (Nat.toDigits 10)⟩ := by
  obtain ⟨x, hx, hcredentials⟩ := h.exists_credentials
  have hat : '@' ∉ u.host ++ u.port.elim [] fun p => ':' :: Nat.toDigits 10 p := by
    rw [List.mem_append, not_or]
    refine ⟨h.host.notMem, ?_⟩
    cases u.port with
    | none => simp
    | some p => simpa using notMem_toDigits (by decide) p
  have hlength : hostLength false (u.host ++ u.port.elim [] fun p => ':' :: Nat.toDigits 10 p) =
      u.host.length := by
    refine h.host.length _ ?_
    cases u.port with
    | none => exact .inl rfl
    | some p => exact .inr rfl
  rw [authority, List.append_assoc, readAuthority_append hat hcredentials, hx, hlength,
    List.take_left]
  cases u.port with
  | none => simp
  | some p => simp [List.drop_append]

/-- A port is read from its digits, and no port from nothing. -/
theorem readPort_toDigits (o : Option Nat) (h : ∀ p, o = some p → p < 65536) :
    readPort ((o.map (Nat.toDigits 10)).getD []) = .ok o := by
  cases o with
  | none => rfl
  | some p =>
    have hdigits : (Nat.toDigits 10 p).all Text.isDigit = true :=
      List.all_eq_true.mpr fun x hx => Text.isDigit_of_mem_toDigits hx
    show readPort (Nat.toDigits 10 p) = _
    rw [readPort, if_neg (by simp), if_pos hdigits]
    simp only [Text.valueOfDigits_toDigits]
    rw [if_pos (h p rfl)]

/-- Clean credentials stay within the authority. -/
theorem Clean.inAuthority (hs : Clean specialInUser s) : ∀ c ∈ s, InAuthority c := by
  intro c hc
  refine ⟨hs.lt_toNat encodes_user c hc, endsAuthority_eq_false ?_ ?_ ?_ ?_⟩ <;> rintro rfl <;>
    exact hs.notMem (by decide) hc

theorem inAuthority_of_isDigit (h : Text.isDigit c = true) : InAuthority c := by
  have hrange := Text.isDigit_iff.mp h
  refine ⟨by omega, endsAuthority_eq_false ?_ ?_ ?_ ?_⟩ <;> rintro rfl <;>
    exact absurd hrange (by decide)

/-- Nothing in an authority ends it, and all of it counts. -/
theorem Normal.inAuthority (h : u.Normal names) : ∀ c ∈ u.authority, InAuthority c := by
  have hcolon : InAuthority ':' := ⟨by decide, by decide⟩
  have hat : InAuthority '@' := ⟨by decide, by decide⟩
  intro c hc
  unfold authority at hc
  rcases List.mem_append.mp hc with hc | hc
  · rcases List.mem_append.mp hc with hc | hc
    · rcases credentials_cases u with ⟨hnone, -, -⟩ | hsome
      · exact absurd (hnone ▸ hc) (by simp)
      · rw [hsome, List.mem_append, List.mem_append] at hc
        rcases hc with (hc | hc) | hc
        · exact h.user.inAuthority c hc
        · cases hpassword : u.password with
          | none => exact absurd hc (by simp [hpassword])
          | some p =>
            rw [hpassword, Option.elim_some] at hc
            rcases List.mem_cons.mp hc with rfl | hc
            · exact hcolon
            · exact (h.password p hpassword).2.inAuthority c hc
        · exact List.mem_singleton.mp hc ▸ hat
    · exact ⟨h.host.lt_toNat c hc, h.host.endsAuthority c hc⟩
  · cases hport : u.port with
    | none => exact absurd hc (by simp [hport])
    | some p =>
      rw [hport, Option.elim_some] at hc
      rcases List.mem_cons.mp hc with rfl | hc
      · exact hcolon
      · exact inAuthority_of_isDigit (Text.isDigit_of_mem_toDigits hc)

/-- All that is written in front of the path counts. -/
theorem Normal.lt_toNat_front (h : u.Normal names) : ∀ c ∈ u.front, 0x20 < c.toNat := by
  have hwritten : ∀ s ∈ ["://".toList, "http".toList, "https".toList, "ws".toList,
      "wss".toList, "ftp".toList], s.all (0x20 < ·.toNat) = true := by decide
  obtain ⟨d, hscheme, -⟩ := h.scheme
  have hweb : u.scheme ∈ _ := web_cases (by simp [hscheme])
  intro c hc
  simp only [front, List.mem_append] at hc
  rcases hc with (hc | hc) | hc
  · have hall := hwritten u.scheme (List.mem_cons_of_mem _ hweb)
    exact of_decide_eq_true (List.all_eq_true.mp hall c hc)
  · exact of_decide_eq_true (List.all_eq_true.mp (hwritten _ List.mem_cons_self) c hc)
  · exact (h.inAuthority c hc).lt_toNat

/-- The authority of a normal URL is not empty. -/
theorem Normal.authority_ne_nil (h : u.Normal names) : u.authority ≠ [] := by
  simp [authority, h.host.ne_nil]

/-! ### URLs -/

/-- What may stand behind an authority: a path or none, a query and a fragment. -/
structure Trailing (path : List Char) (query fragment : Option (List Char)) : Prop where
  head : path = [] ∨ path.head? = some '/'
  path : Clean specialInPath path
  query : ∀ q, query = some q → Clean specialInQuery q
  fragment : ∀ f, fragment = some f → Clean specialInFragment f

/-- The text of what stands behind an authority. -/
def trailing (path : List Char) (query fragment : Option (List Char)) : List Char :=
  path ++ query.elim [] ('?' :: ·) ++ fragment.elim [] ('#' :: ·)

/-- A URL is printed as its front, its path, and what stands behind the path. -/
theorem text_eq (u : Url) : u.text = u.front ++ trailing u.pathText u.query u.fragment := by
  simp [text, front, authority, target, trailing]

theorem Trailing.lt_toNat {path : List Char} {query fragment : Option (List Char)}
    (h : Trailing path query fragment) : ∀ c ∈ trailing path query fragment, 0x20 < c.toNat := by
  intro c hc
  unfold trailing at hc
  rcases List.mem_append.mp hc with hc | hc
  · rcases List.mem_append.mp hc with hc | hc
    · exact h.path.lt_toNat encodes_path c hc
    · cases query with
      | none => exact absurd hc (by simp)
      | some q =>
        rcases List.mem_cons.mp hc with rfl | hc
        · decide
        · exact (h.query q rfl).lt_toNat encodes_query c hc
  · cases fragment with
    | none => exact absurd hc (by simp)
    | some f =>
      rcases List.mem_cons.mp hc with rfl | hc
      · decide
      · exact (h.fragment f rfl).lt_toNat encodes_fragment c hc

/-- An authority ends where its trailing text begins. -/
theorem Trailing.head?_endsAuthority {path : List Char} {query fragment : Option (List Char)}
    (h : Trailing path query fragment) : trailing path query fragment = [] ∨
      ∃ c r, trailing path query fragment = c :: r ∧ endsAuthority true c = true := by
  unfold trailing
  rcases h.head with rfl | hslash
  · cases query with
    | none =>
      cases fragment with
      | none => exact .inl rfl
      | some f => exact .inr ⟨'#', f, rfl, rfl⟩
    | some q => exact .inr ⟨'?', _, rfl, rfl⟩
  · obtain ⟨t, rfl⟩ := List.head?_eq_some_iff.mp hslash
    exact .inr ⟨'/', _, rfl, rfl⟩

/-- What is clean is not encoded a second time. -/
theorem Clean.map_encode {special : Char → Bool} (h : ∀ t, o = some t → Clean special t) :
    o.map (encode special) = o := by
  cases o with
  | none => rfl
  | some t => exact congrArg some (h t rfl).encode_eq

/-- The trailing text is taken apart again. -/
theorem Trailing.splitFirst {path : List Char} {query fragment : Option (List Char)}
    (h : Trailing path query fragment) :
    splitFirst '#' (trailing path query fragment) = (path ++ query.elim [] ('?' :: ·), fragment) ∧
      splitFirst '?' (path ++ query.elim [] ('?' :: ·)) = (path, query) := by
  have hquery : '#' ∉ query.elim [] ('?' :: ·) := by
    cases query with
    | none => simp
    | some q => simpa using (h.query q rfl).notMem (by decide)
  have hhash : '#' ∉ path ++ query.elim [] ('?' :: ·) := by
    rw [List.mem_append, not_or]
    exact ⟨h.path.notMem (by decide), hquery⟩
  exact ⟨splitFirst_append hhash fragment, splitFirst_append (h.path.notMem (by decide)) query⟩

/-- The authority of a text of the web is what stands between the slashes and the trailing text. -/
theorem Normal.takeWhile_authority (h : u.Normal names) {path : List Char}
    {query fragment : Option (List Char)} (htrailing : Trailing path query fragment) :
    (('/' :: '/' :: (u.authority ++ trailing path query fragment)).dropWhile fun c =>
        c == '/' || c == '\\') = u.authority ++ trailing path query fragment ∧
      ((u.authority ++ trailing path query fragment).takeWhile fun c => !endsAuthority true c) =
        u.authority := by
  have hends : ∀ c ∈ u.authority, (!endsAuthority true c) = true :=
    fun c hc => by rw [(h.inAuthority c hc).endsAuthority]; rfl
  constructor
  · obtain ⟨c, r, hauthority⟩ := List.exists_cons_of_ne_nil h.authority_ne_nil
    have hc := (h.inAuthority c (hauthority ▸ List.mem_cons_self)).endsAuthority
    have hslash : (c == '/' || c == '\\') = false := by
      rw [Bool.or_eq_false_iff, beq_eq_false_iff_ne, beq_eq_false_iff_ne]
      constructor <;> rintro rfl <;> exact absurd hc (by decide)
    rw [List.dropWhile_cons_of_pos (by decide), List.dropWhile_cons_of_pos (by decide), hauthority,
      List.cons_append, List.dropWhile_cons_of_neg (by simpa using hslash)]
  · rw [List.takeWhile_append_of_pos hends]
    rcases htrailing.head?_endsAuthority with hnil | ⟨c, r, hcons, hc⟩
    · rw [hnil]
      simp
    · rw [hcons, List.takeWhile_cons_of_neg (by simp [hc]), List.append_nil]

/-- **Scheme and authority are read back**, and what stands behind them is read for itself. -/
theorem Normal.parse_front (h : u.Normal names) {path : List Char} {query fragment : Option (List Char)}
    (htrailing : Trailing path query fragment) :
    parse names (u.front ++ trailing path query fragment) =
      .ok { u with path := readPath path, query, fragment } := by
  obtain ⟨d, hscheme, hdefault⟩ := h.scheme
  have hweb : defaultPort? u.scheme ≠ none := by simp [hscheme]
  have htext : u.front ++ trailing path query fragment =
      u.scheme ++ ':' :: '/' :: '/' :: (u.authority ++ trailing path query fragment) := by
    simp [front]
  have hsignificant : ∀ c ∈ u.front ++ trailing path query fragment, 0x20 < c.toNat :=
    fun c hc => (List.mem_append.mp hc).elim (h.lt_toNat_front c) (htrailing.lt_toNat c)
  obtain ⟨hslashes, hauthority⟩ := h.takeWhile_authority htrailing
  have hport : u.port.filter (· != d) = u.port := by
    cases hp : u.port with
    | none => rfl
    | some p => simpa [hp] using hdefault
  rw [parse, significant_of_lt hsignificant, htext, scheme?_of_web hweb]
  simp only [hscheme]
  rw [parseWeb]
  simp only [hslashes, hauthority, List.drop_left, h.readAuthority]
  rw [if_neg (by simpa using h.host.ne_nil), h.host.reread, readPort_toDigits u.port h.port]
  show Except.ok _ = Except.ok _
  simp only [htrailing.splitFirst.1, htrailing.splitFirst.2, hport,
    Clean.map_encode htrailing.query, Clean.map_encode htrailing.fragment]

/-! ### Texts -/

/-- What stands behind the authority of a normal URL is `Trailing`. -/
theorem Normal.isTrailing (h : u.Normal names) : Trailing u.pathText u.query u.fragment where
  head := by
    rw [pathText, flatMap_slash h.path.ne_nil]
    exact .inr rfl
  path c hc := by
    obtain ⟨s, hs, hc⟩ := List.mem_flatMap.mp hc
    rcases List.mem_cons.mp hc with rfl | hc
    · decide
    · exact h.path.clean s hs c hc
  query := h.query
  fragment := h.fragment

/-- **URLs are read back.** -/
theorem Normal.parse_text (h : u.Normal names) : parse names u.text = .ok u := by
  rw [text_eq, h.parse_front h.isTrailing, pathText, h.path.readPath]

/-- Without a path, the root of the server is meant. -/
theorem Normal.parse_front_root (h : u.Normal names) :
    parse names u.front = .ok { u with path := [[]], query := none, fragment := none } := by
  have hnone : Trailing [] none none := ⟨.inl rfl, by simp [Clean], by simp, by simp⟩
  have hread := h.parse_front hnone
  rwa [trailing, Option.elim_none, Option.elim_none, List.append_nil, List.append_nil,
    List.append_nil] at hread

end DeclarationDocs.Url
