import DeclarationDocs.Proofs.Url.Rereading
import DeclarationDocs.Service.Client

namespace DeclarationDocs

/-!
# Endpoints that are read again

An endpoint is a URL in normal form without one slash at its end.  It is an endpoint again, and
loses another slash only if the URL ended in two of them.  Where it did not, nothing is lost any
more, and the path of a request is put behind it with one slash.

* `dropEndSlash_append` — only the end of a text loses a slash;
* `Url.Rereads names u v` — the URL `u` is read as `v` without its last slash;
  `Url.Normal.exists_rereads` — a URL in normal form is read as some URL;
* `readEndpoint_eq_ok_iff` — what an endpoint is read as;
* `readEndpoint_again` — an endpoint `e` is read again as `dropEndSlash e`.
-/

/-- Two slashes meet where the one text is put in front of the other. -/
def SlashesMeet (base path : String) : Prop := ['/'] <:+ base.toList ∧ ['/'] <+: path.toList

variable {names : Url.DomainNames} {service : ServiceKind} {written e : String}
  {ws : List Warning} {a b s : List Char}
  {u : Url}

/-! ### The slash at the end -/

/-- A text ends in a slash just when that is its last character. -/
theorem suffix_slash_iff : ['/'] <:+ s ↔ s.getLast? = some '/' := by
  rw [List.getLast?_eq_some_iff]
  exact ⟨fun ⟨t, ht⟩ => ⟨t, ht.symm⟩, fun ⟨t, ht⟩ => ⟨t, ht.symm⟩⟩

/-- Where there is no slash at the end none is dropped. -/
theorem dropEndSlash_of_not (h : ¬ ['/'] <:+ s) : dropEndSlash s = s :=
  if_neg fun hlast => h (suffix_slash_iff.mpr hlast)

theorem dropEndSlash_concat (s : List Char) : dropEndSlash (s ++ ['/']) = s := by
  rw [dropEndSlash, if_pos List.getLast?_concat, List.dropLast_concat]

/-- Nothing is lost just where there is no slash to lose. -/
theorem dropEndSlash_eq_self_iff : dropEndSlash s = s ↔ ¬ ['/'] <:+ s := by
  refine ⟨?_, dropEndSlash_of_not⟩
  rintro h ⟨t, rfl⟩
  rw [dropEndSlash_concat] at h
  exact absurd (congrArg List.length h) (by simp)

/-- Only the end of a text loses a slash. -/
theorem dropEndSlash_append (h : b ≠ []) : dropEndSlash (a ++ b) = a ++ dropEndSlash b := by
  rw [dropEndSlash, dropEndSlash, List.getLast?_append_of_ne_nil _ h]
  split
  · rw [List.dropLast_append_of_ne_nil h]
  · rfl

/-- A mark in front of a text is no part of its end. -/
theorem dropEndSlash_cons {c : Char} (hc : c ≠ '/') (s : List Char) :
    dropEndSlash (c :: s) = c :: dropEndSlash s := by
  cases s with
  | nil => exact dropEndSlash_of_not (by simpa [suffix_slash_iff] using hc)
  | cons d r => exact dropEndSlash_append (a := [c]) (by simp)

theorem dropEndSlash_subset (s : List Char) : dropEndSlash s ⊆ s := by
  unfold dropEndSlash
  split
  · exact List.dropLast_subset s
  · exact List.Subset.refl s

/-- A slash is left at the end just where there were two. -/
theorem suffix_dropEndSlash_iff : ['/'] <:+ dropEndSlash s ↔ ['/', '/'] <:+ s := by
  have hdouble : ∀ t : List Char, t ++ ['/', '/'] = t ++ ['/'] ++ ['/'] := by simp
  by_cases h : ['/'] <:+ s
  · obtain ⟨t, rfl⟩ := h
    rw [dropEndSlash_concat]
    constructor
    · rintro ⟨r, rfl⟩
      exact ⟨r, hdouble r⟩
    · rintro ⟨r, hr⟩
      rw [hdouble] at hr
      exact ⟨r, List.append_cancel_right hr⟩
  · rw [dropEndSlash_of_not h]
    refine iff_of_false h ?_
    rintro ⟨r, hr⟩
    exact h ⟨r ++ ['/'], by rw [← hdouble, hr]⟩

namespace Url

/-- What is written in front of the path does not end in a slash. -/
theorem Normal.not_suffix_front (h : u.Normal names) : ¬ ['/'] <:+ u.front := by
  intro hslash
  rw [front, suffix_slash_iff, List.getLast?_append_of_ne_nil _ h.authority_ne_nil] at hslash
  have hends := (h.inAuthority '/' (List.mem_of_getLast? hslash)).endsAuthority
  exact absurd hends (by decide)

/-- Without its last, empty segment a path is in normal form, unless it was the root. -/
theorem Resolved.of_concat {segs : List (List Char)} {last : List Char}
    (h : Resolved (segs ++ [last])) (hne : segs ≠ []) : Resolved segs where
  ne_nil := hne
  clean s hs := h.clean s (List.mem_append_left _ hs)
  slash s hs := h.slash s (List.mem_append_left _ hs)
  backslash s hs := h.backslash s (List.mem_append_left _ hs)
  name s hs := h.name s (List.mem_append_left _ hs)

/-- The URL `v` is what the text of `u` is read as without its last slash. -/
structure Rereads (names : DomainNames) (u v : Url) : Prop where
  parse : parse names (dropEndSlash u.text) = .ok v
  scheme : v.scheme = u.scheme
  host : v.host = u.host
  text : dropEndSlash v.text = dropEndSlash (dropEndSlash u.text)

/-- It is enough that the text without its last slash is that of a URL in normal form. -/
theorem Rereads.of_text {v : Url} (hv : v.Normal names) (hscheme : v.scheme = u.scheme)
    (hhost : v.host = u.host) (htext : dropEndSlash u.text = v.text) : Rereads names u v :=
  ⟨htext ▸ hv.parse_text, hscheme, hhost, by rw [htext]⟩

/-- Without query and fragment, the path ends the text. -/
theorem text_of_path (hquery : u.query = none) (hfragment : u.fragment = none) :
    u.text = u.front ++ u.path.flatMap ('/' :: ·) := by
  rw [text_eq, trailing, hquery, hfragment, Option.elim_none, Option.elim_none, List.append_nil,
    List.append_nil]
  rfl

/-- A path loses its last segment with the slash, if that segment is empty. -/
theorem Normal.exists_rereads_of_path (h : u.Normal names) (hquery : u.query = none)
    (hfragment : u.fragment = none) : ∃ v, Rereads names u v := by
  obtain ⟨segs, last, hpath⟩ := (List.eq_nil_or_concat u.path).resolve_left h.path.ne_nil
  rw [List.concat_eq_append] at hpath
  have hu : u.text = u.front ++ segs.flatMap ('/' :: ·) ++ '/' :: last := by
    rw [text_of_path hquery hfragment, hpath, List.flatMap_append, List.flatMap_singleton,
      ← List.append_assoc]
  by_cases hlast : last = []
  · subst hlast
    have hdrop : dropEndSlash u.text = u.front ++ segs.flatMap ('/' :: ·) := by
      rw [hu, dropEndSlash_concat]
    by_cases hsegs : segs = []
    · -- the root of the server is meant, be it written or not
      subst hsegs
      rw [List.flatMap_nil, List.append_nil] at hdrop
      refine ⟨{ u with path := [[]], query := none, fragment := none }, ?_, rfl, rfl, ?_⟩
      · rw [hdrop]
        exact h.parse_front_root
      · rw [hdrop, dropEndSlash_of_not h.not_suffix_front, text_of_path rfl rfl]
        exact dropEndSlash_concat u.front
    · refine ⟨{ u with path := segs }, .of_text
        { h with path := (hpath ▸ h.path).of_concat hsegs } rfl rfl ?_⟩
      exact hdrop.trans (text_of_path (u := { u with path := segs }) hquery hfragment).symm
  · refine ⟨u, .of_text h rfl rfl (dropEndSlash_of_not ?_)⟩
    rw [hu, suffix_slash_iff, List.getLast?_append_of_ne_nil _ (by simp),
      List.getLast?_cons_of_ne_nil hlast]
    exact fun hslash => h.path.slash last (hpath ▸ by simp) (List.mem_of_getLast? hslash)

/-- **URLs without their last slash.**  Such a text is read, with scheme and host as they were, and
    what is read is written without its last slash as the text is without its own. -/
theorem Normal.exists_rereads (h : u.Normal names) : ∃ v, Rereads names u v := by
  -- the slash is the end of the fragment, else of the query, else of the path
  cases hfragment : u.fragment with
  | some f =>
    refine ⟨{ u with fragment := some (dropEndSlash f) }, .of_text
      { h with fragment := fun g hg => ?_ } rfl rfl ?_⟩
    · obtain rfl := Option.some.inj hg
      exact (h.fragment f hfragment).of_subset (dropEndSlash_subset f)
    · rw [text_eq, text_eq, trailing, trailing, hfragment, Option.elim_some, Option.elim_some,
        ← List.append_assoc, dropEndSlash_append (by simp), dropEndSlash_cons (by decide),
        List.append_assoc]
      rfl
  | none =>
    cases hquery : u.query with
    | some q =>
      refine ⟨{ u with query := some (dropEndSlash q) }, .of_text
        { h with query := fun g hg => ?_ } rfl rfl ?_⟩
      · obtain rfl := Option.some.inj hg
        exact (h.query q hquery).of_subset (dropEndSlash_subset q)
      · rw [text_eq, text_eq, trailing, trailing, hfragment, hquery]
        simp only [Option.elim_none, Option.elim_some, List.append_nil]
        rw [← List.append_assoc, dropEndSlash_append (by simp), dropEndSlash_cons (by decide),
          List.append_assoc]
        rfl
    | none => exact h.exists_rereads_of_path hquery hfragment

end Url

/-! ### Endpoints -/

/-- The warning about a host that is not this machine. -/
def hostWarnings (service : ServiceKind) (host : String) : List Warning :=
  if localHosts.contains host then [] else [.notLocal service host]

/-- **Endpoints.**  A URL of HTTP is read as its text without its last slash. -/
theorem readEndpoint_eq_ok_iff : readEndpoint names service written = .ok (e, ws) ↔
    ∃ u, Url.parse names written.toList = .ok u ∧ (u.scheme = "http".toList ∨ u.scheme = "https".toList) ∧
      e = String.ofList (dropEndSlash u.text) ∧
      ws = hostWarnings service (String.ofList u.host) := by
  unfold readEndpoint
  constructor
  · intro h
    split at h
    · exact absurd h (by simp)
    · rename_i u hparse
      unfold endpointOf at h
      split at h
      · rename_i hweb
        obtain ⟨rfl, rfl⟩ := Prod.mk.inj (Except.ok.inj h)
        exact ⟨u, hparse, hweb, rfl, rfl⟩
      · exact absurd h (by simp)
  · rintro ⟨u, hparse, hweb, rfl, rfl⟩
    simp only [hparse]
    exact if_pos hweb

/-- The path of a request begins with a slash. -/
theorem prefix_generatePath (k : ServiceKind) : ['/'] <+: k.generatePath.toList := by
  cases k <;> decide

/-- **Endpoints are read again.**  If `readEndpoint names service written = .ok (e, ws)`, then `e`
    is read again, with the same warnings `ws` and as `dropEndSlash e`.  It ends in a slash just
    when the text of the URL ended in two, and just then it is not read as itself and a path
    behind it makes a double slash.  This holds for every conversion `names` of domain names. -/
theorem readEndpoint_again (h : readEndpoint names service written = .ok (e, ws)) :
    readEndpoint names service e = .ok (String.ofList (dropEndSlash e.toList), ws) ∧
      ∃ u, Url.parse names written.toList = .ok u ∧
        (['/'] <:+ e.toList ↔ ['/', '/'] <:+ u.text) ∧
        (readEndpoint names service e = .ok (e, ws) ↔ ¬ ['/', '/'] <:+ u.text) ∧
        ∀ k : ServiceKind, SlashesMeet e k.generatePath ↔ ['/', '/'] <:+ u.text := by
  obtain ⟨u, hparse, hweb, rfl, rfl⟩ := readEndpoint_eq_ok_iff.mp h
  have hport : Url.defaultPort? u.scheme ≠ none := by
    rcases hweb with hweb | hweb <;> rw [hweb] <;> decide
  obtain ⟨v, hv⟩ := (Url.normal_of_parse hparse hport).exists_rereads
  rw [String.toList_ofList]
  have hagain : readEndpoint names service (String.ofList (dropEndSlash u.text)) =
      .ok (String.ofList (dropEndSlash (dropEndSlash u.text)),
        hostWarnings service (String.ofList u.host)) := by
    refine readEndpoint_eq_ok_iff.mpr ⟨v, ?_, hv.scheme ▸ hweb, ?_, ?_⟩
    · rw [String.toList_ofList, hv.parse]
    · rw [hv.text]
    · rw [hv.host]
  refine ⟨hagain, u, hparse, suffix_dropEndSlash_iff, ?_, fun k => ?_⟩
  · rw [hagain, ← suffix_dropEndSlash_iff, ← dropEndSlash_eq_self_iff]
    simp [String.ofList_inj]
  · rw [SlashesMeet, String.toList_ofList, suffix_dropEndSlash_iff]
    exact and_iff_left (prefix_generatePath k)

/-- An address that is spelled at length is read as itself again. -/
theorem readEndpoint_again_address :
    readEndpoint .ascii .ollama "HTTP:\\\\0x7f000001:080/a/../v 1/" = .ok ("http://127.0.0.1/v%201", []) ∧
      readEndpoint .ascii .ollama "http://127.0.0.1/v%201" =
        .ok (String.ofList (dropEndSlash "http://127.0.0.1/v%201".toList), []) ∧
      ∃ u, Url.parse .ascii "HTTP:\\\\0x7f000001:080/a/../v 1/".toList = .ok u ∧
        (['/'] <:+ "http://127.0.0.1/v%201".toList ↔ ['/', '/'] <:+ u.text) ∧
        (readEndpoint .ascii .ollama "http://127.0.0.1/v%201" = .ok ("http://127.0.0.1/v%201", []) ↔
          ¬ ['/', '/'] <:+ u.text) ∧
        ∀ k : ServiceKind, SlashesMeet "http://127.0.0.1/v%201" k.generatePath ↔
          ['/', '/'] <:+ u.text := by
  have h : readEndpoint .ascii .ollama "HTTP:\\\\0x7f000001:080/a/../v 1/" =
      .ok ("http://127.0.0.1/v%201", []) := by
    with_unfolding_all rfl
  exact ⟨h, readEndpoint_again h⟩

/-- A second slash at the end is left there, and lost when the endpoint is read again. -/
theorem readEndpoint_two_slashes :
    readEndpoint .ascii .tgi "http://localhost:8080//" = .ok ("http://localhost:8080/", []) ∧
      readEndpoint .ascii .tgi "http://localhost:8080/" = .ok ("http://localhost:8080", []) :=
  ⟨by with_unfolding_all rfl, by with_unfolding_all rfl⟩

end DeclarationDocs
