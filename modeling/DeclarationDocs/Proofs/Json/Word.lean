import DeclarationDocs.Proofs.Json.Lexeme
import DeclarationDocs.Proofs.Results

namespace DeclarationDocs.Json

open Text (isDigit valueOfDigits)

/-!
# Reading words

The readers of `null`, `true`, `false` and of numbers look at characters of words only, and at
whether the word goes on.  So they give the same answer wherever the same word stands.

* `Agree s t` — two texts begin with the same characters of a word and then both leave it;
* `ReadsWord f` — where two texts agree, the reader `f` reads the same from both;
* `readsWord_numberAt`, `readsWord_word` — numbers and the letters of words are read so;
* `scalar_agree` — hence every value that is a word is.
-/

/-- The two texts are the same up to the end of the word they begin with. -/
inductive Agree : List Char → List Char → Prop
  | stop {s t : List Char} (hs : Boundary s) (ht : Boundary t) : Agree s t
  | more {x : Char} {s t : List Char} (hx : isWordChar x = true) (h : Agree s t) :
      Agree (x :: s) (x :: t)

/-- The same characters of a word lie between `c` and `d` as between `c'` and `d'`, and what is
    left of the word agrees. -/
def Abreast (c c' d d' : Cursor) : Prop :=
  ∃ u, (∀ x ∈ u, isWordChar x = true) ∧ c.rest = u ++ d.rest ∧ c'.rest = u ++ d'.rest
    ∧ Agree d.rest d'.rest

/-- A reader that reads the same from texts that agree. -/
def ReadsWord {α : Type} (f : Reader α) : Prop :=
  ∀ ⦃c c' d : Cursor⦄ ⦃a : α⦄, Agree c.rest c'.rest → f c = .ok (a, d) →
    ∃ d', f c' = .ok (a, d') ∧ Abreast c c' d d'

variable {c c' d d' e e' : Cursor} {s t r r' : List Char} {x : Char} {positive : Bool}

/-! ### Cursors -/

/-- Behind one character the tail is left. -/
@[simp] theorem Cursor.next_rest (c : Cursor) : c.next.rest = c.rest.tail := by
  unfold Cursor.next
  split <;> simp_all

/-! ### Texts that agree -/

/-- A character of a word ends none. -/
theorem not_boundary_cons (hx : isWordChar x = true) : ¬ Boundary (x :: s) := by
  intro h
  have hf : isWordChar x = false := h
  rw [hx] at hf
  cases hf

/-- The next characters of texts that agree are the same character of a word, or of none. -/
theorem Agree.head?_eq_iff (h : Agree s t) (hx : isWordChar x = true) :
    s.head? = some x ↔ t.head? = some x := by
  have hnone : ∀ {u : List Char}, Boundary u → u.head? ≠ some x := by
    intro u hu hhead
    obtain ⟨v, rfl⟩ := List.head?_eq_some_iff.mp hhead
    exact not_boundary_cons hx hu
  cases h with
  | stop hs ht => exact ⟨fun h => absurd h (hnone hs), fun h => absurd h (hnone ht)⟩
  | more _ _ => rfl

/-- Texts that agree up to the end of a word end one alike. -/
theorem Agree.boundary (h : Agree s t) (hs : Boundary s) : Boundary t := by
  cases h with
  | stop _ ht => exact ht
  | more hx _ => exact absurd hs (not_boundary_cons hx)

/-- A word agrees with itself, followed by anything that does not make it longer. -/
theorem agree_append {u : List Char} (hu : ∀ x ∈ u, isWordChar x = true) (hs : Boundary s)
    (ht : Boundary t) : Agree (u ++ s) (u ++ t) := by
  induction u with
  | nil => exact .stop hs ht
  | cons x u ih => exact .more (hu x (by simp)) (ih fun y hy => hu y (by simp [hy]))

/-- A text behind its word does not begin with a digit. -/
theorem span_isDigit_of_boundary (h : Boundary s) :
    s.takeWhile isDigit = [] ∧ s.dropWhile isDigit = s := by
  cases s with
  | nil => exact ⟨rfl, rfl⟩
  | cons x r =>
    have hx : isDigit x = false := by
      by_contra hd
      exact not_boundary_cons (isWordChar_of_isDigit (by simpa using hd)) h
    simp [hx]

/-- They have the same digits in front. -/
theorem Agree.takeWhile_isDigit (h : Agree s t) : s.takeWhile isDigit = t.takeWhile isDigit := by
  induction h with
  | stop hs ht => rw [(span_isDigit_of_boundary hs).1, (span_isDigit_of_boundary ht).1]
  | more _ _ ih => simp only [List.takeWhile_cons, ih]

/-- They agree behind these digits. -/
theorem Agree.dropWhile_isDigit (h : Agree s t) :
    Agree (s.dropWhile isDigit) (t.dropWhile isDigit) := by
  induction h with
  | stop hs ht =>
    rw [(span_isDigit_of_boundary hs).2, (span_isDigit_of_boundary ht).2]
    exact .stop hs ht
  | @more x _ _ hx h ih =>
    cases hd : isDigit x
    · simpa [hd] using Agree.more hx h
    · simpa [hd] using ih

/-! ### Cursors that keep abreast -/

/-- Two cursors are abreast at their start. -/
theorem Abreast.refl (h : Agree c.rest c'.rest) : Abreast c c' c c' :=
  ⟨[], by simp, rfl, rfl, h⟩

/-- Cursors that go on abreast have gone abreast all the way. -/
theorem Abreast.trans (h₁ : Abreast c c' d d') (h₂ : Abreast d d' e e') : Abreast c c' e e' := by
  obtain ⟨u, hu, hc, hc', -⟩ := h₁
  obtain ⟨v, hv, hd, hd', he⟩ := h₂
  refine ⟨u ++ v, ?_, by rw [hc, hd, List.append_assoc], by rw [hc', hd', List.append_assoc], he⟩
  intro x hx
  rcases List.mem_append.mp hx with hx | hx
  · exact hu x hx
  · exact hv x hx

/-- What is ahead of cursors abreast agrees. -/
theorem Abreast.agree (h : Abreast c c' d d') : Agree d.rest d'.rest := by
  obtain ⟨_, _, _, _, h⟩ := h
  exact h

/-- Both step over the same character of their word. -/
theorem Agree.next (h : Agree c.rest c'.rest) (hx : isWordChar x = true)
    (hc : c.rest.head? = some x) : Abreast c c' c.next c'.next := by
  have hc' := (h.head?_eq_iff hx).mp hc
  obtain ⟨r, hr⟩ := List.head?_eq_some_iff.mp hc
  obtain ⟨r', hr'⟩ := List.head?_eq_some_iff.mp hc'
  rw [hr, hr'] at h
  refine ⟨[x], by simpa using hx, by simp [hr], by simp [hr'], ?_⟩
  cases h with
  | stop hs _ => exact absurd hs (not_boundary_cons hx)
  | more _ h => simpa [hr, hr'] using h

/-- Read one character of the word, then the rest of it. -/
theorem ReadsWord.behind {α : Type} {f : Reader α} {a : α} (hf : ReadsWord f)
    (h : Agree c.rest c'.rest) (hx : isWordChar x = true) (hc : c.rest.head? = some x)
    (hok : f c.next = .ok (a, d)) : ∃ d', f c'.next = .ok (a, d') ∧ Abreast c c' d d' := by
  have hnext := h.next hx hc
  obtain ⟨d', hok', hd⟩ := hf hnext.agree hok
  exact ⟨d', hok', hnext.trans hd⟩

/-! ### Letters and digits -/

/-- A word is read letter by letter. -/
theorem word_cons_eq_ok_iff {letters : List Char} {a : Unit} :
    word (x :: letters) c = .ok (a, d)
      ↔ c.rest.head? = some x ∧ word letters c.next = .ok (a, d) := by
  simp only [word]
  cases hc : c.rest with
  | nil => simp
  | cons y r =>
    simp only [List.head?_cons, Option.some.injEq]
    split_ifs with hxy
    · simp [hxy]
    · simp [Ne.symm hxy]

/-- Reading the letters of a word depends on that word alone. -/
theorem readsWord_word {letters : List Char} (hl : ∀ x ∈ letters, isWordChar x = true) :
    ReadsWord (word letters) := by
  induction letters with
  | nil =>
    intro c c' d a h hok
    obtain ⟨rfl, rfl⟩ : a = () ∧ c = d := by simpa [word] using hok
    exact ⟨c', rfl, Abreast.refl h⟩
  | cons y letters ih =>
    intro c c' d a h hok
    have hy : isWordChar y = true := hl y (by simp)
    have hrest : ReadsWord (word letters) := ih fun z hz => hl z (by simp [hz])
    obtain ⟨hc, hok⟩ := word_cons_eq_ok_iff.mp hok
    obtain ⟨d', hok', hd⟩ := hrest.behind h hy hc hok
    exact ⟨d', word_cons_eq_ok_iff.mpr ⟨(h.head?_eq_iff hy).mp hc, hok'⟩, hd⟩

/-- Dropping digits steps over all of them and counts them. -/
theorem dropDigits_spec {k : Nat} (hc : c.rest = s) :
    (dropDigits s k c).1 = k + (s.takeWhile isDigit).length
      ∧ (dropDigits s k c).2.rest = s.dropWhile isDigit := by
  induction s generalizing k c with
  | nil => exact ⟨rfl, hc⟩
  | cons x r ih =>
    cases hd : isDigit x
    · simp [dropDigits, hd, hc]
    · obtain ⟨h1, h2⟩ := ih (k := k + 1) (show c.next.rest = r by simp [hc])
      simp only [dropDigits, hd, if_true, List.takeWhile_cons, List.dropWhile_cons,
        List.length_cons]
      exact ⟨by omega, h2⟩

/-- Digits are dropped abreast. -/
theorem abreast_dropDigits {k : Nat} (h : Agree c.rest c'.rest) :
    (dropDigits c.rest k c).1 = (dropDigits c'.rest k c').1
      ∧ Abreast c c' (dropDigits c.rest k c).2 (dropDigits c'.rest k c').2 := by
  obtain ⟨hn, hr⟩ := dropDigits_spec (c := c) (k := k) rfl
  obtain ⟨hn', hr'⟩ := dropDigits_spec (c := c') (k := k) rfl
  refine ⟨by rw [hn, hn', h.takeWhile_isDigit], c.rest.takeWhile isDigit, ?_, ?_, ?_, ?_⟩
  · intro x hx
    exact isWordChar_of_isDigit (List.mem_takeWhile_imp hx)
  · rw [hr, List.takeWhile_append_dropWhile]
  · rw [hr', h.takeWhile_isDigit, List.takeWhile_append_dropWhile]
  · rw [hr, hr']
    exact h.dropWhile_isDigit

/-- Digits are read abreast, with the same number. -/
theorem abreast_digits (h : Agree s t) (hc : c.rest = s) (hc' : c'.rest = t) (n used : Nat) :
    (digits s n used c).1 = (digits t n used c').1
      ∧ (digits s n used c).2.1 = (digits t n used c').2.1
      ∧ Abreast c c' (digits s n used c).2.2 (digits t n used c').2.2 := by
  induction h generalizing c c' n used with
  | @stop s t hs ht =>
    -- where words end, no digit follows in either text
    have hstop : ∀ {s : List Char} {c : Cursor}, Boundary s → digits s n used c = (n, used, c) := by
      intro s c hs
      have hd := (span_isDigit_of_boundary hs).1
      cases s with
      | nil => rfl
      | cons x r =>
        have hx : isDigit x = false := by
          by_contra hx
          simp [hx] at hd
        simp [digits, hx]
    rw [hstop hs, hstop ht]
    exact ⟨rfl, rfl, Abreast.refl (by rw [hc, hc']; exact .stop hs ht)⟩
  | @more x s t hx h ih =>
    simp only [digits]
    split
    · have hall : Agree c.rest c'.rest := by
        rw [hc, hc']
        exact .more hx h
      have hnext := hall.next hx (by rw [hc, List.head?_cons])
      have hs : c.next.rest = s := by simp [hc]
      have ht : c'.next.rest = t := by simp [hc']
      obtain ⟨h1, h2, h3⟩ := ih hs ht (n * 10 + Text.digitValue x) (used + 1)
      exact ⟨h1, h2, hnext.trans h3⟩
    · exact ⟨rfl, rfl, Abreast.refl (by rw [hc, hc']; exact .more hx h)⟩

/-! ### Numbers -/

/-- The sign of an exponent, if there is one. -/
def signAt (c : Cursor) : Bool × Cursor :=
  match c.rest with
  | '+' :: _ => (false, c.next)
  | '-' :: _ => (true, c.next)
  | _ => (false, c)

/-- An exponent behind its sign. -/
def exponentDigits (positive : Bool) (significand : Nat) (exponent : Int) (down : Bool) :
    Reader JsonNumber :=
  fun c =>
  match c.rest with
  | [] => .error (c.fault .eofValue)
  | x :: _ =>
    if !isDigit x then .error (c.faultAfter .invalidNumber)
    else
      let (count, c') := dropDigits c.rest 0 c
      let written := c.rest.take count
      let e := valueOfDigits written
      if e ≤ 2147483647 then
        match floatOf positive significand (if down then exponent - e else exponent + e) with
        | some f => .ok (.float f, c')
        | none => .error (c'.fault .numberOutOfRange)
      else if significand ≠ 0 ∧ !down then
        let kept := (List.range count).find? fun k => valueOfDigits (written.take (k + 1)) > 2147483647
        .error ((c.skip (kept.getD 0 + 1)).fault .numberOutOfRange)
      else .ok (.float (if positive then 0.0 else -0.0), c')

/-- An exponent behind its `e`. -/
def exponentBehind (positive : Bool) (significand : Nat) (exponent : Int) : Reader JsonNumber :=
  fun c => exponentDigits positive significand exponent (signAt c).1 (signAt c).2

/-- Behind its letter an exponent is read by `exponentBehind`. -/
theorem exponentPart_eq (positive : Bool) (significand : Nat) (exponent : Int) (c : Cursor) :
    exponentPart positive significand exponent c
      = exponentBehind positive significand exponent c.next := rfl

/-- A fraction behind its point. -/
def fractionBehind (positive : Bool) (significand : Nat) (exponent : Int) : Reader JsonNumber :=
  fun c =>
  match c.rest with
  | [] => .error (c.fault .eofValue)
  | x :: _ =>
    if !isDigit x then .error (c.faultAfter .invalidNumber)
    else
      let (n, used, c) := digits c.rest significand 0 c
      let (_, c) := dropDigits c.rest 0 c
      floatTail positive n (exponent - used) c

/-- Behind its point a fraction is read by `fractionBehind`. -/
theorem fractionPart_eq (positive : Bool) (significand : Nat) (exponent : Int) (c : Cursor) :
    fractionPart positive significand exponent c
      = fractionBehind positive significand exponent c.next := rfl

/-- The sign of an exponent may be left out. -/
theorem signAt_eq (c : Cursor) :
    signAt c = if c.rest.head? = some '+' then (false, c.next)
      else if c.rest.head? = some '-' then (true, c.next) else (false, c) := by
  unfold signAt
  split <;> simp_all [List.head?_eq_some_iff]

/-- A sign is read abreast. -/
theorem abreast_signAt (h : Agree c.rest c'.rest) :
    (signAt c).1 = (signAt c').1 ∧ Abreast c c' (signAt c).2 (signAt c').2 := by
  have hp : isWordChar '+' = true := by decide
  have hm : isWordChar '-' = true := by decide
  rw [signAt_eq c, signAt_eq c']
  simp only [← h.head?_eq_iff hp, ← h.head?_eq_iff hm]
  split_ifs with h1 h2
  · exact ⟨rfl, h.next hp h1⟩
  · exact ⟨rfl, h.next hm h2⟩
  · exact ⟨rfl, Abreast.refl h⟩

/-- The number with the digits of its exponent. -/
def exponentValue (positive : Bool) (significand : Nat) (exponent : Int) (down : Bool)
    (written : List Char) : Option JsonNumber :=
  let e := valueOfDigits written
  if e ≤ 2147483647 then
    (floatOf positive significand (if down then exponent - e else exponent + e)).map .float
  else if significand ≠ 0 ∧ !down then none
  else some (.float (if positive then 0.0 else -0.0))

/-- An exponent has a digit, and its value comes of all of them. -/
theorem exponentDigits_eq_ok_iff {significand : Nat} {exponent : Int} {down : Bool}
    {n : JsonNumber} :
    exponentDigits positive significand exponent down c = .ok (n, d)
      ↔ (∃ x, c.rest.head? = some x ∧ isDigit x = true)
        ∧ exponentValue positive significand exponent down (c.rest.takeWhile isDigit) = some n
        ∧ d = (dropDigits c.rest 0 c).2 := by
  have hwritten : c.rest.take (dropDigits c.rest 0 c).1 = c.rest.takeWhile isDigit := by
    rw [(dropDigits_spec rfl).1, Nat.zero_add]
    exact (List.prefix_iff_eq_take.mp (List.takeWhile_prefix isDigit)).symm
  unfold exponentDigits exponentValue
  cases hc : c.rest with
  | nil => simp
  | cons x r =>
    rw [hc] at hwritten
    simp only [hwritten, List.head?_cons, Option.some.injEq, exists_eq_left']
    cases hx : isDigit x
    · simp
    simp only [Bool.not_true, Bool.false_eq_true, if_false, true_and]
    generalize valueOfDigits ((x :: r).takeWhile isDigit) = k
    by_cases hsmall : k ≤ 2147483647
    · rw [if_pos hsmall, if_pos hsmall]
      cases floatOf positive significand (if down then exponent - k else exponent + k) <;>
        simp [eq_comm]
    rw [if_neg hsmall, if_neg hsmall]
    by_cases hlarge : significand ≠ 0 ∧ (!down) = true
    · simp [hlarge]
    · rw [if_neg hlarge, if_neg hlarge]
      simp [eq_comm]

/-- Reading an exponent depends on the word that it ends alone. -/
theorem readsWord_exponentDigits (significand : Nat) (exponent : Int) (down : Bool) :
    ReadsWord (exponentDigits positive significand exponent down) := by
  intro c c' d n h hok
  obtain ⟨⟨x, hx, hdigit⟩, hvalue, rfl⟩ := exponentDigits_eq_ok_iff.mp hok
  refine ⟨(dropDigits c'.rest 0 c').2, exponentDigits_eq_ok_iff.mpr ⟨⟨x, ?_, hdigit⟩, ?_, rfl⟩,
    (abreast_dropDigits h).2⟩
  · exact (h.head?_eq_iff (isWordChar_of_isDigit hdigit)).mp hx
  · rw [← h.takeWhile_isDigit, hvalue]

/-- So it does with its sign. -/
theorem readsWord_exponentBehind (significand : Nat) (exponent : Int) :
    ReadsWord (exponentBehind positive significand exponent) := by
  intro c c' d n h hok
  obtain ⟨hdown, hsign⟩ := abreast_signAt h
  obtain ⟨d', hok', hd⟩ := readsWord_exponentDigits _ _ _ hsign.agree hok
  rw [hdown] at hok'
  exact ⟨d', hok', hsign.trans hd⟩

/-- Whether the next character is one of the given ones. -/
def At (xs : List Char) (c : Cursor) : Prop := ∃ x ∈ xs, c.rest.head? = some x

instance (xs : List Char) (c : Cursor) : Decidable (At xs c) := List.decidableBEx _ xs

/-- A reader that goes on behind one of the given characters, or as another one does. -/
theorem readsWord_ite {α : Type} {f g : Reader α} {xs : List Char}
    (hxs : ∀ x ∈ xs, isWordChar x = true) (hf : ReadsWord f) (hg : ReadsWord g) :
    ReadsWord fun c => if At xs c then f c.next else g c := by
  intro c c' d n h hok
  have hiff : At xs c ↔ At xs c' := by
    constructor
    · rintro ⟨x, hx, hc⟩
      exact ⟨x, hx, (h.head?_eq_iff (hxs x hx)).mp hc⟩
    · rintro ⟨x, hx, hc⟩
      exact ⟨x, hx, (h.head?_eq_iff (hxs x hx)).mpr hc⟩
  by_cases hat : At xs c
  · simp only [if_pos hat, if_pos (hiff.mp hat)] at hok ⊢
    obtain ⟨x, hx, hc⟩ := hat
    exact hf.behind h (hxs x hx) hc hok
  · simp only [if_neg hat, if_neg (mt hiff.mpr hat)] at hok ⊢
    exact hg h hok

/-- A reader that steps over nothing. -/
theorem readsWord_ok {α : Type} (a : α) : ReadsWord fun c => .ok (a, c) := by
  intro c c' d a' h hok
  obtain ⟨rfl, rfl⟩ : a = a' ∧ c = d := by simpa using hok
  exact ⟨c', rfl, Abreast.refl h⟩

/-- What stands for a number without an exponent. -/
def plainFloat (positive : Bool) (significand : Nat) (exponent : Int) : Reader JsonNumber :=
  fun c =>
  match floatOf positive significand exponent with
  | some f => .ok (.float f, c)
  | none => .error (c.fault .numberOutOfRange)

/-- Making the number where there is no exponent reads nothing more. -/
theorem readsWord_plainFloat (significand : Nat) (exponent : Int) :
    ReadsWord (plainFloat positive significand exponent) := by
  cases hf : floatOf positive significand exponent with
  | none =>
    intro c c' d n h hok
    simp [plainFloat, hf] at hok
  | some f =>
    have heq : plainFloat positive significand exponent = fun c => .ok (.float f, c) := by
      funext c
      simp [plainFloat, hf]
    rw [heq]
    exact readsWord_ok _

/-- Behind a fraction there is an exponent, or the number is made. -/
theorem floatTail_eq (positive : Bool) (significand : Nat) (exponent : Int) :
    floatTail positive significand exponent = fun c =>
      if At ['e', 'E'] c then exponentBehind positive significand exponent c.next
      else plainFloat positive significand exponent c := by
  funext c
  unfold floatTail
  split
  · rename_i hc
    rw [if_pos ⟨'e', by simp, by simp [hc]⟩, exponentPart_eq]
  · rename_i hc
    rw [if_pos ⟨'E', by simp, by simp [hc]⟩, exponentPart_eq]
  · rename_i he hE
    rw [if_neg]
    · rfl
    · simpa [At, List.head?_eq_some_iff] using ⟨he, hE⟩

/-- What stands behind a fraction depends on the word alone. -/
theorem readsWord_floatTail (significand : Nat) (exponent : Int) :
    ReadsWord (floatTail positive significand exponent) := by
  rw [floatTail_eq]
  exact readsWord_ite (List.all_eq_true.mp (by decide)) (readsWord_exponentBehind _ _)
    (readsWord_plainFloat _ _)

/-- A fraction has a digit; its digits move the exponent, or are dropped. -/
theorem fractionBehind_eq_ok_iff {significand : Nat} {exponent : Int} {n : JsonNumber} :
    fractionBehind positive significand exponent c = .ok (n, d)
      ↔ (∃ x, c.rest.head? = some x ∧ isDigit x = true)
        ∧ floatTail positive (digits c.rest significand 0 c).1
            (exponent - (digits c.rest significand 0 c).2.1)
            (dropDigits (digits c.rest significand 0 c).2.2.rest 0
              (digits c.rest significand 0 c).2.2).2 = .ok (n, d) := by
  unfold fractionBehind
  cases hc : c.rest with
  | nil => simp
  | cons x r => cases hx : isDigit x <;> simp [hx]

/-- Reading a fraction depends on the word alone. -/
theorem readsWord_fractionBehind (significand : Nat) (exponent : Int) :
    ReadsWord (fractionBehind positive significand exponent) := by
  intro c c' d n h hok
  obtain ⟨⟨x, hx, hdigit⟩, htail⟩ := fractionBehind_eq_ok_iff.mp hok
  obtain ⟨hn, hused, hdigits⟩ := abreast_digits h rfl rfl significand 0
  obtain ⟨-, hdrop⟩ := abreast_dropDigits hdigits.agree (k := 0)
  obtain ⟨d', htail', hd⟩ := readsWord_floatTail _ _ hdrop.agree htail
  rw [hn, hused] at htail'
  refine ⟨d', fractionBehind_eq_ok_iff.mpr ⟨⟨x, ?_, hdigit⟩, htail'⟩,
    hdigits.trans (hdrop.trans hd)⟩
  exact (h.head?_eq_iff (isWordChar_of_isDigit hdigit)).mp hx

/-- What stands for a number without a fraction and an exponent. -/
def wholeNumber (positive : Bool) (significand : Nat) : JsonNumber :=
  if positive then .int significand
  else if significand = 0 ∨ Nat.pow 2 63 < significand then .float (-(Float.ofNat significand))
  else .int (-significand)

/-- Behind the digits there is a fraction, an exponent or nothing. -/
theorem numberTail_eq (positive : Bool) (significand : Nat) :
    numberTail positive significand = fun c =>
      if At ['.'] c then fractionBehind positive significand 0 c.next
      else if At ['e', 'E'] c then exponentBehind positive significand 0 c.next
      else .ok (wholeNumber positive significand, c) := by
  funext c
  unfold numberTail
  split
  · rename_i hc
    rw [if_pos ⟨'.', by simp, by simp [hc]⟩, fractionPart_eq]
  · rename_i hc
    rw [if_neg (by simp [At, hc]), if_pos ⟨'e', by simp, by simp [hc]⟩, exponentPart_eq]
  · rename_i hc
    rw [if_neg (by simp [At, hc]), if_pos ⟨'E', by simp, by simp [hc]⟩, exponentPart_eq]
  · rename_i hp he hE
    have hpoint : ¬ At ['.'] c := by simpa [At, List.head?_eq_some_iff] using hp
    have hexp : ¬ At ['e', 'E'] c := by simpa [At, List.head?_eq_some_iff] using ⟨he, hE⟩
    simp only [if_neg hpoint, if_neg hexp, wholeNumber]
    split_ifs <;> rfl

/-- What stands behind the digits depends on the word alone. -/
theorem readsWord_numberTail (significand : Nat) :
    ReadsWord (numberTail positive significand) := by
  rw [numberTail_eq]
  exact readsWord_ite (List.all_eq_true.mp (by decide)) (readsWord_fractionBehind _ _)
    (readsWord_ite (List.all_eq_true.mp (by decide)) (readsWord_exponentBehind _ _)
      (readsWord_ok _))

/-- A number of so many digits that some of them are not kept. -/
def largeTail (positive : Bool) (significand more : Nat) : Reader JsonNumber :=
  fun c =>
  match c.rest with
  | '.' :: _ => fractionPart positive significand more c
  | _ => floatTail positive significand more c

/-- So it is behind digits of which some were dropped, but for whole numbers. -/
theorem largeTail_eq (positive : Bool) (significand more : Nat) :
    largeTail positive significand more = fun c =>
      if At ['.'] c then fractionBehind positive significand more c.next
      else floatTail positive significand more c := by
  funext c
  unfold largeTail
  split
  · rename_i hc
    rw [if_pos ⟨'.', by simp, by simp [hc]⟩, fractionPart_eq]
  · rename_i hp
    rw [if_neg (by simpa [At, List.head?_eq_some_iff] using hp)]

/-- What stands behind these depends on the word alone. -/
theorem readsWord_largeTail (significand more : Nat) :
    ReadsWord (largeTail positive significand more) := by
  rw [largeTail_eq]
  exact readsWord_ite (List.all_eq_true.mp (by decide)) (readsWord_fractionBehind _ _)
    (readsWord_floatTail _ _)

/-- A number that does not begin with a zero. -/
def digitsTail (positive : Bool) : Reader JsonNumber :=
  fun c =>
  let kept := digits c.rest 0 0 c
  let more := dropDigits kept.2.2.rest 0 kept.2.2
  if more.1 = 0 then numberTail positive kept.1 kept.2.2
  else largeTail positive kept.1 more.1 more.2

/-- Reading a number from a first digit on depends on the word alone. -/
theorem readsWord_digitsTail : ReadsWord (digitsTail positive) := by
  intro c c' d n h hok
  obtain ⟨hn, -, hdigits⟩ := abreast_digits h rfl rfl 0 0
  obtain ⟨hmore, hdrop⟩ := abreast_dropDigits hdigits.agree (k := 0)
  simp only [digitsTail, ← hn, ← hmore] at hok ⊢
  split_ifs at hok ⊢ with h0
  · obtain ⟨d', hok', hd⟩ := readsWord_numberTail _ hdigits.agree hok
    exact ⟨d', hok', hdigits.trans hd⟩
  · obtain ⟨d', hok', hd⟩ := readsWord_largeTail _ _ hdrop.agree hok
    exact ⟨d', hok', hdigits.trans (hdrop.trans hd)⟩

/-- A number that begins with a zero has no other digits in front of its point. -/
def zeroTail (positive : Bool) : Reader JsonNumber :=
  fun c =>
  match c.rest with
  | x :: _ => if isDigit x then .error (c.faultAfter .invalidNumber) else numberTail positive 0 c
  | [] => numberTail positive 0 c

/-- No digit stands behind a zero in front. -/
theorem zeroTail_eq_ok_iff {n : JsonNumber} :
    zeroTail positive c = .ok (n, d)
      ↔ (∀ x, c.rest.head? = some x → isDigit x = false) ∧ numberTail positive 0 c = .ok (n, d) := by
  unfold zeroTail
  cases hc : c.rest with
  | nil => simp
  | cons x r => cases hx : isDigit x <;> simp [hx]

/-- Reading a number from a zero on depends on the word alone. -/
theorem readsWord_zeroTail : ReadsWord (zeroTail positive) := by
  intro c c' d n h hok
  obtain ⟨hhead, hok⟩ := zeroTail_eq_ok_iff.mp hok
  obtain ⟨d', hok', hd⟩ := readsWord_numberTail _ h hok
  refine ⟨d', zeroTail_eq_ok_iff.mpr ⟨fun x hx => ?_, hok'⟩, hd⟩
  cases hdigit : isDigit x with
  | false => rfl
  | true =>
    have hx' := (h.head?_eq_iff (isWordChar_of_isDigit hdigit)).mpr hx
    rw [hhead x hx'] at hdigit
    cases hdigit

/-- A number that begins with a zero is read by `zeroTail`. -/
theorem numberAt_of_zero (hc : c.rest = '0' :: r) :
    numberAt positive c = zeroTail positive c.next := by
  have hr : c.next.rest = r := by simp [hc]
  unfold numberAt zeroTail
  rw [hc, hr]
  cases r <;> rfl

/-- A number begins with a digit, or there is a fault. -/
theorem numberAt_of_ne (hc : c.rest = x :: r) (hx : x ≠ '0') :
    numberAt positive c = if !isDigit x then .error (c.faultAfter .invalidNumber)
      else digitsTail positive c := by
  unfold numberAt
  split
  · rename_i hnil
    rw [hc] at hnil
    cases hnil
  · rename_i hzero
    obtain ⟨rfl, -⟩ : x = '0' ∧ _ := by simpa [hc] using hzero
    exact absurd rfl hx
  · rename_i y t _ hy
    obtain ⟨rfl, rfl⟩ : x = y ∧ r = t := by simpa [hc] using hy
    rfl

/-- A number without a sign begins with a zero or with another digit. -/
theorem numberAt_eq_ok_iff {n : JsonNumber} :
    numberAt positive c = .ok (n, d)
      ↔ (c.rest.head? = some '0' ∧ zeroTail positive c.next = .ok (n, d))
        ∨ (∃ x, c.rest.head? = some x ∧ isDigit x = true ∧ x ≠ '0')
          ∧ digitsTail positive c = .ok (n, d) := by
  cases hc : c.rest with
  | nil => simp [numberAt, hc]
  | cons x r =>
    by_cases hx : x = '0'
    · subst hx
      simp [numberAt_of_zero hc]
    · rw [numberAt_of_ne hc hx]
      cases hdigit : isDigit x <;> simp [hx, hdigit]

/-- Numbers are read from words. -/
theorem readsWord_numberAt : ReadsWord (numberAt positive) := by
  intro c c' d n h hok
  rcases numberAt_eq_ok_iff.mp hok with ⟨hzero, hok⟩ | ⟨⟨x, hx, hdigit, hne⟩, hok⟩
  · have hword : isWordChar '0' = true := by decide
    obtain ⟨d', hok', hd⟩ := readsWord_zeroTail.behind h hword hzero hok
    exact ⟨d', numberAt_eq_ok_iff.mpr (Or.inl ⟨(h.head?_eq_iff hword).mp hzero, hok'⟩), hd⟩
  · obtain ⟨d', hok', hd⟩ := readsWord_digitsTail h hok
    have hx' := (h.head?_eq_iff (isWordChar_of_isDigit hdigit)).mp hx
    exact ⟨d', numberAt_eq_ok_iff.mpr (Or.inr ⟨⟨x, hx', hdigit, hne⟩, hok'⟩), hd⟩

/-! ### Values that are words -/

/-- What is read may be turned into something else. -/
theorem ReadsWord.map {α β : Type} {f : Reader α} (hf : ReadsWord f) (g : α → β) :
    ReadsWord (fun c => do let (a, c) ← f c; .ok (g a, c)) := by
  intro c c' d b h hok
  obtain ⟨⟨a, e⟩, hfc, hret⟩ := bind_eq_ok_iff.mp hok
  obtain ⟨rfl, rfl⟩ : g a = b ∧ e = d := by simpa using hret
  obtain ⟨e', hok', he⟩ := hf h hfc
  exact ⟨e', bind_eq_ok_iff.mpr ⟨(a, e'), hok', rfl⟩, he⟩

/-- A digit begins a number. -/
theorem scalar_of_isDigit (hx : isDigit x = true) :
    scalar x c = (do let (n, c) ← numberAt true c; .ok (.number n, c)) := by
  unfold scalar
  split
  · exact absurd hx (by decide)
  · exact absurd hx (by decide)
  · exact absurd hx (by decide)
  · exact absurd hx (by decide)
  · exact absurd hx (by decide)
  · rw [if_pos hx]

/-- A number is read where a minus sign or a digit stands. -/
theorem scalar_eq_number_iff {n : JsonNumber} : scalar x c = .ok (.number n, d)
    ↔ (x = '-' ∨ isDigit x = true)
      ∧ (if x = '-' then numberAt false c.next else numberAt true c) = .ok (n, d) := by
  by_cases hminus : x = '-'
  · subst hminus
    show (numberAt false c.next >>= fun r => .ok (Json.number r.1, r.2)) = _ ↔ _
    simp [bind_eq_ok_iff]
  by_cases hdigit : isDigit x = true
  · rw [scalar_of_isDigit hdigit, if_neg hminus]
    simp [bind_eq_ok_iff, hdigit]
  · refine ⟨fun h => ?_, fun h => absurd h.1 (by simp [hminus, hdigit])⟩
    unfold scalar at h
    split at h <;> simp_all [bind_eq_ok_iff]

/-- **A value that is a word reads the same wherever the word stands.** -/
theorem scalar_agree {v : Json} (h : Agree c.rest c'.rest) (hc : c.rest.head? = some x)
    (hq : x ≠ '"') (hok : scalar x c = .ok (v, d)) :
    isWordChar x = true ∧ ∃ d', scalar x c' = .ok (v, d') ∧ Abreast c c' d d' := by
  unfold scalar at hok ⊢
  split at hok
  · have hword : ReadsWord (word "ull".toList) :=
      readsWord_word (List.all_eq_true.mp (by decide))
    exact ⟨by decide, (hword.map fun _ => Json.null).behind h (by decide) hc hok⟩
  · have hword : ReadsWord (word "rue".toList) :=
      readsWord_word (List.all_eq_true.mp (by decide))
    exact ⟨by decide, (hword.map fun _ => Json.bool true).behind h (by decide) hc hok⟩
  · have hword : ReadsWord (word "alse".toList) :=
      readsWord_word (List.all_eq_true.mp (by decide))
    exact ⟨by decide, (hword.map fun _ => Json.bool false).behind h (by decide) hc hok⟩
  · have hnumber : ReadsWord (numberAt false) := readsWord_numberAt
    exact ⟨by decide, (hnumber.map Json.number).behind h (by decide) hc hok⟩
  · exact absurd rfl hq
  · split_ifs at hok with hdigit
    have hnumber : ReadsWord (numberAt true) := readsWord_numberAt
    obtain ⟨d', hok', hd⟩ := (hnumber.map Json.number) h hok
    exact ⟨isWordChar_of_isDigit hdigit, d', by simpa only [if_pos hdigit] using hok', hd⟩

end DeclarationDocs.Json
