import DeclarationDocs.Json.Relaxed
import Mathlib.Data.List.DropRight
import Mathlib.Data.List.TakeWhile

namespace DeclarationDocs.Json

/-!
# The lexemes of JSON text

The readers work on characters; what a text says does not depend on where its blanks stand.  This
file cuts a text into its lexemes, so that readers and texts can be compared lexeme by lexeme.

* `lexemes s` — the brackets, commas, colons, literals and words of a text, blanks left out;
* `Token l` — a lexeme as it stands in correct text: a mark, a word or a closed literal;
* `lexemes_append` — a token in front of a text is its first lexeme, unless a word runs on;
* `exists_of_lexemes_eq_cons` — and every first lexeme stands in front, behind blanks.
-/

/-- The characters of numbers and of small words, such as `null`, `true` and `false`. -/
def isWordChar (c : Char) : Bool :=
  Text.isDigit c || ('a' ≤ c && c ≤ 'z') || c == 'E' || c == '+' || c == '-' || c == '.'

/-- The characters that are lexemes of their own in correct text. -/
def marks : List Char := ['[', ']', '\x7b', '\x7d', ',', ':']

/-- A text that does not go on with a character of a word. -/
def Boundary : List Char → Prop
  | [] => True
  | c :: _ => isWordChar c = false

/-- Cut a text behind the quote that closes the literal it stands in. -/
def literal : List Char → List Char × List Char
  | [] => ([], [])
  | '"' :: r => (['"'], r)
  | '\\' :: c :: r => ('\\' :: c :: (literal r).1, (literal r).2)
  | c :: r => (c :: (literal r).1, (literal r).2)

/-- The first lexeme of a text, and the text behind it. -/
def nextLexeme (s : List Char) : Option (List Char × List Char) :=
  match s.dropWhile isBlank with
  | [] => none
  | c :: r =>
    if c = '"' then some ('"' :: (literal r).1, (literal r).2)
    else if isWordChar c then some (c :: r.takeWhile isWordChar, r.dropWhile isWordChar)
    else some ([c], r)

variable {c : Char} {s r l b f : List Char} {ls : List (List Char)}

/-- A literal and what follows it are the text. -/
theorem literal_append (s : List Char) : (literal s).1 ++ (literal s).2 = s := by
  fun_induction literal s with simp_all

/-- Behind a word there is the end or a character of another kind. -/
theorem boundary_dropWhile (s : List Char) : Boundary (s.dropWhile isWordChar) := by
  cases hd : s.dropWhile isWordChar with
  | nil => trivial
  | cons x u =>
    have hstop := List.head?_dropWhile_not isWordChar s
    show isWordChar x = false
    simpa [hd] using hstop

/-- A word goes on up to where it ends. -/
theorem exists_word (hc : isWordChar c = true) (r : List Char) :
    ∃ w t, c :: r = w ++ t ∧ w ≠ [] ∧ (∀ x ∈ w, isWordChar x = true) ∧ Boundary t ∧
      t.length ≤ r.length := by
  refine ⟨c :: r.takeWhile isWordChar, r.dropWhile isWordChar, ?_, List.cons_ne_nil _ _, ?_,
    boundary_dropWhile r, (List.dropWhile_suffix isWordChar).length_le⟩
  · rw [List.cons_append, List.takeWhile_append_dropWhile]
  · exact List.forall_mem_cons.mpr ⟨hc, fun x hx => List.mem_takeWhile_imp hx⟩

/-- The first lexeme stands in front of the text, behind blanks; a word is taken to its end. -/
theorem nextLexeme_eq_some (h : nextLexeme s = some (l, r)) :
    s.dropWhile isBlank = l ++ r ∧ l ≠ [] ∧ ((∃ c ∈ l.head?, isWordChar c) → Boundary r) := by
  unfold nextLexeme at h
  split at h
  · cases h
  rename_i c t ht
  rw [ht]
  split_ifs at h with hq hw
  · obtain ⟨rfl, rfl⟩ : _ ∧ _ := by simpa using h
    refine ⟨by rw [hq, List.cons_append, literal_append], by simp, ?_⟩
    rintro ⟨c', hc', hw⟩
    obtain rfl : '"' = c' := by simpa using hc'
    exact absurd hw (by decide)
  · obtain ⟨rfl, rfl⟩ : _ ∧ _ := by simpa using h
    exact ⟨by rw [List.cons_append, List.takeWhile_append_dropWhile], by simp,
      fun _ => boundary_dropWhile t⟩
  · obtain ⟨rfl, rfl⟩ : _ ∧ _ := by simpa using h
    refine ⟨by simp, by simp, ?_⟩
    rintro ⟨c', hc', hw'⟩
    obtain rfl : c = c' := by simpa using hc'
    exact absurd hw' hw

/-- Behind a lexeme less is left. -/
theorem length_lt_of_nextLexeme (h : nextLexeme s = some (l, r)) : r.length < s.length := by
  obtain ⟨hs, hl, -⟩ := nextLexeme_eq_some h
  have hlen : (s.dropWhile isBlank).length = l.length + r.length := by rw [hs, List.length_append]
  have hdrop : (s.dropWhile isBlank).length ≤ s.length :=
    (List.dropWhile_suffix isBlank).length_le
  have hpos : 0 < l.length := List.length_pos_iff.mpr hl
  omega

/-- The lexemes of a text.  Each is given as it is written. -/
def lexemes (s : List Char) : List (List Char) :=
  match _h : nextLexeme s with
  | none => []
  | some (l, r) => l :: lexemes r
termination_by s.length
decreasing_by exact length_lt_of_nextLexeme _h

/-! ### Kinds of characters -/

theorem toNat_of_le {a b : Char} (h : a ≤ c ∧ c ≤ b) : a.toNat ≤ c.toNat ∧ c.toNat ≤ b.toNat := h

/-- A character of a word lies between the plus sign and the last letter. -/
theorem toNat_of_isWordChar (h : isWordChar c = true) : 43 ≤ c.toNat ∧ c.toNat ≤ 122 := by
  simp only [isWordChar, Text.isDigit, Bool.or_eq_true, Bool.and_eq_true, decide_eq_true_eq,
    beq_iff_eq] at h
  rcases h with ((((h | h) | rfl) | rfl) | rfl) | rfl
  · have hdigit : '0'.toNat = 48 ∧ '9'.toNat = 57 := by decide
    have hc := toNat_of_le h
    omega
  · have hletter : 'a'.toNat = 97 ∧ 'z'.toNat = 122 := by decide
    have hc := toNat_of_le h
    omega
  all_goals decide

/-- No character of a word is white space. -/
theorem not_isWhiteSpace_of_isWordChar (h : isWordChar c = true) : Text.isWhiteSpace c = false := by
  have hc := toNat_of_isWordChar h
  simp only [Text.isWhiteSpace, Bool.or_eq_false_iff, Bool.and_eq_false_iff,
    decide_eq_false_iff_not, beq_eq_false_iff_ne]
  omega

/-- The blanks of JSON are white space of Unicode. -/
theorem isWhiteSpace_of_isBlank (h : isBlank c = true) : Text.isWhiteSpace c = true := by
  simp only [isBlank, Bool.or_eq_true, beq_iff_eq] at h
  rcases h with ((rfl | rfl) | rfl) | rfl <;> decide

theorem not_isBlank_of_not_isWhiteSpace (h : Text.isWhiteSpace c = false) : isBlank c = false := by
  by_contra hb
  have hw := isWhiteSpace_of_isBlank (by simpa using hb)
  rw [h] at hw
  cases hw

/-- No character of a word is blank. -/
theorem not_isBlank_of_isWordChar (h : isWordChar c = true) : isBlank c = false :=
  not_isBlank_of_not_isWhiteSpace (not_isWhiteSpace_of_isWordChar h)

/-- Two characters differ if one may stand in a word and the other may not. -/
theorem ne_of_isWordChar {d : Char} (h : isWordChar c = true) (hd : isWordChar d = false) :
    c ≠ d := by
  rintro rfl
  rw [h] at hd
  cases hd

/-- A blank differs from every character that is none. -/
theorem ne_of_isBlank {d : Char} (h : isBlank c = true) (hd : isBlank d = false) : c ≠ d := by
  rintro rfl
  rw [h] at hd
  cases hd

/-- White space differs from every character that is none. -/
theorem ne_of_isWhiteSpace {d : Char} (h : Text.isWhiteSpace c = true)
    (hd : Text.isWhiteSpace d = false) : c ≠ d := by
  rintro rfl
  rw [h] at hd
  cases hd

/-- White space stands in no word. -/
theorem not_isWordChar_of_isWhiteSpace (h : Text.isWhiteSpace c = true) : isWordChar c = false := by
  by_contra hw
  rw [not_isWhiteSpace_of_isWordChar (by simpa using hw)] at h
  cases h

/-- Digits are characters of words. -/
theorem isWordChar_of_isDigit (h : Text.isDigit c = true) : isWordChar c = true := by
  simp [isWordChar, h]

/-! ### Tokens -/

/-- The rest of a literal behind its opening quote, up to and with its closing quote. -/
inductive Body : List Char → Prop
  | quote : Body ['"']
  | escape (c : Char) {b : List Char} (h : Body b) : Body ('\\' :: c :: b)
  | char {c : Char} {b : List Char} (hq : c ≠ '"') (hs : c ≠ '\\') (h : Body b) : Body (c :: b)

/-- A lexeme of correct text. -/
inductive Token : List Char → Prop
  | mark {c : Char} (h : c ∈ marks) : Token [c]
  | word {l : List Char} (hne : l ≠ []) (h : ∀ c ∈ l, isWordChar c = true) : Token l
  | literal {b : List Char} (h : Body b) : Token ('"' :: b)

/-- Whether a lexeme begins as a word does. -/
def IsWord (l : List Char) : Prop := ∃ c ∈ l.head?, isWordChar c = true

/-- A closed literal ends where its closing quote is, whatever follows. -/
theorem literal_of_body (h : Body b) (r : List Char) : literal (b ++ r) = (b, r) := by
  induction h with
  | quote => rfl
  | escape c h ih => simp [literal, ih]
  | @char c b hq hs h ih =>
    -- no other branch of the definition fits the character
    have hstep : literal (c :: (b ++ r)) = (c :: (literal (b ++ r)).1, (literal (b ++ r)).2) := by
      rw [literal]
      · exact hq
      · intro _ _ he _
        exact hs he
    rw [List.cons_append, hstep, ih]

/-- A mark is no white space, opens no literal and no comment, and stands in no word. -/
theorem kind_of_mem_marks (h : c ∈ marks) :
    Text.isWhiteSpace c = false ∧ c ≠ '"' ∧ c ≠ '/' ∧ isWordChar c = false := by
  simp only [marks, List.mem_cons, List.not_mem_nil, or_false] at h
  rcases h with rfl | rfl | rfl | rfl | rfl | rfl <;> decide

/-- No character of a word is a mark. -/
theorem not_mem_marks (h : isWordChar c = true) : c ∉ marks := by
  intro hmark
  rw [(kind_of_mem_marks hmark).2.2.2] at h
  cases h

/-- A mark is no word. -/
theorem not_isWord_mark (h : c ∈ marks) : ¬ IsWord [c] := by
  rintro ⟨c', hc', hw⟩
  obtain rfl : c = c' := by simpa using hc'
  exact not_mem_marks hw h

/-- A literal is no word. -/
theorem not_isWord_literal : ¬ IsWord ('"' :: b) := by
  rintro ⟨c, hc, hw⟩
  obtain rfl : '"' = c := by simpa using hc
  exact absurd hw (by decide)

/-- A token in front of a text is its first lexeme, if it is no word that runs on. -/
theorem nextLexeme_append (hl : Token l) (hr : IsWord l → Boundary r) :
    nextLexeme (l ++ r) = some (l, r) := by
  cases hl with
  | @mark c h =>
    obtain ⟨hspace, hq, -, hw⟩ := kind_of_mem_marks h
    simp [nextLexeme, not_isBlank_of_not_isWhiteSpace hspace, hq, hw]
  | @word _ hne h =>
    obtain ⟨c, t, rfl⟩ := List.exists_cons_of_ne_nil hne
    have hc : isWordChar c = true := h c (by simp)
    have ht : ∀ x ∈ t, isWordChar x = true := fun x hx => h x (by simp [hx])
    have hq : c ≠ '"' := ne_of_isWordChar hc (by decide)
    -- the word ends where the boundary is
    have hstop : r.takeWhile isWordChar = [] ∧ r.dropWhile isWordChar = r := by
      have hb := hr ⟨c, rfl, hc⟩
      cases r with
      | nil => exact ⟨rfl, rfl⟩
      | cons x u =>
        have hx : isWordChar x = false := hb
        simp [hx]
    simp [nextLexeme, not_isBlank_of_isWordChar hc, hq, hc, List.takeWhile_append_of_pos ht,
      List.dropWhile_append_of_pos ht, hstop]
  | literal h =>
    have hb : isBlank '"' = false := by decide
    simp [nextLexeme, hb, literal_of_body h]

/-! ### The lexemes of a text -/

/-- Blanks in front of a text are no lexemes. -/
theorem lexemes_dropWhile (s : List Char) : lexemes (s.dropWhile isBlank) = lexemes s := by
  have hdrop : (s.dropWhile isBlank).dropWhile isBlank = s.dropWhile isBlank :=
    List.dropWhile_idempotent isBlank s
  have hnext : nextLexeme (s.dropWhile isBlank) = nextLexeme s := by
    simp only [nextLexeme, hdrop]
  rw [lexemes, lexemes.eq_def s, hnext]

/-- Blanks in front add no lexeme. -/
theorem lexemes_append_blank (hf : ∀ c ∈ f, isBlank c = true) (s : List Char) :
    lexemes (f ++ s) = lexemes s := by
  rw [← lexemes_dropWhile, List.dropWhile_append_of_pos hf, lexemes_dropWhile]

/-- The first lexeme, and those of the text behind it. -/
theorem lexemes_of_nextLexeme (h : nextLexeme s = some (l, r)) : lexemes s = l :: lexemes r := by
  rw [lexemes]
  split
  · rename_i hnext
    rw [hnext] at h
    cases h
  · rename_i hnext
    rw [hnext] at h
    obtain ⟨rfl, rfl⟩ : _ ∧ _ := by simpa using h
    rfl

/-- A token in front of a text is its first lexeme, if it is no word that runs on. -/
theorem lexemes_append (hl : Token l) (hr : IsWord l → Boundary r) :
    lexemes (l ++ r) = l :: lexemes r :=
  lexemes_of_nextLexeme (nextLexeme_append hl hr)

/-- What is no blank and stands neither in a word nor in a literal is a lexeme of its own. -/
theorem lexemes_cons_single (hb : isBlank c = false) (hq : c ≠ '"') (hw : isWordChar c = false)
    (r : List Char) : lexemes (c :: r) = [c] :: lexemes r :=
  lexemes_of_nextLexeme (by simp [nextLexeme, hb, hq, hw])

/-- A literal is one lexeme, closed or not. -/
theorem lexemes_cons_quote (r : List Char) :
    lexemes ('"' :: r) = ('"' :: (literal r).1) :: lexemes (literal r).2 := by
  have hb : isBlank '"' = false := by decide
  exact lexemes_of_nextLexeme (by simp [nextLexeme, hb])

/-- A literal ends in the same place before any other text, unless it is open. -/
theorem literal_first_append (h : (literal s).2 = [] → r = []) :
    literal ((literal s).1 ++ r) = ((literal s).1, r) := by
  fun_induction literal s with
  | case1 => rw [h rfl]; rfl
  | case2 _ => rfl
  | case3 c s ih => simp [literal, ih h]
  | case4 c s hq hs ih =>
    rw [List.cons_append, literal, ih h]
    · exact hq
    · -- a backslash at the end of the text escapes nothing
      intro d u hc hu
      obtain rfl : s = [] := by
        cases s with
        | nil => rfl
        | cons x s => exact absurd rfl (hs x s hc)
      rw [h rfl] at hu
      cases hu

/-- The text behind the first lexeme has the other lexemes. -/
theorem exists_of_lexemes_eq_cons (h : lexemes s = l :: ls) :
    ∃ r, s.dropWhile isBlank = l ++ r ∧ l ≠ [] ∧ (IsWord l → Boundary r) ∧ lexemes r = ls := by
  rw [lexemes] at h
  split at h
  · cases h
  · rename_i l' r hnext
    obtain ⟨rfl, rfl⟩ : _ ∧ _ := by simpa using h
    obtain ⟨hs, hl, hb⟩ := nextLexeme_eq_some hnext
    exact ⟨r, hs, hl, hb, rfl⟩

/-- A text without lexemes is blank. -/
theorem lexemes_eq_nil_iff : lexemes s = [] ↔ s.dropWhile isBlank = [] := by
  constructor
  · intro h
    rw [lexemes] at h
    split at h
    · rename_i hnext
      rw [nextLexeme] at hnext
      split at hnext
      · assumption
      · split_ifs at hnext
    · cases h
  · intro h
    rw [← lexemes_dropWhile, h]
    simp [lexemes, nextLexeme]

/-- A text that does not begin with a word begins with another kind of character. -/
theorem boundary_of_lexemes (h : ∀ l ∈ (lexemes s).head?, ¬ IsWord l) : Boundary s := by
  cases s with
  | nil => trivial
  | cons c r =>
    by_contra hb
    have hc : isWordChar c = true := by simpa [Boundary] using hb
    cases hls : lexemes (c :: r) with
    | nil =>
      rw [lexemes_eq_nil_iff] at hls
      simp [not_isBlank_of_isWordChar hc] at hls
    | cons l ls =>
      obtain ⟨t, ht, hne, -, -⟩ := exists_of_lexemes_eq_cons hls
      obtain ⟨x, u, rfl⟩ := List.exists_cons_of_ne_nil hne
      obtain ⟨rfl, -⟩ : c = x ∧ _ := by simpa [not_isBlank_of_isWordChar hc] using ht
      exact h (c :: u) (by simp [hls]) ⟨c, rfl, hc⟩

/-- There are at most as many lexemes as characters. -/
theorem length_lexemes_le (s : List Char) : (lexemes s).length ≤ s.length := by
  fun_induction lexemes s with
  | case1 => simp
  | case2 s l r h ih =>
    have hlt := length_lt_of_nextLexeme h
    rw [List.length_cons]
    omega

end DeclarationDocs.Json
