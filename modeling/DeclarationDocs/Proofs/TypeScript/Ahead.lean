import DeclarationDocs.Proofs.TypeScript.Name
import DeclarationDocs.TypeScript.Grammar

namespace DeclarationDocs.TypeScript

/-!
# The next lexeme

A reader passes over trivia and then looks at one lexeme.  So what it does with a text is settled
by what the next lexeme is, however the text goes on.

* `IsGap g` — blanks and comments; `skipTrivia_gap` — they are passed over;
* `WordAhead s n r`, `SignAhead s c r` — the next lexeme of `s` is the name `n`, or begins with
  the mark or digit `c`, and `r` is what follows it;
* `WordAhead.keyword`, `SignAhead.symbol` and the like — what the readers of single lexemes do
  with either kind of text;
* `Avoids n ws` — the name `n` is none of the words `ws`; `Lacks s marks` — the next lexeme of `s`
  begins with none of the marks.
-/

variable {s t r n m g : List Char} {a c : Char} {b : Bool} {w : String} {ws : List String}

/-! ### Trivia -/

/-- A blank is passed over; it counts for `b` if it ends a line. -/
theorem triviaFrom_blank (hc : isBlank c = true) :
    triviaFrom .blank b (c :: s) = triviaFrom .blank (b || endsLine c) s := by
  have hslash : c ≠ '/' := by
    rintro rfl
    exact absurd hc (by decide)
  rw [triviaFrom.eq_def]
  split
  all_goals simp_all

/-- Within a line comment `triviaFrom` passes over all that does not end the line. -/
theorem triviaFrom_line (hc : endsLine c = false) :
    triviaFrom .line b (c :: s) = triviaFrom .line b s := by
  rw [triviaFrom.eq_def]
  simp [hc]

/-- The end of the line ends a line comment, and a line has ended. -/
theorem triviaFrom_line_end (hc : endsLine c = true) :
    triviaFrom .line b (c :: s) = triviaFrom .blank true s := by
  rw [triviaFrom.eq_def]
  simp [hc]

/-- Within a block comment `triviaFrom` passes over all but the mark `*/`. -/
theorem triviaFrom_block (h : ¬ ['*', '/'] <+: c :: s) :
    triviaFrom (.block t) b (c :: s) = triviaFrom (.block t) (b || endsLine c) s := by
  rw [triviaFrom.eq_def]
  split
  all_goals simp_all

/-- Whether a line has ended does not matter for where the trivia ends. -/
theorem triviaFrom_snd (part : TriviaPart) (b b' : Bool) (s : List Char) :
    (triviaFrom part b s).2 = (triviaFrom part b' s).2 := by
  fun_induction triviaFrom part b s generalizing b' with
  | case1 => rfl
  | case2 part b hpart =>
    cases part with
    | block start => exact absurd rfl (hpart start)
    | blank => rfl
    | line => rfl
  | case3 b r ih => exact ih b'
  | case4 b r ih => exact ih b'
  | case5 b c r hline hblock hc ih => rw [triviaFrom_blank hc, ih]
  | case6 b c r hline hblock hc =>
    -- neither a blank nor the start of a comment
    rw [triviaFrom.eq_def .blank b' (c :: r)]
    split
    all_goals simp_all
  | case7 b c r hc ih => rw [triviaFrom_line_end hc]
  | case8 b c r hc ih => rw [triviaFrom_line (by simpa using hc), ih]
  | case9 start b r ih => exact ih b'
  | case10 start b c r hclose ih =>
    have hopen : ¬ ['*', '/'] <+: c :: r := by
      rintro ⟨u, hu⟩
      obtain ⟨rfl, hr⟩ := List.cons.inj hu
      exact hclose u rfl hr.symm
    rw [triviaFrom_block hopen, ih]

theorem skipTrivia_blank (hc : isBlank c = true) : skipTrivia (c :: s) = skipTrivia s := by
  rw [skipTrivia, triviaFrom_blank hc]
  exact triviaFrom_snd _ _ _ s

/-- A text that begins with neither a blank nor a slash begins with its next lexeme. -/
theorem skipTrivia_lexeme (hc : isBlank c = false) (hslash : c ≠ '/') :
    skipTrivia (c :: s) = c :: s := by
  rw [skipTrivia, triviaFrom.eq_def]
  split
  all_goals simp_all

/-- Blanks and comments. -/
inductive IsGap : List Char → Prop
  | nil : IsGap []
  | blank {c : Char} {g : List Char} (hc : isBlank c = true) (h : IsGap g) : IsGap (c :: g)
  | line {content g : List Char} {e : Char} (hcontent : ∀ c ∈ content, endsLine c = false)
      (he : endsLine e = true) (h : IsGap g) : IsGap ('/' :: '/' :: (content ++ e :: g))
  | block {content g : List Char} (hcontent : ¬ ['*', '/'] <:+: content) (h : IsGap g) :
      IsGap ('/' :: '*' :: (content ++ '*' :: '/' :: g))

/-- A line comment is passed over up to the end of its line. -/
theorem triviaFrom_content (hs : ∀ c ∈ s, endsLine c = false) :
    triviaFrom .line b (s ++ r) = triviaFrom .line b r := by
  induction s with
  | nil => rfl
  | cons c s ih =>
    obtain ⟨hc, hs⟩ := List.forall_mem_cons.mp hs
    rw [List.cons_append, triviaFrom_line hc, ih hs]

/-- A block comment is passed over up to its first closing mark. -/
theorem triviaFrom_closing (hs : ¬ ['*', '/'] <:+: s) :
    (triviaFrom (.block t) b (s ++ '*' :: '/' :: r)).2 = skipTrivia r := by
  induction s generalizing b with
  | nil => exact triviaFrom_snd .blank b false r
  | cons c s ih =>
    have hopen : ¬ ['*', '/'] <+: c :: (s ++ '*' :: '/' :: r) := by
      rintro ⟨u, hu⟩
      obtain ⟨rfl, hu'⟩ := List.cons.inj hu
      cases s with
      | nil => exact absurd (List.cons.inj hu').1 (by decide)
      | cons d s =>
        obtain ⟨rfl, -⟩ := List.cons.inj hu'
        exact hs ⟨[], s, rfl⟩
    rw [List.cons_append, triviaFrom_block hopen]
    exact ih fun hpart => hs (hpart.trans (List.suffix_cons c s).isInfix)

/-- Blanks and comments are passed over. -/
theorem skipTrivia_gap (h : IsGap g) (s : List Char) : skipTrivia (g ++ s) = skipTrivia s := by
  induction h with
  | nil => rfl
  | blank hc _ ih => rw [List.cons_append, skipTrivia_blank hc, ih]
  | @line content g e hcontent he _ ih =>
    rw [← ih]
    show (triviaFrom .line false (content ++ e :: g ++ s)).2 = _
    rw [List.append_assoc, triviaFrom_content hcontent, List.cons_append, triviaFrom_line_end he]
    exact triviaFrom_snd .blank true false _
  | @block content g hcontent _ ih =>
    rw [← ih]
    show (triviaFrom (.block _) false (content ++ '*' :: '/' :: g ++ s)).2 = _
    rw [List.append_assoc]
    exact triviaFrom_closing hcontent

/-! ### What is ahead -/

/-- Whether a name may begin with a character. -/
def startsName (c : Char) : Bool := isNameStart c || c == '\\'

/-- Whether a character is neither trivia nor the start of a name or a comment. -/
def isSign (c : Char) : Bool := !isBlank c && c != '/' && !startsName c

/-- The next lexeme of `s` is the name `n`, and `r` follows it. -/
structure WordAhead (s n r : List Char) : Prop where
  skip : skipTrivia s = n ++ r
  isName : IsName n
  stops : Stops r

/-- The next lexeme of `s` begins with the mark or digit `c`, and `r` follows that. -/
structure SignAhead (s : List Char) (c : Char) (r : List Char) : Prop where
  skip : skipTrivia s = c :: r
  sign : startsName c = false

/-- The name `n` is none of the words `ws`. -/
def Avoids (n : List Char) (ws : List String) : Prop := ∀ w ∈ ws, n ≠ w.toList

instance (n : List Char) (ws : List String) : Decidable (Avoids n ws) :=
  inferInstanceAs (Decidable (∀ w ∈ ws, n ≠ w.toList))

/-- The next lexeme of `s` begins with none of the marks. -/
def Lacks (s marks : List Char) : Prop := ∀ a ∈ marks, ∀ t, symbol (a :: t) s = none

/-- Only the next lexeme matters. -/
theorem Lacks.of_skipTrivia_eq {marks : List Char} (h : Lacks s marks)
    (heq : skipTrivia r = skipTrivia s) : Lacks r marks := by
  intro a ha t
  rw [symbol, heq]
  exact h a ha t

/-- What `s` does not begin with it does not begin with for fewer `marks'` either. -/
theorem Lacks.mono {marks marks' : List Char} (h : Lacks s marks) (hm : marks' ⊆ marks) :
    Lacks s marks' :=
  fun a ha => h a (hm ha)

/-- A name that is none of the words `ws` is none of `ws' ⊆ ws`. -/
theorem Avoids.mono {ws' : List String} (h : Avoids n ws) (hws : ws' ⊆ ws) : Avoids n ws' :=
  fun w hw => h w (hws hw)

/-- The test of `oneOf` fails for a name that is none of the words. -/
theorem Avoids.any (h : Avoids n ws) : (ws.any fun w => w.toList = n) = false := by
  rw [List.any_eq_false]
  intro w hw heq
  exact h w hw (of_decide_eq_true heq).symm

/-- A name has a first character, and `startsName` holds of it. -/
theorem startsName_of_isName (h : IsName n) : ∃ c u, n = c :: u ∧ startsName c = true := by
  obtain ⟨c, u, rfl, hc⟩ := h.exists_head
  exact ⟨c, u, rfl, by simpa [startsName] using hc⟩

/-- What starts a name is no trivia. -/
theorem not_isBlank_of_startsName (hc : startsName c = true) : isBlank c = false ∧ c ≠ '/' := by
  rcases Bool.or_eq_true _ _ ▸ hc with hstart | hslash
  · have hpart := isNamePart_of_isNameStart hstart
    refine ⟨?_, (safe_of_isNamePart hpart).1⟩
    simp only [isNamePart, Bool.and_eq_true, Bool.not_eq_true'] at hpart
    exact hpart.1.2
  · obtain rfl := eq_of_beq hslash
    decide

/-- Nothing is passed over in front of a name: `skipTrivia (n ++ r) = n ++ r`. -/
theorem IsName.skipTrivia_append (hn : IsName n) (r : List Char) :
    skipTrivia (n ++ r) = n ++ r := by
  obtain ⟨c, u, rfl, hc⟩ := startsName_of_isName hn
  obtain ⟨hblank, hslash⟩ := not_isBlank_of_startsName hc
  exact skipTrivia_lexeme hblank hslash

/-- A name stands ahead where it is spelled and no character of a name follows, `Stops r`. -/
theorem IsName.wordAhead (hn : IsName n) (hr : Stops r) : WordAhead (n ++ r) n r :=
  ⟨hn.skipTrivia_append r, hn, hr⟩

/-- What stands ahead depends on `skipTrivia s` alone. -/
theorem WordAhead.of_skipTrivia_eq (h : WordAhead s n r) (heq : skipTrivia t = skipTrivia s) :
    WordAhead t n r :=
  ⟨heq.trans h.skip, h.isName, h.stops⟩

/-- Which sign stands ahead depends on `skipTrivia s` alone. -/
theorem SignAhead.of_skipTrivia_eq (h : SignAhead s c r) (heq : skipTrivia t = skipTrivia s) :
    SignAhead t c r :=
  ⟨heq.trans h.skip, h.sign⟩

/-- A word is read as a name. -/
theorem wordAhead_word (hw : nameHere? w.toList = some (w.toList, [])) (hr : Stops r) :
    WordAhead (w.toList ++ r) w.toList r :=
  (isName_of_nameHere? hw).wordAhead hr

/-- A sign stands ahead where it is spelled. -/
theorem signAhead (hc : isSign c = true) (r : List Char) : SignAhead (c :: r) c r := by
  simp only [isSign, Bool.and_eq_true, Bool.not_eq_true', bne_iff_ne] at hc
  obtain ⟨⟨hblank, hslash⟩, hsign⟩ := hc
  exact ⟨skipTrivia_lexeme hblank hslash, hsign⟩

theorem isBlank_space : isBlank ' ' = true := by decide

theorem isBlank_newline : isBlank '\n' = true := by decide

/-- No name runs on into a space. -/
theorem stops_space : Stops (' ' :: r) := stops_cons.mpr (by decide)

/-! ### Words -/

namespace WordAhead

variable (h : WordAhead s n r)

include h

/-- Blanks in front of what stands ahead make no difference. -/
theorem blank (hc : isBlank c = true) : WordAhead (c :: s) n r :=
  ⟨(skipTrivia_blank hc).trans h.skip, h.isName, h.stops⟩

/-- The name ahead is what `nameHere?` finds behind blanks and comments. -/
theorem nameHere? : nameHere? (skipTrivia s) = some (n, r) := by
  rw [h.skip, h.isName.nameHere?_append h.stops]

/-- The name ahead is read by `name?`. -/
theorem name? : name? s = some (n, r) := h.nameHere?

/-- The name ahead is taken by `anyName`, whichever it is. -/
theorem anyName : anyName s = some r := by rw [TypeScript.anyName, h.name?]; rfl

/-- The name ahead is taken by `keyword w` if it is `w`, and by no other keyword. -/
theorem keyword (w : String) : keyword w s = if n = w.toList then some r else none := by
  rw [TypeScript.keyword, h.name?]

/-- The word itself is read. -/
theorem keyword_self (hw : n = w.toList) : TypeScript.keyword w s = some r := by
  rw [h.keyword, if_pos hw]

/-- No word is read that the name avoids. -/
theorem keyword_none (ha : Avoids n ws) (hw : w ∈ ws) : TypeScript.keyword w s = none := by
  rw [h.keyword, if_neg (ha w hw)]

/-- The name ahead is taken by `oneOf ws` if it is one of `ws`. -/
theorem oneOf (ws : List String) :
    oneOf ws s = if ws.any fun w => w.toList = n then some r else none := by
  rw [TypeScript.oneOf, h.name?]

/-- A name that is none of `ws` is not taken by `oneOf` of fewer words. -/
theorem oneOf_none {ws' : List String} (ha : Avoids n ws) (hws : ws' ⊆ ws) :
    TypeScript.oneOf ws' s = none := by
  rw [h.oneOf, (ha.mono hws).any]
  rfl

/-- A name that is not reserved is taken by `Scope.identifier`. -/
theorem identifier (ha : Avoids n ws) (hws : Scope.reserved ⊆ ws) :
    Scope.identifier s = some r := by
  rw [Scope.identifier, h.name?]
  show (if Scope.reserved.any fun w => w.toList = n then none else some r) = some r
  rw [(ha.mono hws).any]
  rfl

/-- The first character is that of a name. -/
theorem exists_head : ∃ c u, skipTrivia s = c :: u ∧ startsName c = true := by
  obtain ⟨c, u, rfl, hc⟩ := startsName_of_isName h.isName
  exact ⟨c, u ++ r, h.skip, hc⟩

/-- Where a name stands ahead there is no symbol. -/
theorem symbol (ha : startsName a = false) : symbol (a :: t) s = none := by
  obtain ⟨c, u, hskip, hc⟩ := h.exists_head
  have hne : a ≠ c := by
    rintro rfl
    exact absurd hc (by simp [ha])
  rw [TypeScript.symbol, hskip, strip, if_neg hne]

/-- Where a name stands ahead there is none of the `marks`, if no name begins with them. -/
theorem lacks {marks : List Char} (hm : (marks.all fun a => !startsName a) = true) :
    Lacks s marks := by
  intro a ha t
  have hsign := List.all_eq_true.mp hm a ha
  exact h.symbol (by simpa using hsign)

theorem startsWith (ha : startsName a = false) : startsWith a s = false := by
  obtain ⟨c, u, hskip, hc⟩ := h.exists_head
  have hne : c ≠ a := by
    rintro rfl
    exact absurd hc (by simp [ha])
  rw [TypeScript.startsWith, hskip]
  exact beq_false_of_ne hne

theorem number : Scope.number s = none := by
  obtain ⟨c, u, hskip, hc⟩ := h.exists_head
  have hdigit : ¬ ('0' ≤ c ∧ c ≤ '9') := by
    rcases Bool.or_eq_true _ _ ▸ hc with hstart | hslash
    · simp only [isNameStart, Bool.and_eq_true, Bool.not_eq_true', Bool.and_eq_false_iff,
        decide_eq_false_iff_not] at hstart
      exact fun hrange => hstart.2.elim (· hrange.1) (· hrange.2)
    · obtain rfl := eq_of_beq hslash
      decide
  have hdot : c ≠ '.' := by
    rintro rfl
    exact absurd hc (by decide)
  rw [Scope.number, hskip, numberEnd.eq_def]
  split
  all_goals simp_all

end WordAhead

/-! ### Signs -/

namespace SignAhead

variable (h : SignAhead s c r)

include h

theorem blank (ha : isBlank a = true) : SignAhead (a :: s) c r :=
  ⟨(skipTrivia_blank ha).trans h.skip, h.sign⟩

/-- Where a sign stands ahead `name?` reads nothing. -/
theorem name? : name? s = none := by
  obtain ⟨hstart, hslash⟩ : isNameStart c = false ∧ c ≠ '\\' := by
    simpa [startsName] using h.sign
  have hlength : escapeLength (c :: r) = 0 := by
    by_contra hne
    obtain ⟨e, u, he, heq, -⟩ := exists_escaped hne
    obtain ⟨v, rfl⟩ := he.head
    exact hslash (List.cons.inj heq).1
  rw [TypeScript.name?, h.skip, nameHere?, hstart, hlength]
  rfl

theorem anyName : anyName s = none := by rw [TypeScript.anyName, h.name?]; rfl

theorem keyword (w : String) : keyword w s = none := by rw [TypeScript.keyword, h.name?]

theorem oneOf (ws : List String) : oneOf ws s = none := by rw [TypeScript.oneOf, h.name?]

theorem identifier : Scope.identifier s = none := by rw [Scope.identifier, h.name?]

/-- A symbol that begins with the sign ahead is taken if the rest of it follows; no other is. -/
theorem symbol (a : Char) (t : List Char) :
    symbol (a :: t) s = if a = c then strip t r else none := by
  rw [TypeScript.symbol, h.skip, strip]

/-- The sign ahead is taken as a symbol of its own. -/
theorem symbol_self : TypeScript.symbol [c] s = some r := by rw [h.symbol, if_pos rfl]; rfl

/-- Where the sign `c` stands ahead there is none of the `marks` without `c`. -/
theorem lacks {marks : List Char} (hm : c ∉ marks) : Lacks s marks := by
  intro a ha t
  rw [h.symbol, if_neg]
  rintro rfl
  exact hm ha

/-- The text starts with `a` just when `a` is the sign ahead. -/
theorem startsWith (a : Char) : startsWith a s = (c == a) := by
  rw [TypeScript.startsWith, h.skip]

/-- The sign ahead may begin a number, which `numberEnd` reads. -/
theorem number : Scope.number s = numberEnd (c :: r) := by rw [Scope.number, h.skip]

end SignAhead

/-! ### Combining readers -/

variable {p q : Reader}

theorem kleisli_apply (p q : Reader) (s : List Char) : (p >=> q) s = (p s).bind q := rfl

/-- What `p` takes is taken by `either p q`. -/
theorem either_left (h : p s = some r) : either p q s = some r := by rw [either, h]

/-- If `p` fails, `either p q` does what `q` does. -/
theorem either_right (h : p s = none) : either p q s = q s := by rw [either, h]

/-- What `p` takes is taken by `maybe p`. -/
theorem maybe_some (h : p s = some r) : maybe p s = some r := by rw [maybe, h]; rfl

/-- If `p` fails, `maybe p` takes nothing. -/
theorem maybe_none (h : p s = none) : maybe p s = some s := by rw [maybe, h]; rfl

/-- A reader that fails does so on the same line as well. -/
theorem sameLine_none (h : p s = none) : sameLine p s = none := by
  rw [sameLine, h, ite_self]

theorem endsHere_newline (s : List Char) : endsHere b ('\n' :: s) = breakEnds b s := rfl

/-- If `p` fails at once, `many k p` takes nothing. -/
theorem many_none {k : Nat} (h : p s = none) : many k p s = some s := by
  cases k with
  | zero => rfl
  | succ k => rw [many, h]

/-- What `p` takes is taken by `many`, which goes on behind it. -/
theorem many_some {k : Nat} (h : p s = some r) : many (k + 1) p s = many k p r := by
  rw [many, h]

end DeclarationDocs.TypeScript
