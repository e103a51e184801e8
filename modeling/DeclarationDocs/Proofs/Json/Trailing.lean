import DeclarationDocs.Proofs.Json.Forgiving
import DeclarationDocs.Proofs.Json.Lines
import DeclarationDocs.Proofs.Json.Verbatim

namespace DeclarationDocs.Json

open Relaxed (closesNext dropCommasFrom dropTrailingCommas)

/-!
# Which commas are trailing

Whether a comma goes is decided where it stands, by what is behind it; but whether it stands in a
literal depends on all that is in front of it.  This file says of every place of a text whether
there is a trailing comma at it, and compares the text that is left with these places.

* `Outside a` — a text that ends outside literals; `Quoting.after` reads that off character by
  character (`outside_iff`);
* `TrailingAt s i` — there is a trailing comma at the place `i`;
* `dropCommasFrom_eq` — from every place on, what is left are the characters at all other places;
* `literals_drop` — the literals are those of the text;
* `drop_drop_of_apart` — dropping commas again does nothing, if `CommasApart s`;
* `drop_trailing` — all of this together.
-/

/-- A text that ends outside literals: it is made of closed literals and of characters that open
    none. -/
inductive Outside : List Char → Prop
  | nil : Outside []
  | char {c : Char} {a : List Char} (hq : c ≠ '"') (h : Outside a) : Outside (c :: a)
  | literal {b a : List Char} (hb : Body b) (h : Outside a) : Outside ('"' :: (b ++ a))

/-- The first character that is no white space. -/
def nextVisible (s : List Char) : Option Char := s.find? fun c => !Text.isWhiteSpace c

/-- At the place `i` there is a comma that stands in no literal. -/
def CommaAt (s : List Char) (i : Nat) : Prop := s[i]? = some ',' ∧ Outside (s.take i)

/-- At the place `i` there is such a comma, and a closing bracket comes next. -/
def TrailingAt (s : List Char) (i : Nat) : Prop :=
  CommaAt s i ∧
    (nextVisible (s.drop (i + 1)) = some ']' ∨ nextVisible (s.drop (i + 1)) = some '\x7d')

/-- No two commas outside literals have only white space between them. -/
def CommasApart (s : List Char) : Prop :=
  ∀ i, CommaAt s i → nextVisible (s.drop (i + 1)) ≠ some ','

/-- The literals of a text, in order and with their quotes; the last one may not be closed. -/
def literals : List Char → List (List Char)
  | [] => []
  | '"' :: r => ('"' :: (literal r).1) :: literals (literal r).2
  | _ :: r => literals r
termination_by s => s.length
decreasing_by
  · have := length_literal_le r
    simp only [List.length_cons]
    omega
  · simp

variable {a b r s : List Char} {c : Char} {i : Nat}

/-! ### Outside literals, character by character -/

/-- How a place stands to the literals of a text. -/
inductive Quoting where
  | outside
  | inside
  /-- In a literal, behind a backslash that takes the next character with it. -/
  | escaped
deriving DecidableEq, Repr

/-- How the place behind a character stands to the literals. -/
def Quoting.step (q : Quoting) (c : Char) : Quoting :=
  match q with
  | outside => if c = '"' then inside else outside
  | inside => if c = '"' then outside else if c = '\\' then escaped else inside
  | escaped => inside

/-- How the end of a text `s` stands to its literals, if `q` is how its start stands to them. -/
def Quoting.after (q : Quoting) (s : List Char) : Quoting := s.foldl step q

/-- The state behind `s ++ r` is that behind `r`, begun in that behind `s`. -/
theorem Quoting.after_append (q : Quoting) (s r : List Char) :
    q.after (s ++ r) = (q.after s).after r := List.foldl_append

/-- The place behind one more character. -/
theorem Quoting.after_concat {p q : Quoting} (h : p.after a = q) (c : Char) :
    p.after (a ++ [c]) = q.step c := by
  rw [after_append, h]
  rfl

/-- Outside of literals only a quote changes the state. -/
theorem Quoting.step_outside (hq : c ≠ '"') : outside.step c = outside := if_neg hq

/-- Within a literal only a quote or a backslash changes it. -/
theorem Quoting.step_inside (hq : c ≠ '"') (hs : c ≠ '\\') : inside.step c = inside := by
  rw [step, if_neg hq, if_neg hs]

/-- The closing quote of a literal leads out of it. -/
theorem Body.after (h : Body b) : Quoting.inside.after b = .outside := by
  induction h with
  | quote => rfl
  | escape c _ ih => exact ih
  | @char c b hq hs _ ih =>
    show (Quoting.inside.step c).after b = _
    rw [Quoting.step_inside hq hs, ih]

/-- The end of a text does not lead out of a literal. -/
theorem Unclosed.after (h : Unclosed b) : Quoting.inside.after b ≠ .outside := by
  induction h with
  | nil => decide
  | backslash => decide
  | escape c _ ih => exact ih
  | @char c b hq hs _ ih =>
    show (Quoting.inside.step c).after b ≠ _
    rw [Quoting.step_inside hq hs]
    exact ih

/-- **Outside literals, character by character.**  By induction along the literals of the text. -/
theorem outside_iff : Outside s ↔ Quoting.outside.after s = .outside := by
  constructor
  · intro h
    induction h with
    | nil => rfl
    | @char c a hq _ ih =>
      show (Quoting.outside.step c).after a = _
      rw [Quoting.step_outside hq, ih]
    | literal hb _ ih =>
      show Quoting.inside.after _ = _
      rw [Quoting.after_append, hb.after, ih]
  · intro h
    induction s using literals.induct with
    | case1 => exact .nil
    | case2 r ih =>
      have hinside : Quoting.inside.after ((literal r).1 ++ (literal r).2) = .outside := by
        rw [literal_append]
        exact h
      rcases body_or_unclosed r with hb | ⟨hb, hr⟩
      · rw [Quoting.after_append, hb.after] at hinside
        rw [← literal_append r]
        exact .literal hb (ih hinside)
      · rw [hr, List.append_nil] at hinside
        exact absurd hinside hb.after
    | case3 c r hq ih =>
      change (Quoting.outside.step c).after r = _ at h
      rw [Quoting.step_outside hq] at h
      exact .char hq (ih h)

instance : DecidablePred Outside := fun _ => decidable_of_iff _ outside_iff.symm

instance (s : List Char) : DecidablePred (CommaAt s) := fun i =>
  inferInstanceAs (Decidable (s[i]? = some ',' ∧ Outside (s.take i)))

instance (s : List Char) : DecidablePred (TrailingAt s) := fun i =>
  inferInstanceAs (Decidable (CommaAt s i ∧ (_ ∨ _)))

instance : DecidablePred CommasApart := fun s =>
  decidable_of_iff (∀ i < s.length, CommaAt s i → nextVisible (s.drop (i + 1)) ≠ some ',')
    ⟨fun h i hi => h i (List.getElem?_eq_some_iff.mp hi.1).1 hi, fun h i _ => h i⟩

/-! ### Where a closing bracket comes next -/

/-- It is the next visible character that `closesNext` asks for. -/
theorem closesNext_iff :
    closesNext s = true ↔ nextVisible s = some ']' ∨ nextVisible s = some '\x7d' := by
  have hhead : nextVisible s = (s.dropWhile Text.isWhiteSpace).head? :=
    List.find?_not_eq_head?_dropWhile _ _
  rw [hhead]
  unfold closesNext
  cases s.dropWhile Text.isWhiteSpace with
  | nil => simp
  | cons c r => split <;> simp_all

/-! ### Place by place -/

/-- What is left of the text `r` behind `a` without the trailing commas of the whole text. -/
def remaining (a r : List Char) : List Char :=
  ((r.zipIdx a.length).filter fun x => ¬ TrailingAt (a ++ r) x.2).map Prod.fst

/-- The comma behind `a` is a trailing one if it is outside of literals and `r` closes. -/
theorem trailingAt_length : TrailingAt (a ++ c :: r) a.length ↔
    c = ',' ∧ Outside a ∧ closesNext r = true := by
  rw [closesNext_iff]
  simp [TrailingAt, CommaAt, List.drop_length_add_append, and_assoc]

/-- A trailing comma does not remain. -/
theorem remaining_of_trailing (h : TrailingAt (a ++ c :: r) a.length) :
    remaining a (c :: r) = remaining (a ++ [c]) r := by
  simp [remaining, List.zipIdx_cons, h]

/-- Any other character remains. -/
theorem remaining_of_not_trailing (h : ¬ TrailingAt (a ++ c :: r) a.length) :
    remaining a (c :: r) = c :: remaining (a ++ [c]) r := by
  simp [remaining, List.zipIdx_cons, h]

/-- What is no comma remains. -/
theorem remaining_of_ne (hc : c ≠ ',') : remaining a (c :: r) = c :: remaining (a ++ [c]) r :=
  remaining_of_not_trailing fun h => hc (trailingAt_length.mp h).1

/-- What is within a literal remains. -/
theorem remaining_of_quoting (h : Quoting.outside.after a ≠ .outside) :
    remaining a (c :: r) = c :: remaining (a ++ [c]) r :=
  remaining_of_not_trailing fun ht => h (outside_iff.mp (trailingAt_length.mp ht).2.1)

/-- **What is left, from every place on.**  By induction along the pass, whose flag says whether it
    is in a literal. -/
theorem dropCommasFrom_eq {inString : Bool}
    (h : Quoting.outside.after a = if inString then .inside else .outside) :
    dropCommasFrom inString r = remaining a r := by
  fun_induction dropCommasFrom inString r generalizing a with
  | case1 => rfl
  | case2 c r ih =>
    have hslash : Quoting.outside.after (a ++ ['\\']) = .escaped := Quoting.after_concat h '\\'
    rw [remaining_of_ne (by decide), remaining_of_quoting (by rw [hslash]; decide),
      ih (Quoting.after_concat hslash c)]
  | case3 r ih => rw [remaining_of_ne (by decide), ih (Quoting.after_concat h '"')]
  | case4 c r hs hq ih =>
    rw [remaining_of_quoting (by rw [h]; decide)]
    by_cases hc : c = '\\'
    · -- a backslash that escapes nothing ends the text
      cases r with
      | nil => rfl
      | cons x r => exact absurd rfl (hs x r hc)
    · rw [ih ((Quoting.after_concat h c).trans (Quoting.step_inside hq hc))]
  | case5 r ih => rw [remaining_of_ne (by decide), ih (Quoting.after_concat h '"')]
  | case6 r hgo ih =>
    have htrailing : TrailingAt (a ++ ',' :: r) a.length :=
      trailingAt_length.mpr ⟨rfl, outside_iff.mpr h, hgo⟩
    rw [remaining_of_trailing htrailing, ih (Quoting.after_concat h ',')]
  | case7 r hgo ih =>
    have hkept : ¬ TrailingAt (a ++ ',' :: r) a.length :=
      fun htrailing => hgo (trailingAt_length.mp htrailing).2.2
    rw [remaining_of_not_trailing hkept, ih (Quoting.after_concat h ',')]
  | case8 c r hq hcomma ih =>
    rw [remaining_of_ne hcomma, ih ((Quoting.after_concat h c).trans (Quoting.step_outside hq))]

/-! ### Literals -/

/-- A quote begins a literal. -/
theorem literals_quote (r : List Char) :
    literals ('"' :: r) = ('"' :: (literal r).1) :: literals (literal r).2 := by
  rw [literals]

/-- Any other character outside of literals belongs to none. -/
theorem literals_of_char (hq : c ≠ '"') (r : List Char) : literals (c :: r) = literals r := by
  rw [literals]
  exact hq

/-- **Literals** are left as they are. -/
theorem literals_drop (s : List Char) : literals (dropCommasFrom false s) = literals s := by
  fun_induction literals s with
  | case1 => simp [dropCommasFrom, literals]
  | case2 r ih =>
    rw [dropCommasFrom_quote, literals_quote, literal_drop, ih]
  | case3 c r hq ih =>
    by_cases hcomma : c = ','
    · subst hcomma
      rw [dropCommasFrom_comma]
      split
      · exact ih
      · rw [literals_of_char hq, ih]
    · rw [dropCommasFrom_of_char hq hcomma, literals_of_char hq, ih]

/-! ### Dropping commas again -/

/-- What comes next still does so, unless it was a comma. -/
theorem nextVisible_drop (h : nextVisible s ≠ some ',') :
    nextVisible (dropCommasFrom false s) = nextVisible s := by
  induction s with
  | nil => rfl
  | cons c r ih =>
    by_cases hspace : Text.isWhiteSpace c = true
    · have hskip : ∀ t, nextVisible (c :: t) = nextVisible t :=
        fun t => List.find?_cons_of_neg (by simp [hspace])
      have hone : dropCommasFrom false (c :: r) = c :: dropCommasFrom false r :=
        dropCommasFrom_of_char (ne_of_isWhiteSpace hspace (by decide))
          (ne_of_isWhiteSpace hspace (by decide)) r
      rw [hskip] at h
      rw [hone, hskip, hskip, ih h]
    · have hhere : ∀ t, nextVisible (c :: t) = some c :=
        fun t => List.find?_cons_of_pos (by simpa using hspace)
      have hcomma : c ≠ ',' := by
        rintro rfl
        exact h (hhere r)
      by_cases hq : c = '"'
      · subst hq
        rfl
      · rw [dropCommasFrom_of_char hq hcomma, hhere, hhere]

/-- Two texts that end outside of literals do so together. -/
theorem Outside.append (ha : Outside a) (hs : Outside s) : Outside (a ++ s) := by
  rw [outside_iff] at ha hs ⊢
  rw [Quoting.after_append, ha, hs]

/-- Commas that stand apart do so behind what ends outside literals. -/
theorem CommasApart.right (h : CommasApart (a ++ s)) (ha : Outside a) : CommasApart s := by
  rintro i ⟨hi, hs⟩
  have hcomma : CommaAt (a ++ s) (a.length + i) := by
    refine ⟨?_, ?_⟩
    · rw [List.getElem?_append_right (Nat.le_add_right _ _), Nat.add_sub_cancel_left]
      exact hi
    · rw [List.take_length_add_append]
      exact ha.append hs
  have hnext := h _ hcomma
  rwa [Nat.add_assoc, List.drop_length_add_append] at hnext

/-- **Dropping commas again does nothing** if no two of them stood side by side. -/
theorem drop_drop_of_apart (h : CommasApart s) :
    dropCommasFrom false (dropCommasFrom false s) = dropCommasFrom false s := by
  induction s using literals.induct with
  | case1 => rfl
  | case2 r ih =>
    have hrest : CommasApart (literal r).2 := by
      rcases body_or_unclosed r with hb | ⟨-, hr⟩
      · have hliteral : Outside ('"' :: ((literal r).1 ++ [])) := .literal hb .nil
        have hwhole : CommasApart ('"' :: ((literal r).1 ++ []) ++ (literal r).2) := by
          rwa [List.append_nil, List.cons_append, literal_append]
        exact hwhole.right hliteral
      · rw [hr]
        exact fun i hi => absurd hi.1 (by simp)
    rw [dropCommasFrom_quote, dropCommasFrom_quote, literal_drop, ih hrest]
  | case3 c r hq ih =>
    have hrest : CommasApart r := h.right (a := [c]) (.char hq .nil)
    by_cases hcomma : c = ','
    · subst hcomma
      by_cases hgo : closesNext r = true
      · rw [dropCommasFrom_comma, if_pos hgo, ih hrest]
      · -- what comes next is no comma, and so it is still there and closes nothing
        have hnext : nextVisible r ≠ some ',' := h 0 ⟨rfl, .nil⟩
        have hstay : ¬ closesNext (dropCommasFrom false r) = true := by
          rwa [closesNext_iff, nextVisible_drop hnext, ← closesNext_iff]
        rw [dropCommasFrom_comma, if_neg hgo, dropCommasFrom_comma, if_neg hstay, ih hrest]
    · rw [dropCommasFrom_of_char hq hcomma, dropCommasFrom_of_char hq hcomma, ih hrest]

/-- Where dropping commas does nothing, none is trailing. -/
theorem not_trailingAt_of_drop (h : dropTrailingCommas s = s) (i : Nat) : ¬ TrailingAt s i := by
  intro htrailing
  have hleft : remaining [] s = s := (dropCommasFrom_eq rfl).symm.trans h
  have hlength : (s.zipIdx.filter fun x => ¬ TrailingAt s x.2).length = s.zipIdx.length := by
    rw [List.length_zipIdx]
    conv_rhs => rw [← hleft]
    rw [remaining, List.length_map]
    rfl
  have hall := List.length_filter_eq_length_iff.mp hlength
  have hmem : (',', i) ∈ s.zipIdx := List.mem_zipIdx_iff_getElem?.mpr htrailing.1.1
  simpa [htrailing] using hall _ hmem

/-- **Trailing commas.**  `dropTrailingCommas s` has the characters of `s` at all places that are
    not `TrailingAt s`, and all its `literals`.  Unless two commas stand side by side, with only
    white space between them (`CommasApart s`), no comma of what is left is trailing, and dropping
    commas again does nothing. -/
theorem drop_trailing (s : List Char) :
    dropTrailingCommas s = (s.zipIdx.filter fun x => ¬ TrailingAt s x.2).map Prod.fst ∧
      literals (dropTrailingCommas s) = literals s ∧
      (CommasApart s → (∀ i, ¬ TrailingAt (dropTrailingCommas s) i) ∧
        dropTrailingCommas (dropTrailingCommas s) = dropTrailingCommas s) := by
  refine ⟨dropCommasFrom_eq (a := []) rfl, literals_drop s, fun hapart => ?_⟩
  have hagain : dropTrailingCommas (dropTrailingCommas s) = dropTrailingCommas s :=
    drop_drop_of_apart hapart
  exact ⟨not_trailingAt_of_drop hagain, hagain⟩

/-- A text with a trailing comma of each kind, and a literal that holds one. -/
def trailingSample : List Char := "[\x7b1,\x7d, \"\\\",]\",\u2003\n]".toList

/-- Two commas in front of brackets are dropped, and one within a literal is kept. -/
theorem drop_trailing_sample :
    CommasApart trailingSample ∧
      dropTrailingCommas trailingSample = "[\x7b1\x7d, \"\\\",]\"\u2003\n]".toList ∧
      dropTrailingCommas (dropTrailingCommas trailingSample)
        = dropTrailingCommas trailingSample := by
  have hapart : CommasApart trailingSample := by decide
  exact ⟨hapart, by decide, ((drop_trailing trailingSample).2.2 hapart).2⟩

/-- Of two commas side by side only the second one is trailing, and then the first one is. -/
example : dropTrailingCommas "[,,]".toList = "[,]".toList ∧
    dropTrailingCommas "[,]".toList = "[]".toList := by decide

end DeclarationDocs.Json
