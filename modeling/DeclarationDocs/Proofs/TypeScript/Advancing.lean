import DeclarationDocs.Proofs.TypeScript.Ahead
import DeclarationDocs.TypeScript.Statement

namespace DeclarationDocs.TypeScript

/-!
# Readers advance

A reader goes forward: what it leaves of a text is the end of that text.  So whatever lies between
two places that were reached one behind the other is a part of the text, as it is written.

* `Advances p` — the reader `p` leaves an end of what it is given;
* `skipTrivia_suffix`, `skipTrivia_head` — trivia;
* `advances_seq`, `advances_either`, `advances_many` and the like — readers made of readers.
-/

/-- A reader that leaves an end of what it is given. -/
class Advances (p : Reader) : Prop where
  suffix : ∀ {s r : List Char}, p s = some r → r <:+ s

variable {s t r n : List Char} {p q : Reader}

/-! ### What lies between two places -/

/-- What lies between `s ++ r` and its end `r` is `s`. -/
theorem upTo_append (s r : List Char) : upTo (s ++ r) r = s := by
  simp [upTo]

/-- What lies up to an end of `s`, with that end, is `s`. -/
theorem upTo_append_of_suffix (h : r <:+ s) : upTo s r ++ r = s := by
  obtain ⟨a, rfl⟩ := h
  rw [upTo_append]

/-! ### Trivia -/

/-- Trivia ends behind where it begins, or where the comment begins that has no end. -/
theorem triviaFrom_suffix (part : TriviaPart) (crossed : Bool) (hs : s <:+ t)
    (hpart : ∀ start, part = .block start → start <:+ t) :
    (triviaFrom part crossed s).2 <:+ t := by
  fun_induction triviaFrom part crossed s with
  | case1 start crossed => exact hpart start rfl
  | case2 part crossed _ => exact List.nil_suffix
  | case3 crossed r ih => exact ih ((List.suffix_append ['/', '/'] r).trans hs) (by simp)
  | case4 crossed r ih =>
    refine ih ((List.suffix_append ['/', '*'] r).trans hs) fun start hstart => ?_
    obtain rfl := TriviaPart.block.inj hstart
    exact hs
  | case5 crossed c r _ _ _ ih => exact ih ((List.suffix_cons c r).trans hs) (by simp)
  | case6 crossed c r _ _ _ => exact hs
  | case7 crossed c r _ ih => exact ih ((List.suffix_cons c r).trans hs) (by simp)
  | case8 crossed c r _ ih => exact ih ((List.suffix_cons c r).trans hs) (by simp)
  | case9 start crossed r ih => exact ih ((List.suffix_append ['*', '/'] r).trans hs) (by simp)
  | case10 start crossed c r _ ih => exact ih ((List.suffix_cons c r).trans hs) hpart

/-- Trivia is taken from the front: `skipTrivia s <:+ s`. -/
theorem skipTrivia_suffix (s : List Char) : skipTrivia s <:+ s :=
  triviaFrom_suffix .blank false (List.suffix_refl s) (by simp)

/-- A lexeme does not begin with a blank. -/
theorem triviaFrom_head (part : TriviaPart) (crossed : Bool) {c : Char}
    (hpart : ∀ start, part = .block start → start.head? = some '/')
    (h : (triviaFrom part crossed s).2 = c :: r) : isBlank c = false := by
  fun_induction triviaFrom part crossed s with
  | case1 start crossed =>
    -- a comment that is never closed is handed back from its slash on
    obtain rfl : c = '/' := by simpa [show start = c :: r from h] using hpart start rfl
    decide
  | case2 part crossed _ => exact absurd h (by simp)
  | case3 crossed r ih => exact ih (by simp) h
  | case4 crossed r ih =>
    refine ih (fun start hstart => ?_) h
    obtain rfl := TriviaPart.block.inj hstart
    rfl
  | case5 crossed c' r' _ _ _ ih => exact ih (by simp) h
  | case6 crossed c' r' _ _ hblank =>
    obtain ⟨rfl, -⟩ := List.cons.inj h
    simpa using hblank
  | case7 crossed c' r' _ ih => exact ih (by simp) h
  | case8 crossed c' r' _ ih => exact ih (by simp) h
  | case9 start crossed r' ih => exact ih (by simp) h
  | case10 start crossed c' r' _ ih => exact ih hpart h

/-- No blank is left in front. -/
theorem skipTrivia_head {c : Char} (h : skipTrivia s = c :: r) : isBlank c = false :=
  triviaFrom_head .blank false (by simp) h

instance : Advances commentEnd where
  suffix {s r} h := by
    have hclosing : ∀ t : List Char, commentEnd.closing t = some r → r <:+ t := by
      intro t ht
      fun_induction commentEnd.closing t with
      | case1 => exact absurd ht (by simp)
      | case2 t => exact Option.some.inj ht ▸ List.suffix_append ['*', '/'] t
      | case3 c t _ ih => exact (ih ht).trans (List.suffix_cons c t)
    unfold commentEnd at h
    split at h
    · rename_i t
      obtain rfl := Option.some.inj h
      exact (List.dropWhile_suffix _).trans (List.suffix_append ['/', '/'] t)
    · rename_i t
      exact (hclosing t h).trans (List.suffix_append ['/', '*'] t)
    · exact absurd h (by simp)

/-! ### Names -/

/-- What goes on with a name is taken from the front. -/
theorem nameTail_suffix (s : List Char) : (nameTail 0 s).2 <:+ s := by
  obtain ⟨-, hsplit⟩ := nameTail_spec s
  exact ⟨_, hsplit.symm⟩

/-- A name is taken as it is spelled: `n ++ r = s`. -/
theorem nameHere?_suffix (h : nameHere? s = some (n, r)) : n ++ r = s :=
  (nameHere?_eq_some h).2.symm

/-- A name stands behind trivia, and what follows it is left. -/
theorem name?_suffix (h : name? s = some (n, r)) : n ++ r <:+ s := by
  rw [nameHere?_suffix h]
  exact skipTrivia_suffix s

/-- Behind a name that `name?` reads an end of the text is left. -/
theorem rest_suffix_of_name? (h : name? s = some (n, r)) : r <:+ s :=
  (List.suffix_append n r).trans (name?_suffix h)

instance : Advances anyName where
  suffix h := by
    obtain ⟨⟨n, t⟩, hname, rfl⟩ := Option.map_eq_some_iff.mp h
    exact rest_suffix_of_name? hname

instance (w : String) : Advances (keyword w) where
  suffix h := by
    unfold keyword at h
    split at h
    · rename_i hname
      split at h
      · exact Option.some.inj h ▸ rest_suffix_of_name? hname
      · exact absurd h (by simp)
    · exact absurd h (by simp)

instance (ws : List String) : Advances (oneOf ws) where
  suffix h := by
    unfold oneOf at h
    split at h
    · rename_i hname
      split at h
      · exact Option.some.inj h ▸ rest_suffix_of_name? hname
      · exact absurd h (by simp)
    · exact absurd h (by simp)

/-! ### Marks -/

/-- A mark that is removed stood at the head of the text. -/
theorem strip_eq_some (h : strip t s = some r) : s = t ++ r := by
  fun_induction strip t s with
  | case1 s => exact Option.some.inj h
  | case2 => exact absurd h (by simp)
  | case3 a t s ih => rw [ih h, List.cons_append]
  | case4 => exact absurd h (by simp)

/-- A mark that is stepped over stands behind trivia. -/
theorem symbol_suffix (h : symbol t s = some r) : t ++ r <:+ s := by
  rw [← strip_eq_some h]
  exact skipTrivia_suffix s

instance : Advances (strip t) where
  suffix h := strip_eq_some h ▸ List.suffix_append _ _

instance : Advances (symbol t) where
  suffix h := (List.suffix_append _ _).trans (symbol_suffix h)

/-! ### Literals -/

instance (quote : Char) : Advances (stringEnd quote) where
  suffix {s r} h := by
    fun_induction stringEnd quote s with
    | case1 => exact absurd h (by simp)
    | case2 c t ih => exact (ih h).trans (List.suffix_append ['\\', c] t)
    | case3 t _ => exact Option.some.inj h ▸ List.suffix_cons _ t
    | case4 t _ _ => exact absurd h (by simp)
    | case5 c t _ _ _ ih => exact (ih h).trans (List.suffix_cons c t)

instance (quote : Char) : Advances (attributeEnd quote) where
  suffix {s r} h := by
    fun_induction attributeEnd quote s with
    | case1 => exact absurd h (by simp)
    | case2 t => exact Option.some.inj h ▸ List.suffix_cons _ t
    | case3 c t _ ih => exact (ih h).trans (List.suffix_cons c t)

instance (inClass : Bool) : Advances (regexEnd inClass) where
  suffix {s r} h := by
    fun_induction regexEnd inClass s with
    | case1 => exact absurd h (by simp)
    | case2 => exact absurd h (by simp)
    | case3 => exact absurd h (by simp)
    | case4 b c t _ ih => exact (ih h).trans (List.suffix_append ['\\', c] t)
    | case5 t ih => exact (ih h).trans (List.suffix_cons _ t)
    | case6 t ih => exact (ih h).trans (List.suffix_cons _ t)
    | case7 t => exact Option.some.inj h ▸ (nameTail_suffix t).trans (List.suffix_cons _ t)
    | case8 b c t _ _ _ _ _ ih => exact (ih h).trans (List.suffix_cons c t)

/-- Behind a number an end of the text is left. -/
theorem numberTail_suffix (s : List Char) : numberTail s <:+ s := by
  unfold numberTail
  extract_lets t
  -- the exponent, if there is one
  have ht : t <:+ s := by
    unfold t
    split
    · rename_i e r
      split
      · split
        · rename_i u
          exact (List.dropWhile_suffix _).trans (List.suffix_append [e, '+'] u)
        · rename_i u
          exact (List.dropWhile_suffix _).trans (List.suffix_append [e, '-'] u)
        · exact (List.dropWhile_suffix _).trans (List.suffix_cons e r)
      · exact List.suffix_refl _
    · exact List.suffix_refl _
  clear_value t
  split
  · rename_i r
    exact (List.suffix_cons 'n' r).trans ht
  · exact ht

theorem fraction_suffix (s : List Char) : numberEnd.fraction s <:+ s := by
  unfold numberEnd.fraction
  split
  · rename_i t
    exact (List.dropWhile_suffix _).trans (List.suffix_cons _ t)
  · exact List.suffix_refl _

instance : Advances numberEnd where
  suffix {s r} h := by
    have hplain (t : List Char) :
        numberTail (numberEnd.fraction (t.dropWhile isDigitPart)) <:+ t :=
      ((numberTail_suffix _).trans (fraction_suffix _)).trans (List.dropWhile_suffix _)
    unfold numberEnd at h
    split at h
    · rename_i x t
      split at h
      · obtain rfl := Option.some.inj h
        exact (List.dropWhile_suffix _).trans (List.suffix_append ['0', x] t)
      · obtain rfl := Option.some.inj h
        exact (hplain (x :: t)).trans (List.suffix_cons '0' _)
    · rename_i d t
      split at h
      · obtain rfl := Option.some.inj h
        exact ((numberTail_suffix _).trans (List.dropWhile_suffix _)).trans
          (List.suffix_append ['.', d] t)
      · exact absurd h (by simp)
    · rename_i d t _ _
      split at h
      · obtain rfl := Option.some.inj h
        exact (hplain t).trans (List.suffix_cons d t)
      · exact absurd h (by simp)
    · exact absurd h (by simp)

theorem templateChunk_suffix {hole : Bool} (h : templateChunk s = some (hole, r)) : r <:+ s := by
  fun_induction templateChunk s with
  | case1 => exact absurd h (by simp)
  | case2 c t ih => exact (ih h).trans (List.suffix_append ['\\', c] t)
  | case3 t => exact (Prod.mk.inj (Option.some.inj h)).2 ▸ List.suffix_cons _ t
  | case4 t => exact (Prod.mk.inj (Option.some.inj h)).2 ▸ List.suffix_append ['$', '\x7b'] t
  | case5 c t _ _ _ ih => exact (ih h).trans (List.suffix_cons c t)

/-! ### Readers made of readers -/

instance advances_seq [hp : Advances p] [hq : Advances q] : Advances (p >=> q) where
  suffix h := by
    obtain ⟨t, ht, hr⟩ := Option.bind_eq_some_iff.mp h
    exact (hq.suffix hr).trans (hp.suffix ht)

instance advances_either [hp : Advances p] [hq : Advances q] : Advances (either p q) where
  suffix h := by
    unfold either at h
    split at h
    · rename_i t ht
      exact Option.some.inj h ▸ hp.suffix ht
    · exact hq.suffix h

instance advances_maybe [hp : Advances p] : Advances (maybe p) where
  suffix {s r} h := by
    obtain rfl := Option.some.inj h
    cases ht : p s with
    | none => exact List.suffix_refl s
    | some t => exact hp.suffix ht

instance advances_many [hp : Advances p] (k : Nat) : Advances (many k p) where
  suffix {s r} h := by
    induction k generalizing s with
    | zero => exact Option.some.inj h ▸ List.suffix_refl _
    | succ k ih =>
      unfold many at h
      split at h
      · rename_i t ht
        exact (ih h).trans (hp.suffix ht)
      · exact Option.some.inj h ▸ List.suffix_refl _

instance (f : List Char → Bool) : Advances (provided f) where
  suffix h := by
    unfold provided at h
    split at h
    · exact Option.some.inj h ▸ List.suffix_refl _
    · exact absurd h (by simp)

instance advances_sameLine [hp : Advances p] : Advances (sameLine p) where
  suffix h := by
    unfold sameLine at h
    split at h
    · exact absurd h (by simp)
    · exact hp.suffix h

instance : Advances some where
  suffix h := Option.some.inj h ▸ List.suffix_refl _

/-- What stands between two marks is shorter than the whole by both of them. -/
theorem length_between [hp : Advances p] {a b : Char}
    (h : (symbol [a] >=> p >=> symbol [b]) s = some r) : r.length + 2 ≤ s.length := by
  obtain ⟨t, ht, h⟩ := Option.bind_eq_some_iff.mp h
  obtain ⟨u, hu, h⟩ := Option.bind_eq_some_iff.mp h
  have hopen := (symbol_suffix ht).length_le
  have hinner := (hp.suffix hu).length_le
  have hclose := (symbol_suffix h).length_le
  simp only [List.singleton_append, List.length_cons] at hopen hclose
  omega

/-! ### Ends of statements -/

/-- Behind a statement an end of the text is left, with a semicolon or without. -/
theorem semicolon_suffix (inExpression : Bool) (k : Nat) (s : List Char) :
    semicolon inExpression k s <:+ s := by
  induction k generalizing s with
  | zero => exact List.suffix_refl s
  | succ k ih =>
    unfold semicolon
    have hblank : s.dropWhile isBlank <:+ s := List.dropWhile_suffix _
    split
    · exact List.suffix_refl s
    · dsimp only
      split
      · rename_i t ht
        exact ((List.suffix_cons ';' t).trans (ht ▸ List.suffix_refl _)).trans hblank
      · split
        · rename_i r hr
          exact ((ih r).trans (Advances.suffix hr)).trans hblank
        · exact List.suffix_refl s

/-- A reader that is followed by the step to where its statement ends. -/
instance advances_semicolon [hp : Advances p] (inExpression : Bool) (k : Nat) :
    Advances fun s => (p s).map (semicolon inExpression k) where
  suffix h := by
    obtain ⟨t, ht, rfl⟩ := Option.map_eq_some_iff.mp h
    exact (semicolon_suffix _ _ t).trans (hp.suffix ht)

instance (inExpression : Bool) (k : Nat) :
    Advances fun s => some (semicolon inExpression k s) where
  suffix h := Option.some.inj h ▸ semicolon_suffix _ _ _

instance (k : Nat) : Advances (commentsToBreak k) where
  suffix {s r} h := by
    induction k generalizing s with
    | zero => exact absurd h (by simp [commentsToBreak])
    | succ k ih =>
      unfold commentsToBreak at h
      split at h
      · exact Option.some.inj h ▸ List.suffix_refl _
      · obtain ⟨t, ht, hr⟩ := Option.bind_eq_some_iff.mp h
        exact ((ih hr).trans (Advances.suffix ht)).trans (List.dropWhile_suffix _)

theorem wordContinues_suffix {k : Nat} {before commented : Bool}
    (h : wordContinues k before s = some (commented, r)) : r <:+ s := by
  induction k generalizing before s with
  | zero => exact absurd h (by simp [wordContinues])
  | succ k ih =>
    unfold wordContinues at h
    split at h
    · exact absurd h (by simp)
    · dsimp only at h
      have hblank : s.dropWhile isBlank <:+ s := List.dropWhile_suffix _
      split at h
      · rename_i t ht
        exact ((ih h).trans (Advances.suffix ht)).trans hblank
      · exact (Prod.mk.inj (Option.some.inj h)).2 ▸ hblank

end DeclarationDocs.TypeScript
