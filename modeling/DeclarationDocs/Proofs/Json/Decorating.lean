import DeclarationDocs.Proofs.Json.Grammar
import Mathlib.Data.List.Chain

namespace DeclarationDocs.Json

open Relaxed (stripFrom closesNext dropCommasFrom)

/-!
# Relaxed JSON is JSON with decorations

A strict text is decorated with blanks, comments and trailing commas between its lexemes.  Making
the decorated text strict again takes the comments and commas out, leaves the lexemes as they
were, and so does not change the value.

* `Decorates s d` — `d` has the lexemes of `s`, with fillers and trailing commas between them;
* `Filler.strip`, `Spaced.strip` — comments become blanks;
* `Forgives.drop` — commas in front of closing brackets go, all others stay;
* `Spaced.lexemes_eq` — what is left has the lexemes of the strict text;
* `parse_of_decorates` — so `Relaxed.parse d = .ok v` if `parse s = .ok v` and `Decorates s d`.
-/

/-! ### Decorations -/

/-- What may stand between lexemes: blanks and comments. -/
inductive Filler : List Char → Prop
  | none : Filler []
  | blank {c : Char} {f : List Char} (hc : isBlank c = true) (h : Filler f) : Filler (c :: f)
  | line {b f : List Char} (hb : '\n' ∉ b) (h : Filler f) : Filler ('/' :: '/' :: (b ++ '\n' :: f))
  | block {b f : List Char} (hb : ¬ ['*', '/'] <:+: b) (h : Filler f) :
      Filler ('/' :: '*' :: (b ++ '*' :: '/' :: f))

/-- What may stand behind the last lexeme: a line comment may also end with the text. -/
def Trailer (t : List Char) : Prop :=
  Filler t ∨ ∃ f b, Filler f ∧ '\n' ∉ b ∧ t = f ++ '/' :: '/' :: b

/-- Nothing but blanks. -/
def Blank (f : List Char) : Prop := ∀ c ∈ f, isBlank c = true

/-- A text is made of these lexemes with gaps in front of them and a trailer behind them. -/
inductive Spaced (gap trailer : List Char → Prop) : List (List Char) → List Char → Prop
  | done {f : List Char} (hf : trailer f) : Spaced gap trailer [] f
  | lexeme {f l s : List Char} {ls : List (List Char)} (hf : gap f) (h : Spaced gap trailer ls s) :
      Spaced gap trailer (l :: ls) (f ++ (l ++ s))

/-- Whether a lexeme opens an array or object. -/
def Opens (l : List Char) : Prop := l = ['['] ∨ l = ['\x7b']

/-- Whether a lexeme closes an array or object. -/
def Closes (l : List Char) : Prop := l = [']'] ∨ l = ['\x7d']

/-- The second list is the first one with commas in front of some closing brackets, never behind
    the opening one. -/
inductive Loosens : List (List Char) → List (List Char) → Prop
  | nil : Loosens [] []
  | keep {l : List Char} {ls ms : List (List Char)} (h : Loosens ls ms) :
      Loosens (l :: ls) (l :: ms)
  | comma {l m : List Char} {ls ms : List (List Char)} (hl : ¬ Opens l) (hm : Closes m)
      (h : Loosens (m :: ls) ms) : Loosens (l :: m :: ls) (l :: [','] :: ms)

/-- The second list is the first one with commas in front of some closing brackets, wherever these
    stand. -/
inductive Forgives : List (List Char) → List (List Char) → Prop
  | nil : Forgives [] []
  | keep {l : List Char} {ls ms : List (List Char)} (h : Forgives ls ms) :
      Forgives (l :: ls) (l :: ms)
  | comma {m : List Char} {ls ms : List (List Char)} (hm : Closes m) (h : Forgives ls ms) :
      Forgives (m :: ls) ([','] :: m :: ms)

/-- The second text is the first one with blanks and comments put before, after and between the
    lexemes, and commas behind the last elements of arrays and objects. -/
def Decorates (s d : List Char) : Prop :=
  ∃ ls, Loosens (lexemes s) ls ∧ Spaced Filler Trailer ls d

variable {s r l m f d : List Char} {ls ms : List (List Char)} {c x : Char} {n : Nat} {v : Json}
  {p : Part} {gap trailer : List Char → Prop}

/-- Every text has its lexemes, with blanks between them. -/
theorem spaced_lexemes (hgap : ∀ f, Blank f → gap f) (htrailer : ∀ f, Blank f → trailer f)
    (s : List Char) : Spaced gap trailer (lexemes s) s := by
  have hsplit : s.takeWhile isBlank ++ s.dropWhile isBlank = s := List.takeWhile_append_dropWhile
  have hblank : Blank (s.takeWhile isBlank) := fun c hc => List.mem_takeWhile_imp hc
  cases hls : lexemes s with
  | nil =>
    rw [lexemes_eq_nil_iff] at hls
    rw [hls, List.append_nil] at hsplit
    rw [hsplit] at hblank
    exact .done (htrailer s hblank)
  | cons l ls =>
    obtain ⟨r, hr, hne, -, rfl⟩ := exists_of_lexemes_eq_cons hls
    have hlen : r.length < s.length := by
      have hle : (s.dropWhile isBlank).length ≤ s.length := (List.dropWhile_suffix isBlank).length_le
      have hpos : 0 < l.length := List.length_pos_iff.mpr hne
      rw [hr, List.length_append] at hle
      omega
    have ih := spaced_lexemes hgap htrailer r
    rw [hr] at hsplit
    rw [← hsplit]
    exact .lexeme (hgap _ hblank) ih
termination_by s.length

/-! ### Neighbours -/

/-- What the lexemes of a value satisfy pairwise: two words never meet, and no comma stands in
    front of a closing bracket. -/
def Apart (a b : List Char) : Prop := ¬ (IsWord a ∧ IsWord b) ∧ ¬ (a = [','] ∧ Closes b)

/-- A mark that is no comma may stand in front of any lexeme. -/
theorem apart_of_mark (hx : x ∈ marks) (hc : x ≠ ',') (b : List Char) : Apart [x] b := by
  refine ⟨fun h => not_isWord_mark hx h.1, fun h => hc ?_⟩
  simpa using h.1

/-- Every lexeme of a value is a token. -/
theorem Spells.token (h : Spells n p ls) : ∀ l ∈ ls, Token l := by
  have hlead : ∀ first, ∀ l ∈ lead first, Token l := by
    intro first l hl
    cases first with
    | true => cases hl
    | false =>
      obtain rfl : l = [','] := by simpa [lead] using hl
      exact .mark (by decide)
  induction h with
  | atom h => exact List.forall_mem_singleton.mpr h.token
  | array _ _ ih => exact List.forall_mem_cons.mpr ⟨.mark (by decide), ih⟩
  | object _ _ ih => exact List.forall_mem_cons.mpr ⟨.mark (by decide), ih⟩
  | noItem => exact List.forall_mem_singleton.mpr (.mark (by decide))
  | item _ _ ihv ihvs =>
    have hitems := List.forall_mem_append.mpr ⟨ihv, ihvs⟩
    exact List.forall_mem_append.mpr ⟨hlead _, hitems⟩
  | noMember => exact List.forall_mem_singleton.mpr (.mark (by decide))
  | member hk _ _ ihv ihms =>
    have hmembers := List.forall_mem_append.mpr ⟨ihv, ihms⟩
    have hbehind := List.forall_mem_cons.mpr ⟨Token.mark (show ':' ∈ marks by decide), hmembers⟩
    exact List.forall_mem_append.mpr ⟨hlead _, List.forall_mem_cons.mpr ⟨hk.token, hbehind⟩⟩

/-- No part of a value ends with a comma. -/
theorem Spells.exists_last (h : Spells n p ls) : ∃ rs l, ls = rs ++ [l] ∧ l ≠ [','] := by
  induction h with
  | @atom _ _ l h =>
    obtain ⟨x, hx, hmark⟩ := h.exists_head
    refine ⟨[], l, rfl, ?_⟩
    rintro rfl
    obtain rfl : ',' = x := by simpa using hx
    exact hmark (by decide)
  | array _ _ ih =>
    obtain ⟨rs, l, rfl, hl⟩ := ih
    exact ⟨['['] :: rs, l, rfl, hl⟩
  | object _ _ ih =>
    obtain ⟨rs, l, rfl, hl⟩ := ih
    exact ⟨['\x7b'] :: rs, l, rfl, hl⟩
  | noItem => exact ⟨[], _, rfl, by decide⟩
  | @item _ first _ _ ls _ _ _ _ ih =>
    obtain ⟨rs, l, rfl, hl⟩ := ih
    exact ⟨lead first ++ (ls ++ rs), l, by simp, hl⟩
  | noMember => exact ⟨[], _, rfl, by decide⟩
  | @member _ first _ _ _ k ls _ _ _ _ _ ih =>
    obtain ⟨rs, l, rfl, hl⟩ := ih
    exact ⟨lead first ++ k :: [':'] :: (ls ++ rs), l, by simp, hl⟩

/-- What stands behind a value that is followed by a mark. -/
theorem isChain_append_mark {rs ts : List (List Char)} (hls : ∃ qs l, ls = qs ++ [l] ∧ l ≠ [','])
    (hrs : rs = [x] :: ts) (hx : x ∈ marks) (hchain : ls.IsChain Apart)
    (hchain' : rs.IsChain Apart) : (ls ++ rs).IsChain Apart := by
  obtain ⟨qs, l, rfl, hl⟩ := hls
  subst hrs
  rw [List.append_assoc, List.singleton_append, List.isChain_append_cons_cons]
  exact ⟨hchain, ⟨fun h => not_isWord_mark hx h.2, fun h => hl h.1⟩, hchain'⟩

/-- The comma in front of an item is not in front of a closing bracket. -/
theorem isChain_lead (first : Bool) (hl : ¬ Closes l) (h : (l :: ls).IsChain Apart) :
    (lead first ++ l :: ls).IsChain Apart := by
  cases first with
  | true => exact h
  | false =>
    have hcomma : ¬ IsWord [','] := not_isWord_mark (by decide)
    exact List.isChain_cons_cons.mpr ⟨⟨fun h => hcomma h.1, fun h => hl h.2⟩, h⟩

/-- A lexeme that begins with none of these marks closes nothing. -/
theorem not_closes_of_head (hx : l.head? = some x) (hne : x ∉ [']', '\x7d', ',', ':']) :
    ¬ Closes l := by
  rintro (rfl | rfl)
  · obtain rfl : ']' = x := by simpa using hx
    exact hne (by decide)
  · obtain rfl : '\x7d' = x := by simpa using hx
    exact hne (by decide)

/-- **No two lexemes of a value get in each other's way.** -/
theorem Spells.isChain (h : Spells n p ls) : ls.IsChain Apart := by
  have hopen : ∀ {x ls}, x ∈ marks → x ≠ ',' → ls.IsChain Apart → ([x] :: ls).IsChain Apart :=
    fun hx hc h => List.isChain_cons.mpr ⟨fun b _ => apart_of_mark hx hc b, h⟩
  induction h with
  | atom _ => exact List.isChain_singleton _
  | array _ _ ih => exact hopen (by decide) (by decide) ih
  | object _ _ ih => exact hopen (by decide) (by decide) ih
  | noItem => exact List.isChain_singleton _
  | @item _ first _ _ _ _ hv hvs ihv ihvs =>
    obtain ⟨y, ts, hrs, hy⟩ := hvs.exists_mark (by simp) (by simp) (by simp)
    have hall := isChain_append_mark hv.exists_last hrs hy ihv ihvs
    obtain ⟨l, qs, x, rfl, hx, hne⟩ := hv.exists_head
    exact isChain_lead first (not_closes_of_head hx hne) hall
  | noMember => exact List.isChain_singleton _
  | @member _ first _ _ _ k _ _ hk hv hms ihv ihms =>
    obtain ⟨y, ts, hrs, hy⟩ := hms.exists_mark (by simp) (by simp) (by simp)
    have hall := isChain_append_mark hv.exists_last hrs hy ihv ihms
    have hcolon := hopen (x := ':') (by decide) (by decide) hall
    have hquote : ∀ l, k = [l] → l = '"' := by
      rintro l rfl
      simpa using hk.head
    refine isChain_lead first (not_closes_of_head hk.head (by decide)) ?_
    refine List.isChain_cons_cons.mpr ⟨⟨fun h => ?_, fun h => ?_⟩, hcolon⟩
    · exact not_isWord_mark (by decide) h.2
    · exact absurd (hquote _ h.1) (by decide)

/-! ### Taking comments out -/

/-- A pass that copies every character of a text copies the text. -/
theorem append_of_copies {pass : List Char → List Char}
    (h : ∀ c ∈ l, ∀ r, pass (c :: r) = c :: pass r) (s : List Char) :
    pass (l ++ s) = l ++ pass s := by
  induction l with
  | nil => rfl
  | cons c l ih =>
    have ih := ih fun x hx => h x (by simp [hx])
    rw [List.cons_append, h c (by simp), ih]
    rfl

/-- A character that opens neither a literal nor a comment is kept. -/
theorem stripFrom_of_char (hq : c ≠ '"') (hs : c ≠ '/') (r : List Char) :
    stripFrom .code (c :: r) = c :: stripFrom .code r := by
  rw [stripFrom]
  · exact hq
  · intro _ h _
    exact hs h
  · intro _ h _
    exact hs h

/-- Blanks are kept when comments are taken out. -/
theorem stripFrom_blank (hf : Blank f) (s : List Char) :
    stripFrom .code (f ++ s) = f ++ stripFrom .code s := by
  refine append_of_copies (fun c hc r => ?_) s
  have hq : c ≠ '"' := ne_of_isBlank (hf c hc) (by decide)
  have hs : c ≠ '/' := ne_of_isBlank (hf c hc) (by decide)
  exact stripFrom_of_char hq hs r

/-- Blanks are left as they are. -/
theorem Blank.strip_eq (hf : Blank f) : stripFrom .code f = f := by
  have hstrip : stripFrom .code (f ++ []) = f ++ [] := stripFrom_blank hf []
  rwa [List.append_nil] at hstrip

/-- A line comment goes up to its line break, which stays. -/
theorem stripFrom_lineComment {b : List Char} (hb : '\n' ∉ b) (s : List Char) :
    stripFrom .lineComment (b ++ s) = stripFrom .lineComment s := by
  induction b with
  | nil => rfl
  | cons c b ih =>
    have hc : c ≠ '\n' := fun h => hb (by simp [h])
    have hstep : stripFrom .lineComment (c :: (b ++ s)) = stripFrom .lineComment (b ++ s) := by
      rw [stripFrom]
      exact hc
    rw [List.cons_append, hstep, ih fun h => hb (by simp [h])]

/-- A block comment goes up to the first star and slash; the line breaks in it stay. -/
theorem stripFrom_blockComment {b : List Char} (hb : ¬ ['*', '/'] <:+: b) (s : List Char) :
    stripFrom .blockComment (b ++ '*' :: '/' :: s) = b.filter (· == '\n') ++ stripFrom .code s := by
  induction b with
  | nil => rfl
  | cons c b ih =>
    have ih := ih fun h => hb (h.trans (List.suffix_cons c b).isInfix)
    rw [List.cons_append]
    by_cases hn : c = '\n'
    · subst hn
      rw [List.filter_cons_of_pos (by decide), List.cons_append, ← ih]
      rfl
    rw [List.filter_cons_of_neg (by simpa using hn), ← ih, stripFrom]
    · -- the comment does not end within its text, nor with its last character and the star
      rintro r rfl hr
      cases b with
      | nil => simp at hr
      | cons d b =>
        obtain ⟨rfl, -⟩ : d = '/' ∧ _ := by simpa using hr
        exact hb ⟨[], b, rfl⟩
    · exact hn

/-- **A filler becomes blank.** -/
theorem Filler.strip (h : Filler f) :
    ∃ g, Blank g ∧ ∀ s, stripFrom .code (f ++ s) = g ++ stripFrom .code s := by
  induction h with
  | none => exact ⟨[], by simp [Blank], fun s => rfl⟩
  | @blank c f hc _ ih =>
    obtain ⟨g, hg, hstrip⟩ := ih
    refine ⟨c :: g, List.forall_mem_cons.mpr ⟨hc, hg⟩, fun s => ?_⟩
    have hone : Blank [c] := List.forall_mem_singleton.mpr hc
    rw [List.cons_append, ← List.singleton_append, stripFrom_blank hone, hstrip]
    rfl
  | @line b f hb _ ih =>
    obtain ⟨g, hg, hstrip⟩ := ih
    refine ⟨'\n' :: g, List.forall_mem_cons.mpr ⟨by decide, hg⟩, fun s => ?_⟩
    have hassoc : '/' :: '/' :: (b ++ '\n' :: f) ++ s = '/' :: '/' :: (b ++ '\n' :: (f ++ s)) := by
      simp
    rw [hassoc]
    show stripFrom .lineComment (b ++ '\n' :: (f ++ s)) = _
    rw [stripFrom_lineComment hb]
    show '\n' :: stripFrom .code (f ++ s) = _
    rw [hstrip]
    rfl
  | @block b f hb _ ih =>
    obtain ⟨g, hg, hstrip⟩ := ih
    refine ⟨b.filter (· == '\n') ++ g, List.forall_mem_append.mpr ⟨?_, hg⟩, fun s => ?_⟩
    · intro c hc
      obtain rfl : c = '\n' := by simpa using (List.mem_filter.mp hc).2
      decide
    have hassoc : '/' :: '*' :: (b ++ '*' :: '/' :: f) ++ s
        = '/' :: '*' :: (b ++ '*' :: '/' :: (f ++ s)) := by simp
    rw [hassoc]
    show stripFrom .blockComment (b ++ '*' :: '/' :: (f ++ s)) = _
    rw [stripFrom_blockComment hb, hstrip, List.append_assoc]

/-- What stands behind the last lexeme becomes blank. -/
theorem Trailer.strip (h : Trailer f) : Blank (stripFrom .code f) := by
  rcases h with h | ⟨g, b, hg, hb, rfl⟩
  · obtain ⟨g, hg, hstrip⟩ := h.strip
    have hf : stripFrom .code (f ++ []) = g ++ [] := hstrip []
    rw [List.append_nil, List.append_nil] at hf
    rwa [hf]
  · obtain ⟨k, hk, hstrip⟩ := hg.strip
    have hb : stripFrom .lineComment (b ++ []) = [] := stripFrom_lineComment hb []
    rw [List.append_nil] at hb
    rw [hstrip]
    show Blank (k ++ stripFrom .lineComment b)
    rwa [hb, List.append_nil]

/-- A literal is left as it is, closed or not, and the text goes on behind it. -/
theorem stripFrom_string (s : List Char) :
    stripFrom .string s = (literal s).1 ++ stripFrom .code (literal s).2 := by
  fun_induction literal s with
  | case1 => rfl
  | case2 r => rfl
  | case3 c r ih => simp [stripFrom, ih]
  | case4 c r hq hs ih =>
    rw [List.cons_append, ← ih, stripFrom]
    · exact fun c r hc hr => hs c r hc hr
    · exact hq

/-- A token is left as it is. -/
theorem Token.strip (h : Token l) (s : List Char) :
    stripFrom .code (l ++ s) = l ++ stripFrom .code s := by
  cases h with
  | @mark c h =>
    obtain ⟨-, hq, hs, -⟩ := kind_of_mem_marks h
    exact stripFrom_of_char hq hs s
  | @word l _ h =>
    refine append_of_copies (fun c hc r => ?_) s
    have hq : c ≠ '"' := ne_of_isWordChar (h c hc) (by decide)
    have hs : c ≠ '/' := ne_of_isWordChar (h c hc) (by decide)
    exact stripFrom_of_char hq hs r
  | @literal b h =>
    show '"' :: stripFrom .string (b ++ s) = _
    rw [stripFrom_string, literal_of_body h]
    rfl

/-- **Without its comments, a text has the same lexemes**, with blanks between them. -/
theorem Spaced.strip (h : Spaced Filler Trailer ls d) (hls : ∀ l ∈ ls, Token l) :
    Spaced Blank Blank ls (stripFrom .code d) := by
  induction h with
  | done hf => exact .done hf.strip
  | lexeme hf _ ih =>
    obtain ⟨hl, hls⟩ := List.forall_mem_cons.mp hls
    obtain ⟨g, hg, hstrip⟩ := hf.strip
    rw [hstrip, hl.strip]
    exact .lexeme hg (ih hls)

/-! ### Taking trailing commas out -/

/-- A character outside literals that is no comma is kept. -/
theorem dropCommasFrom_of_char (hq : c ≠ '"') (hc : c ≠ ',') (r : List Char) :
    dropCommasFrom false (c :: r) = c :: dropCommasFrom false r := by
  rw [dropCommasFrom]
  · exact hq
  · exact hc

/-- A comma is dropped just when a closing bracket comes next. -/
theorem dropCommasFrom_comma (r : List Char) : dropCommasFrom false (',' :: r) =
    if closesNext r then dropCommasFrom false r else ',' :: dropCommasFrom false r := rfl

/-- Blanks are kept when commas are dropped. -/
theorem dropCommasFrom_blank (hf : Blank f) (s : List Char) :
    dropCommasFrom false (f ++ s) = f ++ dropCommasFrom false s := by
  refine append_of_copies (fun c hc r => ?_) s
  have hq : c ≠ '"' := ne_of_isBlank (hf c hc) (by decide)
  have hcomma : c ≠ ',' := ne_of_isBlank (hf c hc) (by decide)
  exact dropCommasFrom_of_char hq hcomma r

/-- Blanks are left as they are. -/
theorem Blank.drop_eq (hf : Blank f) : dropCommasFrom false f = f := by
  have hdrop : dropCommasFrom false (f ++ []) = f ++ [] := dropCommasFrom_blank hf []
  rwa [List.append_nil] at hdrop

/-- A literal is left as it is, closed or not, and the text goes on behind it. -/
theorem dropCommasFrom_string (s : List Char) :
    dropCommasFrom true s = (literal s).1 ++ dropCommasFrom false (literal s).2 := by
  fun_induction literal s with
  | case1 => rfl
  | case2 r => rfl
  | case3 c r ih => simp [dropCommasFrom, ih]
  | case4 c r hq hs ih =>
    rw [List.cons_append, ← ih, dropCommasFrom]
    · exact fun c r hc hr => hs c r hc hr
    · exact hq

/-- A token that is no comma is left as it is. -/
theorem Token.drop (h : Token l) (hl : l ≠ [',']) (s : List Char) :
    dropCommasFrom false (l ++ s) = l ++ dropCommasFrom false s := by
  cases h with
  | @mark c h =>
    have hc : c ≠ ',' := fun h => hl (by rw [h])
    exact dropCommasFrom_of_char (kind_of_mem_marks h).2.1 hc s
  | @word l _ h =>
    refine append_of_copies (fun c hc r => ?_) s
    have hq : c ≠ '"' := ne_of_isWordChar (h c hc) (by decide)
    have hcomma : c ≠ ',' := ne_of_isWordChar (h c hc) (by decide)
    exact dropCommasFrom_of_char hq hcomma r
  | @literal b h =>
    show '"' :: dropCommasFrom true (b ++ s) = _
    rw [dropCommasFrom_string, literal_of_body h]
    rfl

/-- The first character of a token is no white space, and tells whether the token closes. -/
theorem Token.exists_head (h : Token l) :
    ∃ x u, l = x :: u ∧ Text.isWhiteSpace x = false ∧ (Closes l ↔ x = ']' ∨ x = '\x7d') := by
  cases h with
  | @mark c h =>
    exact ⟨c, [], rfl, (kind_of_mem_marks h).1, by simp [Closes]⟩
  | @word l hne h =>
    obtain ⟨c, u, rfl⟩ := List.exists_cons_of_ne_nil hne
    have hc : isWordChar c = true := h c (by simp)
    have hsquare : c ≠ ']' := ne_of_isWordChar hc (by decide)
    have hcurly : c ≠ '\x7d' := ne_of_isWordChar hc (by decide)
    exact ⟨c, u, rfl, not_isWhiteSpace_of_isWordChar hc, by simp [Closes, hsquare, hcurly]⟩
  | @literal b h => exact ⟨'"', b, rfl, by decide, by simp [Closes]⟩

/-- Behind blanks, `closesNext` looks at the first visible character `x` alone. -/
theorem closesNext_eq_true_iff (hx : Text.isWhiteSpace x = false) (hf : Blank f) (s : List Char) :
    closesNext (f ++ x :: s) = true ↔ x = ']' ∨ x = '\x7d' := by
  have hspace : ∀ c ∈ f, Text.isWhiteSpace c = true := fun c hc => isWhiteSpace_of_isBlank (hf c hc)
  have hdrop : (f ++ x :: s).dropWhile Text.isWhiteSpace = x :: s := by
    rw [List.dropWhile_append_of_pos hspace, List.dropWhile_cons, hx]
    simp
  unfold closesNext
  rw [hdrop]
  split <;> simp_all

/-- Whether a bracket closes next is seen at the next lexeme. -/
theorem Spaced.closesNext_iff (h : Spaced Blank Blank ls s) (hls : ∀ l ∈ ls, Token l) :
    closesNext s = true ↔ ∃ l ∈ ls.head?, Closes l := by
  cases h with
  | done hf =>
    have hspace : ∀ c ∈ s, Text.isWhiteSpace c = true :=
      fun c hc => isWhiteSpace_of_isBlank (hf c hc)
    have hdrop : s.dropWhile Text.isWhiteSpace = [] := List.dropWhile_eq_nil_iff.mpr hspace
    simp [closesNext, hdrop]
  | @lexeme f l s ls hf _ =>
    obtain ⟨x, u, rfl, hx, hcloses⟩ := (hls l (by simp)).exists_head
    rw [List.cons_append, closesNext_eq_true_iff hx hf]
    simp [hcloses]

/-- Blanks may be put in front of the first lexeme. -/
theorem Spaced.blank_append (hf : Blank f) (h : Spaced Blank Blank ls s) :
    Spaced Blank Blank ls (f ++ s) := by
  cases h with
  | done hg => exact .done (List.forall_mem_append.mpr ⟨hf, hg⟩)
  | lexeme hg h =>
    rw [← List.append_assoc]
    exact .lexeme (List.forall_mem_append.mpr ⟨hf, hg⟩) h

/-- Commas that are put in do not come first. -/
theorem Loosens.head? (h : Loosens ls ms) : ms.head? = ls.head? := by
  cases h <;> rfl

/-- A comma behind the last element stands in front of a closing bracket. -/
theorem Loosens.forgives (h : Loosens ls ms) : Forgives ls ms := by
  induction h with
  | nil => exact .nil
  | keep _ ih => exact .keep ih
  | @comma l m ls ms _ hm h ih =>
    have hhead := h.head?
    cases ih with
    | keep hforgives => exact .keep (.comma hm hforgives)
    | comma _ _ =>
      -- the bracket would be a comma
      obtain rfl : [','] = m := by simpa using hhead
      exact absurd hm (by simp [Closes])

/-- What may stand in front of the first lexeme may still do so, as a comma gets in nobody's way. -/
theorem Forgives.apart_head? (h : Forgives ls ms) (hnext : ∀ m ∈ ls.head?, Apart l m) :
    ∀ m ∈ ms.head?, Apart l m := by
  cases h with
  | nil => simp
  | keep _ => simpa using hnext
  | comma _ _ =>
    intro m hm
    obtain rfl : [','] = m := by simpa using hm
    exact ⟨fun h => not_isWord_mark (by decide) h.2, by simp [Closes]⟩

/-- What `ms` has beyond `ls` are commas, so its lexemes are tokens. -/
theorem Forgives.token (h : Forgives ls ms) (hls : ∀ l ∈ ls, Token l) : ∀ l ∈ ms, Token l := by
  induction h with
  | nil => exact hls
  | keep _ ih =>
    obtain ⟨hl, hls⟩ := List.forall_mem_cons.mp hls
    exact List.forall_mem_cons.mpr ⟨hl, ih hls⟩
  | comma _ _ ih =>
    obtain ⟨hm, hls⟩ := List.forall_mem_cons.mp hls
    have hcomma : Token [','] := .mark (by decide)
    exact List.forall_mem_cons.mpr ⟨hcomma, List.forall_mem_cons.mpr ⟨hm, ih hls⟩⟩

/-- Commas in front of closing brackets are tokens, as the other lexemes are. -/
theorem Loosens.token (h : Loosens ls ms) (hls : ∀ l ∈ ls, Token l) : ∀ l ∈ ms, Token l :=
  h.forgives.token hls

/-- A lexeme stays, a comma too, if what comes next may stand behind it. -/
theorem Spaced.drop_kept (h : Spaced Blank Blank ls s) (hls : ∀ l ∈ ls, Token l) (hl : Token l)
    (hnext : ∀ m ∈ ls.head?, Apart l m) :
    dropCommasFrom false (l ++ s) = l ++ dropCommasFrom false s := by
  by_cases hcomma : l = [',']
  · subst hcomma
    have hstay : closesNext s = false := by
      rw [← Bool.not_eq_true, h.closesNext_iff hls]
      rintro ⟨m, hm, hcloses⟩
      exact (hnext m hm).2 ⟨rfl, hcloses⟩
    rw [List.singleton_append, dropCommasFrom_comma, hstay]
    rfl
  · exact hl.drop hcomma s

/-- A comma goes if the next lexeme closes. -/
theorem Spaced.drop_comma (h : Spaced Blank Blank ls s) (hls : ∀ l ∈ ls, Token l)
    (hm : m ∈ ls.head?) (hcloses : Closes m) :
    dropCommasFrom false ([','] ++ s) = dropCommasFrom false s := by
  have hgo : closesNext s = true := (h.closesNext_iff hls).mpr ⟨m, hm, hcloses⟩
  rw [List.singleton_append, dropCommasFrom_comma, hgo]
  rfl

/-- **Only the commas that were put in are taken out.** -/
theorem Forgives.drop (h : Forgives ls ms) (hls : ∀ l ∈ ls, Token l) (hchain : ls.IsChain Apart)
    (hd : Spaced Blank Blank ms d) : Spaced Blank Blank ls (dropCommasFrom false d) := by
  induction h generalizing d with
  | nil =>
    cases hd with
    | done hf =>
      rw [hf.drop_eq]
      exact .done hf
  | @keep l ls ms h ih =>
    cases hd with
    | @lexeme f _ s _ hf hs =>
      obtain ⟨hl, htokens⟩ := List.forall_mem_cons.mp hls
      obtain ⟨hnext, hapart⟩ := List.isChain_cons.mp hchain
      rw [dropCommasFrom_blank hf, hs.drop_kept (h.token htokens) hl (h.apart_head? hnext)]
      exact .lexeme hf (ih htokens hapart hs)
  | @comma m ls ms hm h ih =>
    cases hd with
    | @lexeme f _ s _ hf hs =>
      obtain ⟨hl, htokens⟩ := List.forall_mem_cons.mp hls
      have hgo := hs.drop_comma (h.keep.token hls) (by simp) hm
      cases hs with
      | @lexeme g _ s _ hg hs =>
        have hcomma : m ≠ [','] := by
          rintro rfl
          exact absurd hm (by simp [Closes])
        -- without the comma, the gaps on both sides of it are one
        rw [dropCommasFrom_blank hf, hgo, dropCommasFrom_blank hg, hl.drop hcomma]
        exact (Spaced.lexeme hg (ih htokens hchain.tail hs)).blank_append hf

/-- Dropping commas takes out those in front of closing brackets, and leaves blanks. -/
theorem Loosens.drop (h : Loosens ls ms) (hls : ∀ l ∈ ls, Token l) (hchain : ls.IsChain Apart)
    (hd : Spaced Blank Blank ms d) : Spaced Blank Blank ls (dropCommasFrom false d) :=
  h.forgives.drop hls hchain hd

/-! ### Reading the lexemes again -/

/-- **A text with these lexemes has no others.** -/
theorem Spaced.lexemes_eq (h : Spaced Blank Blank ls s) (hls : ∀ l ∈ ls, Token l)
    (hchain : ls.IsChain Apart) : lexemes s = ls := by
  induction h with
  | @done f hf =>
    rw [lexemes_eq_nil_iff]
    exact List.dropWhile_eq_nil_iff.mpr hf
  | @lexeme f l s ls hf _ ih =>
    obtain ⟨hl, hls⟩ := List.forall_mem_cons.mp hls
    obtain ⟨hnext, hchain⟩ := List.isChain_cons.mp hchain
    have hrest : lexemes s = ls := ih hls hchain
    have hb : IsWord l → Boundary s := by
      intro hword
      apply boundary_of_lexemes
      intro m hm hm'
      rw [hrest] at hm
      exact (hnext m hm).1 ⟨hword, hm'⟩
    rw [lexemes_append_blank hf, lexemes_append hl hb, hrest]

/-- **A decorated text has the value of the strict text.**  If `parse s = .ok v` and `d` is `s`
    with white space, comments and trailing commas put between its lexemes (`Decorates s d`), then
    `Relaxed.parse d = .ok v`. -/
theorem parse_of_decorates (hs : parse s = .ok v) (hd : Decorates s d) :
    Relaxed.parse d = .ok v := by
  obtain ⟨ls, hloose, hspaced⟩ := hd
  have hspells := parse_eq_ok_iff.mp hs
  have hblank : Spaced Blank Blank ls (stripFrom .code d) :=
    hspaced.strip (hloose.token hspells.token)
  have hstrict : Spaced Blank Blank (lexemes s) (Relaxed.strict d) :=
    hloose.drop hspells.token hspells.isChain hblank
  rw [Relaxed.parse, parse_eq_ok_iff, hstrict.lexemes_eq hspells.token hspells.isChain]
  exact hspells

/-- A text with a literal that looks like a comment and a trailing comma. -/
def strictSample : List Char := "[\"//,]\"]".toList

/-- The text with a quote in a block comment, a trailing comma, and a bracket in a line comment. -/
def relaxedSample : List Char := "[ /*\"]*/\"//,]\" ,// ,]\n] //".toList

/-- Its literal is one lexeme, with all that looks otherwise in it. -/
theorem lexemes_strictSample :
    lexemes strictSample = ["[".toList, "\"//,]\"".toList, "]".toList] := by
  decide +kernel

/-- Its value. -/
theorem parse_strictSample : parse strictSample = .ok (.array [.string "//,]"]) := by
  have hquoted : Quoted "//,]\"".toList "//,]".toList :=
    .char (by decide) (by decide) (by decide) <| .char (by decide) (by decide) (by decide) <|
    .char (by decide) (by decide) (by decide) <| .char (by decide) (by decide) (by decide) .quote
  have hkey : Key "//,]" "\"//,]\"".toList := ⟨_, _, rfl, hquoted, rfl⟩
  rw [parse_eq_ok_iff, lexemes_strictSample]
  exact .array (by decide) (.item (.atom (.literal hkey)) .noItem)

/-- The second text decorates the first one. -/
theorem decorates_sample : Decorates strictSample relaxedSample := by
  have hloosens : Loosens (lexemes strictSample)
      ["[".toList, "\"//,]\"".toList, ",".toList, "]".toList] := by
    rw [lexemes_strictSample]
    exact .keep (.comma (by simp [Opens]) (Or.inl rfl) (.keep .nil))
  have hblock : Filler " /*\"]*/".toList :=
    .blank (by decide) (.block (b := "\"]".toList) (by decide) .none)
  have hblank : Filler " ".toList := .blank (by decide) .none
  have hline : Filler "// ,]\n".toList := .line (b := " ,]".toList) (by decide) .none
  have hend : Trailer " //".toList := Or.inr ⟨" ".toList, [], hblank, by simp, rfl⟩
  refine ⟨_, hloosens, ?_⟩
  exact .lexeme .none (.lexeme hblock (.lexeme hblank (.lexeme hline (.done hend))))

/-- The decorated text is read with the value of the strict one. -/
theorem parse_of_decorates_sample :
    parse strictSample = .ok (.array [.string "//,]"]) ∧ Decorates strictSample relaxedSample
      ∧ Relaxed.parse relaxedSample = .ok (.array [.string "//,]"]) :=
  ⟨parse_strictSample, decorates_sample, parse_of_decorates parse_strictSample decorates_sample⟩

end DeclarationDocs.Json
