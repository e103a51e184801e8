import DeclarationDocs.Proofs.TypeScript.Advancing
import DeclarationDocs.Proofs.TypeScript.Part

namespace DeclarationDocs.TypeScript

/-!
# Classes

How a class of an outline is read: its decorators with their names, the class that it extends, its
contracts with their texts, and its braces.

* `decorators_texts` — `g.decorators` reads the decorators in front of a class, by induction on the
  list, and `decorator_text` each of them;
* `base_text`, `contracts_text` — what stands behind `extends` and behind `implements`;
* `classTail_bare` — `g.classTail` reads a class from its word on.
-/

variable {s t u r n m : List Char} {a c : Char} {k depth : Nat} {d : Dialect} {b : Bool}

namespace Scope

variable (g : Scope)

/-! ### Decorators -/

/-- The name of a decorator is the last one of its path. -/
theorem nameInDecorator_append (hn : IsName n) (hr : Stops r) :
    g.nameInDecorator (n ++ r) = some (lastName g.bound n r) := by
  have hread := hn.nameHere?_append hr
  obtain ⟨c, u, rfl, hc⟩ := startsName_of_isName hn
  obtain ⟨hblank, hslash⟩ := not_isBlank_of_startsName hc
  have hdrop : (c :: u ++ r).dropWhile isBlank = c :: u ++ r := by
    rw [List.cons_append, List.dropWhile_cons_of_neg (by simp [hblank])]
  rw [nameInDecorator, hdrop]
  split
  · rename_i heq
    exact absurd (List.cons.inj heq).1 hslash
  · rw [hread]
    rfl

/-- What stands behind a decorator is blank, so its name ends there. -/
theorem separator_spec (x : Decorator) :
    isBlank x.separator = true ∧ isNamePart x.separator = false ∧ x.separator ≠ '\\' := by
  unfold Decorator.separator
  split
  · decide
  · decide

/-- The call of a decorator is read, or left out, up to the blank behind it. -/
theorem call_spec (d : Dialect) (depth : Nat) (x : Decorator)
    (hr : Lacks (x.separator :: r) ['.', '<', '(']) :
    Stops (x.call ++ x.separator :: r) ∧ Lacks (x.call ++ x.separator :: r) ['.'] ∧
      maybe (maybe (ofDepth d (depth + 1)).typeArguments >=> (ofDepth d (depth + 1)).arguments)
        (x.call ++ x.separator :: r) = some (x.separator :: r) := by
  obtain ⟨-, hpart, hslash⟩ := separator_spec x
  unfold Decorator.call
  cases x.called with
  | true =>
    have hopen : SignAhead ('(' :: ')' :: x.separator :: r) '(' (')' :: x.separator :: r) :=
      signAhead (by decide) _
    refine ⟨stops_cons.mpr (by decide), hopen.lacks (by decide), maybe_some ?_⟩
    show (_ >=> _) ('(' :: ')' :: x.separator :: r) = _
    rw [kleisli_some (maybe_none (typeArguments_none _ (hopen.lacks (by decide)))),
      arguments_empty hopen]
  | false =>
    refine ⟨stops_cons.mpr ⟨hpart, hslash⟩, hr.mono (by simp), maybe_none ?_⟩
    show (_ >=> _) (x.separator :: r) = _
    rw [kleisli_some (maybe_none (typeArguments_none _ (hr.mono (by simp))))]
    exact kleisli_none (hr '(' (by simp) [])

/-- A decorator is read up to the blank behind it, and its last name is found. -/
theorem decorator_text {x : Decorator} (hk : x.path.others.length ≤ depth + 1)
    (h : skipTrivia s = x.text ++ x.separator :: r) (hr : Lacks r ['.', '<', '(']) :
    (ofDepth d (depth + 1)).decorator s = some (x.separator :: r) ∧
      ∃ t, symbol ['@'] s = some t ∧
        (ofDepth d (depth + 1)).nameInDecorator t = some x.name := by
  have hr' : Lacks (x.separator :: r) ['.', '<', '('] :=
    hr.of_skipTrivia_eq (skipTrivia_blank (separator_spec x).1)
  obtain ⟨hstop, hlacks, hcall⟩ := call_spec d depth x hr'
  have hmark : SignAhead s '@' (x.path.first.chars ++
      (DottedName.tail x.path.others ++ (x.call ++ x.separator :: r))) :=
    ⟨by simpa [Decorator.text, DottedName.text] using h, by decide⟩
  have hfirst := x.path.first.isName.wordAhead (stops_tail x.path.others hstop)
  have hdots : (ofDepth d (depth + 1)).repeated (symbol ['.'] >=> anyName)
      (DottedName.tail x.path.others ++ (x.call ++ x.separator :: r)) =
        some (x.call ++ x.separator :: r) := many_dots hk hstop hlacks
  refine ⟨?_, _, hmark.symbol_self, ?_⟩
  · have hparenthesised := (ofDepth d (depth + 1)).parenthesised_none (hfirst.lacks (by decide))
    rw [decorator, kleisli_some hmark.symbol_self, either_right hparenthesised, dottedName,
      kleisli_apply, kleisli_some hfirst.anyName, hdots]
    exact hcall
  · rw [nameInDecorator_append _ x.path.first.isName (stops_tail _ hstop)]
    exact congrArg some (lastName_tail hk hstop hlacks x.path.first)

/-- In front of decorators the sign `@` stands ahead. -/
theorem signAhead_texts {x : Decorator} {xs : List Decorator} :
    SignAhead (Decorator.texts (x :: xs) ++ r) '@'
      (x.path.text ++ x.call ++ x.separator :: (Decorator.texts xs ++ r)) := by
  rw [Decorator.texts_cons_append]
  exact signAhead (by decide) _

/-- **Decorators.**  All the decorators in front of something are read, each with its name. -/
theorem decorators_texts {xs : List Decorator} (hk : xs.length ≤ k)
    (hpaths : ∀ x ∈ xs, x.path.others.length ≤ depth + 1)
    (h : skipTrivia s = skipTrivia (Decorator.texts xs ++ r)) (hr : Lacks r ['@', '.', '<', '(']) :
    ∃ t, (ofDepth d (depth + 1)).decorators k s = (xs.map Decorator.name, t) ∧
      skipTrivia t = skipTrivia r := by
  induction xs generalizing k s with
  | nil =>
    have hnone : (ofDepth d (depth + 1)).decorator s = none :=
      decorator_none _ ((hr.mono (by simp)).of_skipTrivia_eq h)
    refine ⟨s, ?_, h⟩
    cases k with
    | zero => rfl
    | succ k => simp [decorators, hnone]
  | cons x xs ih =>
    obtain ⟨k, rfl⟩ : ∃ k', k = k' + 1 := ⟨k - 1, by simp at hk; omega⟩
    obtain ⟨hpath, hpaths⟩ := List.forall_mem_cons.mp hpaths
    have hlacks : Lacks (Decorator.texts xs ++ r) ['.', '<', '('] := by
      cases xs with
      | nil => exact hr.mono (by simp)
      | cons y ys => exact signAhead_texts.lacks (by decide)
    have htext : skipTrivia s = x.text ++ x.separator :: (Decorator.texts xs ++ r) := by
      rw [h, signAhead_texts.skip]
      simp [Decorator.text]
    obtain ⟨hread, t, hmark, hname⟩ := decorator_text (d := d) hpath htext hlacks
    obtain ⟨v, hv, hskip⟩ := ih (k := k) (by simpa using hk) hpaths
      (skipTrivia_blank (separator_spec x).1)
    refine ⟨v, ?_, hskip⟩
    simp [decorators, hread, hmark, hname, hv]

/-! ### Heritage -/

/-- What a class extends is read up to what follows it. -/
theorem base_text {base : Option Identifier} (hstop : Stops u)
    (hextends : keyword "extends" u = none)
    (hu : Lacks u ['.', '?', '(', '[', '`', '+', '-', '!', '<', ',']) :
    maybe (keyword "extends" >=> (ofDepth d (depth + 1)).commaSeparated
      ((ofDepth d (depth + 1)).read .heritage)) (ClassText.baseText base ++ u) = some u := by
  cases base with
  | none => exact maybe_none (kleisli_none hextends)
  | some m =>
    have hword : WordAhead (ClassText.baseText (some m) ++ u) "extends".toList
        (' ' :: (m.chars ++ u)) := by
      have hword := wordAhead_word (w := "extends") (by decide)
        (stops_space (r := m.chars ++ u))
      simpa [ClassText.baseText] using hword.blank isBlank_space
    have hbase : (ofDepth d (depth + 1)).read .heritage (' ' :: (m.chars ++ u)) = some u :=
      operand_identifier _ ((m.isName.wordAhead hstop).blank isBlank_space) m.avoids
        (hu.mono (by simp))
    have hcomma : (symbol [','] >=> (ofDepth d (depth + 1)).read .heritage) u = none :=
      kleisli_none (hu ',' (by simp) [])
    rw [maybe_some]
    rw [kleisli_some (hword.keyword_self rfl), commaSeparated, kleisli_some hbase,
      repeated_none _ hcomma]

/-! ### Contracts -/

theorem signAhead_brace (r : List Char) : SignAhead (' ' :: '\x7b' :: r) '\x7b' r :=
  (signAhead (by decide) r).blank isBlank_space

/-- Contracts are read up to the opening brace, with their texts. -/
theorem typeTexts_text {x : Contract} {xs : List Contract} (hk : xs.length < k)
    (h : skipTrivia s = x.text ++ (ClassText.moreContracts xs ++ ' ' :: '\x7b' :: r)) :
    (ofDepth d (depth + 2)).typeTexts k s =
      some ((x :: xs).map Contract.text, ' ' :: '\x7b' :: r) := by
  induction xs generalizing k s x with
  | nil =>
    obtain ⟨k, rfl⟩ : ∃ k', k = k' + 1 := ⟨k - 1, by omega⟩
    have hbrace := signAhead_brace r
    have htype : (ofDepth d (depth + 2)).type (x.text ++ ' ' :: '\x7b' :: r) =
        some (' ' :: '\x7b' :: r) :=
      typeHere_contract (x.skipTrivia_text_append _) stops_space hbrace (by decide)
    have hend : symbol [','] (' ' :: '\x7b' :: r) = none :=
      hbrace.lacks (by decide) ',' (List.mem_singleton_self _) []
    rw [ClassText.moreContracts, List.flatMap_nil, List.nil_append] at h
    simp only [typeTexts, h, htype, Option.bind_eq_bind, Option.bind_some, hend, upTo_append,
      List.map_cons, List.map_nil]
  | cons y ys ih =>
    obtain ⟨k, rfl⟩ : ∃ k', k = k' + 1 := ⟨k - 1, by simp at hk; omega⟩
    rw [ClassText.moreContracts_cons_append] at h
    generalize hrest : y.text ++ (ClassText.moreContracts ys ++ ' ' :: '\x7b' :: r) = rest at h
    have hcomma : SignAhead (',' :: ' ' :: rest) ',' (' ' :: rest) :=
      signAhead (by decide) _
    have htype : (ofDepth d (depth + 2)).type (x.text ++ ',' :: ' ' :: rest) =
        some (',' :: ' ' :: rest) :=
      typeHere_contract (x.skipTrivia_text_append _) (stops_cons.mpr (by decide)) hcomma (by decide)
    have hmore := ih (k := k) (s := ' ' :: rest) (x := y) (by simpa using hk) (by
      rw [skipTrivia_blank isBlank_space, ← hrest, y.skipTrivia_text_append])
    simp only [typeTexts, h, htype, Option.bind_eq_bind, Option.bind_some, hcomma.symbol_self,
      hmore, upTo_append, List.map_cons]

/-- In front of contracts the word `implements` stands ahead. -/
theorem wordAhead_implements (x : Contract) (xs : List Contract) (r : List Char) :
    WordAhead (ClassText.contractsText (x :: xs) ++ r) "implements".toList
      (' ' :: (x.text ++ (ClassText.moreContracts xs ++ r))) := by
  have hword := wordAhead_word (w := "implements") (by decide)
    (stops_space (r := x.text ++ (ClassText.moreContracts xs ++ r)))
  simpa [ClassText.contractsText] using hword.blank isBlank_space

/-- **Contracts.**  What a class implements is read up to the opening brace, with its texts. -/
theorem contracts_text {xs : List Contract} (hk : xs.length ≤ depth + 2) :
    (ofDepth d (depth + 2)).contracts (ClassText.contractsText xs ++ ' ' :: '\x7b' :: r) =
      some (xs.map Contract.text, ' ' :: '\x7b' :: r) := by
  cases xs with
  | nil =>
    have hnone : keyword "implements" (' ' :: '\x7b' :: r) = none :=
      (signAhead_brace r).keyword "implements"
    show (ofDepth d (depth + 2)).contracts (' ' :: '\x7b' :: r) = _
    rw [contracts, hnone]
    rfl
  | cons x xs =>
    have hword := wordAhead_implements x xs (' ' :: '\x7b' :: r)
    rw [contracts, hword.keyword_self rfl]
    apply typeTexts_text hk
    rw [skipTrivia_blank isBlank_space, x.skipTrivia_text_append]

/-! ### The class itself -/

/-- What follows the base of a class. -/
theorem contractsText_spec (xs : List Contract) (r : List Char) :
    Stops (ClassText.contractsText xs ++ ' ' :: '\x7b' :: r) ∧
      keyword "extends" (ClassText.contractsText xs ++ ' ' :: '\x7b' :: r) = none ∧
      Lacks (ClassText.contractsText xs ++ ' ' :: '\x7b' :: r)
        ['.', '?', '(', '[', '`', '+', '-', '!', '<', ','] := by
  cases xs with
  | nil =>
    have hbrace := signAhead_brace r
    exact ⟨stops_space, hbrace.keyword "extends", hbrace.lacks (by decide)⟩
  | cons x xs =>
    have hword := wordAhead_implements x xs (' ' :: '\x7b' :: r)
    refine ⟨stops_space, ?_, hword.lacks (by decide)⟩
    rw [hword.keyword, if_neg (by decide)]

/-- In front of a base class the word `extends` stands ahead. -/
theorem wordAhead_extends (m : Identifier) (r : List Char) :
    WordAhead (ClassText.baseText (some m) ++ r) "extends".toList (' ' :: (m.chars ++ r)) := by
  have hword := wordAhead_word (w := "extends") (by decide) (stops_space (r := m.chars ++ r))
  simpa [ClassText.baseText] using hword.blank isBlank_space

/-- What follows the name of a class. -/
theorem baseText_spec (base : Option Identifier) (hstop : Stops u) (hu : Lacks u ['<']) :
    Stops (ClassText.baseText base ++ u) ∧ Lacks (ClassText.baseText base ++ u) ['<'] := by
  cases base with
  | none => exact ⟨hstop, hu⟩
  | some m => exact ⟨stops_space, (wordAhead_extends m u).lacks (by decide)⟩

/-- The words before the name of a class. -/
theorem keyword_class {abstract : Bool} (h : skipTrivia s = marked abstract "abstract" ++ t)
    (hclass : WordAhead t "class".toList r) (ht : skipTrivia t = t) :
    keyword "class" ((keyword "abstract" s).getD s) = some r := by
  cases abstract with
  | false =>
    have hword : WordAhead s "class".toList r := hclass.of_skipTrivia_eq (h.trans ht.symm)
    rw [hword.keyword "abstract", if_neg (by decide)]
    exact hword.keyword_self rfl
  | true =>
    have hword : WordAhead s "abstract".toList (' ' :: t) := by
      refine ⟨?_, isName_of_nameHere? (r := []) (by decide), stops_space⟩
      rw [h, marked_true_append]
    rw [hword.keyword_self rfl]
    exact (hclass.blank isBlank_space).keyword_self rfl

/-- **Classes.**  A class is read from the words before its name up to the end of its line. -/
theorem classTail_bare {x : ClassText} {abstract : Bool} {before : List (List Char)}
    (hk : x.contracts.length ≤ depth + 2)
    (h : skipTrivia s = marked abstract "abstract" ++ (x.bare ++ '\n' :: u))
    (hu : breakEnds false u = true) :
    (ofDepth d (depth + 2)).classTail before s =
      some ([⟨x.name.chars, .classDecl, before, x.contracts.map Contract.text⟩], '\n' :: u) := by
  -- the text is taken apart from its end
  obtain ⟨v, hv⟩ : ∃ v, v = ClassText.contractsText x.contracts ++
      ' ' :: '\x7b' :: '\x7d' :: '\n' :: u := ⟨_, rfl⟩
  obtain ⟨hvstop, hvextends, hvlacks⟩ := contractsText_spec x.contracts ('\x7d' :: '\n' :: u)
  rw [← hv] at hvstop hvextends hvlacks
  obtain ⟨hstop, hlacks⟩ := baseText_spec x.base hvstop (hvlacks.mono (by simp))
  have hname : WordAhead (' ' :: (x.name.chars ++ (ClassText.baseText x.base ++ v))) x.name.chars
      (ClassText.baseText x.base ++ v) := (x.name.isName.wordAhead hstop).blank isBlank_space
  have hclass : WordAhead (x.bare ++ '\n' :: u) "class".toList
      (' ' :: (x.name.chars ++ (ClassText.baseText x.base ++ v))) := by
    rw [ClassText.bare_append, ← hv]
    exact wordAhead_word (by decide) stops_space
  have hlead : keyword "class" ((keyword "abstract" s).getD s) =
      some (' ' :: (x.name.chars ++ (ClassText.baseText x.base ++ v))) :=
    keyword_class h hclass (x.skipTrivia_bare_append _)
  have hclause : provided (fun s => (oneOf ["extends", "implements"] s).isNone)
      (' ' :: (x.name.chars ++ (ClassText.baseText x.base ++ v))) = some
        (' ' :: (x.name.chars ++ (ClassText.baseText x.base ++ v))) := by
    apply provided_true
    rw [hname.oneOf_none x.name.avoids (by decide)]
    rfl
  have hheritage : (maybe (ofDepth d (depth + 2)).typeParameters >=>
      maybe (keyword "extends" >=> (ofDepth d (depth + 2)).commaSeparated
        ((ofDepth d (depth + 2)).read .heritage))) (ClassText.baseText x.base ++ v) = some v := by
    rw [kleisli_some (maybe_none (typeParameters_none _ hlacks))]
    exact base_text hvstop hvextends hvlacks
  have hcontracts : (ofDepth d (depth + 2)).contracts v =
      some (x.contracts.map Contract.text, ' ' :: '\x7b' :: '\x7d' :: '\n' :: u) := by
    rw [hv]
    exact contracts_text hk
  have hbody := (ofDepth d (depth + 2)).classBody_empty (signAhead_brace ('\x7d' :: '\n' :: u))
  have hend : commentsToBreak (ofDepth d (depth + 2)).bound ('\n' :: u) = some ('\n' :: u) := by
    show commentsToBreak (depth + 2) ('\n' :: u) = _
    rw [commentsToBreak, endsHere_newline, if_pos hu]
  simp only [classTail, hlead, hclause, hname.name?, hheritage, hcontracts, hbody, hend,
    Option.bind_eq_bind, Option.bind_some, Option.getD_some, ite_self]

end Scope

end DeclarationDocs.TypeScript
