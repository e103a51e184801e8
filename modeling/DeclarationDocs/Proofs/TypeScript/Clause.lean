import DeclarationDocs.Proofs.TypeScript.Outline

namespace DeclarationDocs.TypeScript

/-!
# Clauses

What the readers of the grammar do with the parts that the statements of an outline are made of.
Such a part is read up to the lexeme behind it, and it is read alike in both dialects.

* `ofDepth d depth` — the scope in which constructs nest `depth` deep;
* `typeHere_identifier`, `typeHere_contract` — a type that is a name, and a contract of a class;
* `assignmentHere_identifier`, `assignmentHere_one` — the expressions that a decorator and a binding
  hold;
* `typeArguments_none`, `initializer_none` and the like — parts that are left out, by
  `Lacks s marks`.
-/

variable {s t u r n m : List Char} {a c : Char} {marks : List Char} {p q : Reader} {k depth : Nat}
  {d : Dialect} {b : Bool} {after : List Char → Bool}

/-! ### Combining readers -/

/-- If `p` fails, so does `p >=> q`. -/
theorem kleisli_none (h : p s = none) : (p >=> q) s = none := by rw [kleisli_apply, h]; rfl

/-- If `p` leaves `r`, then `p >=> q` does what `q` does on `r`. -/
theorem kleisli_some (h : p s = some r) : (p >=> q) s = q r := by rw [kleisli_apply, h]; rfl

/-- If `f s` holds, `provided f` leaves all of `s`. -/
theorem provided_true {f : List Char → Bool} (h : f s = true) : provided f s = some s := by
  rw [provided, if_pos h]

/-- If `f s` does not hold, `provided f` fails. -/
theorem provided_false {f : List Char → Bool} (h : f s = false) : provided f s = none := by
  rw [provided, h]
  rfl

namespace Scope

/-- The surroundings in which constructs stand inside one another up to the given depth. -/
def ofDepth (d : Dialect) (depth : Nat) : Scope := ⟨d, depth, TypeScript.read d depth⟩

theorem pattern_ofDepth :
    (ofDepth d (depth + 1)).pattern s = (ofDepth d depth).patternHere s := rfl

variable (g : Scope)

theorem repeated_none (h : p s = none) : g.repeated p s = some s := many_none h

/-! ### What is not there -/

/-- Without an `@` there is no decorator. -/
theorem decorator_none (h : Lacks s ['@']) : g.decorator s = none :=
  kleisli_none (h '@' (by simp) [])

theorem typeParameters_none (h : Lacks s ['<']) : g.typeParameters s = none :=
  kleisli_none (h '<' (by simp) [])

theorem typeArguments_none (h : Lacks s ['<']) : g.typeArguments s = none :=
  kleisli_none (h '<' (by simp) [])

theorem parenthesised_none (h : Lacks s ['(']) : g.parenthesised s = none :=
  kleisli_none (h '(' (by simp) [])

theorem annotation_none (h : Lacks s [':']) : g.annotation s = none :=
  kleisli_none (h ':' (by simp) [])

theorem initializer_none (h : Lacks s ['=']) : g.initializer s = none :=
  kleisli_none (h '=' (by simp) [])

theorem typeAssertion_none (h : Lacks s ['<']) : g.typeAssertion s = none := by
  unfold typeAssertion
  split
  · rfl
  · exact kleisli_none (h '<' (by simp) [])

/-- An operand that none of these marks follows has no suffix. -/
theorem suffix_none (h : Lacks s ['.', '?', '(', '[', '`', '+', '-', '!', '<']) :
    g.suffix after s = none := by
  have hsymbol := fun a ha t => h a ha t
  simp [suffix, optionalChain, arguments, template, typeArguments, kleisli_apply, either,
    sameLine, hsymbol]

/-! ### Operands -/

/-- An identifier without a suffix is a whole operand. -/
theorem operand_identifier (h : WordAhead s n r) (ha : Avoids n keywords)
    (hr : Lacks r ['.', '?', '(', '[', '`', '+', '-', '!', '<']) :
    g.operand after s = some r := by
  have hsymbol : ∀ a, startsName a = false → ∀ t, symbol (a :: t) s = none :=
    fun a ha t => h.symbol ha
  have hkeyword : ∀ w ∈ keywords, keyword w s = none := fun w hw => h.keyword_none ha hw
  have honeOf : oneOf ["typeof", "void", "delete"] s = none := h.oneOf_none ha (by decide)
  have hassertion := g.typeAssertion_none (h.lacks (by decide))
  have hdecorators := g.repeated_none (g.decorator_none (h.lacks (by decide)))
  have hprefix : g.prefixOperator s = none := by
    simp (disch := decide) [prefixOperator, kleisli_apply, either, honeOf, hkeyword, hsymbol,
      hassertion]
  have hfunction : g.function s = none := by
    simp (disch := decide) [function, kleisli_apply, maybe, hkeyword]
  have hclass : g.classValue s = none := by
    simp (disch := decide) [classValue, kleisli_apply, maybe, hkeyword, hdecorators]
  have htarget : newTarget s = none := kleisli_none (hkeyword "new" (by decide))
  have hprimary : g.primary s = some r := by
    rw [primary, either_right hfunction, either_right hclass, either_right htarget,
      either_left (h.identifier ha (by decide))]
  rw [operand, kleisli_some (g.repeated_none hprefix), kleisli_some hprimary,
    g.repeated_none (g.suffix_none hr)]

/-! ### Types -/

/-- The words that a type may begin with, but no name of a type. -/
def typeWords : List String :=
  ["keyof", "unique", "readonly", "typeof", "asserts", "infer", "abstract", "new", "import"]

/-- A name with its members and type arguments is a type, if no `[`, `|` or `&` follows. -/
theorem typeHere_word (h : WordAhead s n r) (ha : Avoids n typeWords)
    (htail : (g.repeated (symbol ['.'] >=> anyName) >=> maybe g.typeArguments) r = some u)
    (hu : SignAhead u c t) (hc : c ∉ ['[', '|', '&']) : g.typeHere b s = some u := by
  have hsymbol : ∀ a, startsName a = false → ∀ t, symbol (a :: t) s = none :=
    fun a ha t => h.symbol ha
  have hkeyword : ∀ w ∈ typeWords, keyword w s = none := fun w hw => h.keyword_none ha hw
  have hmark : typeMark s = none := by
    simp (disch := decide) [typeMark, either, kleisli_apply, hsymbol]
  have hoperator : typeOperator s = none := kleisli_none (h.oneOf_none ha (by decide))
  have hinferred : g.inferred b s = none := kleisli_none (hkeyword "infer" (by decide))
  have hparameters := g.typeParameters_none (h.lacks (by decide))
  have hfunction : g.functionType s = none := by
    simp (disch := decide) [functionType, parameters, kleisli_apply, maybe, hkeyword, hsymbol,
      hparameters]
  have hnamed : g.namedType s = some u := by
    have himport : g.importType s = none := kleisli_none (hkeyword "import" (by decide))
    rw [namedType, kleisli_some ((either_right himport).trans h.anyName), htail]
  have hprimary : g.primaryType s = some u := by
    simp (disch := decide) [primaryType, objectType, tupleType, string, templateType, either,
      kleisli_apply, maybe, hsymbol, h.number, hfunction, hnamed]
  -- nothing of what may follow a type is there
  have hlacks := hu.lacks hc
  have hsuffix : g.typeSuffix u = none := sameLine_none (kleisli_none (hlacks '[' (by simp) []))
  have hmark' : typeMark u = none := by
    simp [typeMark, either, kleisli_apply, hlacks '|', hlacks '&']
  have his : (sameLine (keyword "is") >=> g.type) u = none :=
    kleisli_none (sameLine_none (hu.keyword "is"))
  have hcondition : g.condition u = none := kleisli_none (sameLine_none (hu.keyword "extends"))
  have hoperand : g.typeOperand b s = some u := by
    rw [typeOperand, kleisli_some (g.repeated_none hoperator),
      kleisli_some ((either_right hinferred).trans hprimary), g.repeated_none hsuffix]
  rw [typeHere, kleisli_some (maybe_none hmark), kleisli_some hoperand,
    kleisli_some (g.repeated_none (kleisli_none hmark')), kleisli_some (maybe_none his)]
  cases b with
  | true => exact maybe_none hcondition
  | false => rfl

/-! ### Names between dots -/

/-- A dot ends a name. -/
theorem stops_tail (names : List Identifier) (hr : Stops r) :
    Stops (DottedName.tail names ++ r) := by
  cases names with
  | nil => exact hr
  | cons n names => exact stops_cons.mpr (by decide)

theorem signAhead_dot (r : List Char) : SignAhead ('.' :: r) '.' r :=
  signAhead (by decide) r

/-- The names behind a first one are read one by one. -/
theorem many_dots {names : List Identifier} (hk : names.length ≤ k) (hstop : Stops r)
    (hr : Lacks r ['.']) :
    many k (symbol ['.'] >=> anyName) (DottedName.tail names ++ r) = some r := by
  induction names generalizing k with
  | nil => exact many_none (kleisli_none (hr '.' (by simp) []))
  | cons n names ih =>
    obtain ⟨k, rfl⟩ : ∃ k', k = k' + 1 := ⟨k - 1, by simp at hk; omega⟩
    have hname := n.isName.wordAhead (stops_tail names hstop)
    have hread : (symbol ['.'] >=> anyName) (DottedName.tail (n :: names) ++ r) =
        some (DottedName.tail names ++ r) := by
      rw [DottedName.tail_cons_append, kleisli_some (signAhead_dot _).symbol_self]
      exact hname.anyName
    rw [many_some hread, ih (by simpa using hk)]

/-- The last of the names is found. -/
theorem lastName_tail {names : List Identifier} (hk : names.length ≤ k) (hstop : Stops r)
    (hr : Lacks r ['.']) (n : Identifier) :
    lastName k n.chars (DottedName.tail names ++ r) = (names.getLast?.getD n).chars := by
  induction names generalizing k n with
  | nil =>
    cases k with
    | zero => rfl
    | succ k =>
      show lastName (k + 1) n.chars r = n.chars
      rw [lastName, hr '.' (by simp) []]
      rfl
  | cons m names ih =>
    obtain ⟨k, rfl⟩ : ∃ k', k = k' + 1 := ⟨k - 1, by simp at hk; omega⟩
    have hname := m.isName.wordAhead (stops_tail names hstop)
    have hread : (symbol ['.'] (DottedName.tail (m :: names) ++ r)).bind name? =
        some (m.chars, DottedName.tail names ++ r) := by
      rw [DottedName.tail_cons_append, (signAhead_dot _).symbol_self]
      exact hname.name?
    rw [lastName, hread]
    show lastName k m.chars (DottedName.tail names ++ r) = _
    rw [ih (by simpa using hk), List.getLast?_cons, Option.getD_some]

/-! ### Contracts -/

/-- The words that begin a type of another kind are keywords. -/
theorem typeWords_subset : typeWords ⊆ keywords := by decide

/-- What follows a name and the names behind its dots, if it has no arguments. -/
theorem namedTail_dots (names : List Identifier) (hk : names.length ≤ g.bound) (hstop : Stops r)
    (hr : Lacks r ['.', '<']) :
    (g.repeated (symbol ['.'] >=> anyName) >=> maybe g.typeArguments)
      (DottedName.tail names ++ r) = some r := by
  have hdots : g.repeated (symbol ['.'] >=> anyName) (DottedName.tail names ++ r) = some r :=
    many_dots hk hstop (hr.mono (by simp))
  rw [kleisli_some hdots, maybe_none (g.typeArguments_none (hr.mono (by simp)))]

/-- A plain name is read as a type up to what follows it. -/
theorem typeHere_identifier {n : Identifier} (h : skipTrivia s = n.chars ++ u) (hstop : Stops u)
    (hu : SignAhead u c t) (hc : c ∉ ['.', '<', '[', '|', '&']) : g.typeHere true s = some u :=
  g.typeHere_word ⟨h, n.isName, hstop⟩ (n.avoids.mono typeWords_subset)
    (g.namedTail_dots [] (Nat.zero_le _) hstop (hu.lacks (by simp_all)))
    hu (by simp_all)

/-- A contract is read as a type up to what follows it. -/
theorem typeHere_contract {x : Contract} (h : skipTrivia s = x.text ++ u) (hstop : Stops u)
    (hu : SignAhead u c t) (hc : c ∉ ['.', '<', '[', '|', '&']) :
    (ofDepth d (depth + 1)).typeHere true s = some u := by
  have hlacks : Lacks u ['.', '<'] := hu.lacks (by simp_all)
  have hc' : c ∉ ['[', '|', '&'] := by simp_all
  cases x with
  | plain n => exact typeHere_identifier _ h hstop hu hc
  | qualified q n =>
    have hword : WordAhead s q.chars (DottedName.tail [n] ++ u) :=
      ⟨by simpa [Contract.text, DottedName.tail] using h, q.isName, stops_tail [n] hstop⟩
    refine typeHere_word _ hword (q.avoids.mono typeWords_subset) ?_ hu hc'
    exact namedTail_dots _ [n] (Nat.le_add_left 1 depth) hstop hlacks
  | generic n m =>
    have hopen : SignAhead ('<' :: (m.chars ++ '>' :: u)) '<' (m.chars ++ '>' :: u) :=
      signAhead (by decide) _
    have hclose : SignAhead ('>' :: u) '>' u := signAhead (by decide) _
    have hword : WordAhead s n.chars ('<' :: (m.chars ++ '>' :: u)) :=
      ⟨by simpa [Contract.text] using h, n.isName, stops_cons.mpr (by decide)⟩
    have hstop' : Stops ('>' :: u) := stops_cons.mpr (by decide)
    have hargument : (ofDepth d (depth + 1)).type (m.chars ++ '>' :: u) = some ('>' :: u) :=
      typeHere_identifier _ (m.isName.wordAhead hstop').skip hstop' hclose (by decide)
    have hcomma : (symbol [','] >=> (ofDepth d (depth + 1)).type) ('>' :: u) = none :=
      kleisli_none (hclose.lacks (by decide) ',' (List.mem_singleton_self _) [])
    have harguments : (ofDepth d (depth + 1)).typeArguments ('<' :: (m.chars ++ '>' :: u)) =
        some u := by
      rw [typeArguments, kleisli_some hopen.symbol_self, commaSeparated, kleisli_apply,
        kleisli_some hargument, repeated_none _ hcomma]
      exact hclose.symbol_self
    refine typeHere_word _ hword (n.avoids.mono typeWords_subset) ?_ hu hc'
    have hdot : (symbol ['.'] >=> anyName) ('<' :: (m.chars ++ '>' :: u)) = none :=
      kleisli_none (hopen.lacks (by decide) '.' (List.mem_singleton_self _) [])
    rw [kleisli_some (repeated_none _ hdot), maybe_some harguments]

/-! ### Values -/

/-- Without a `<` or `(` there is no arrow function with parameters. -/
theorem arrowWithParameters_none (h : Lacks s ['<', '(']) :
    g.arrowWithParameters b s = none := by
  have hparameters : (maybe g.typeParameters >=> g.parameters) s = none := by
    rw [kleisli_some (maybe_none (g.typeParameters_none (h.mono (by simp))))]
    exact kleisli_none (h '(' (by simp) [])
  rw [arrowWithParameters, hparameters]

/-- A comma or a semicolon is no operator. -/
theorem operator_none (h : SignAhead s c r) (hc : c = ',' ∨ c = ';') : operator s = none := by
  rw [operator, h.skip, h.oneOf]
  rcases hc with rfl | rfl
  · rfl
  · rfl

/-- A comma or semicolon is none of the `marks` that have neither. -/
theorem lacks_of_separator (h : SignAhead s c r) (hc : c = ',' ∨ c = ';')
    (hmarks : ',' ∉ marks ∧ ';' ∉ marks) : Lacks s marks := by
  apply h.lacks
  rcases hc with rfl | rfl
  · exact hmarks.1
  · exact hmarks.2

/-- A value is read up to a comma or a semicolon. -/
theorem assignmentHere_operand (harrow : g.arrowFunction b s = none)
    (hyielded : g.yielded s = none) (hoperand : g.operand endsTypeArguments s = some r)
    (hr : SignAhead r c u) (hc : c = ',' ∨ c = ';') : g.assignmentHere b s = some r := by
  have hquestion : Lacks r ['?'] := lacks_of_separator hr hc (by decide)
  have hascription : g.ascription r = none := kleisli_none (sameLine_none (hr.oneOf _))
  have hbranches : g.branches b r = none :=
    kleisli_none (hquestion '?' (List.mem_singleton_self _) [])
  have hrest : either (operator >=> g.read (.assignment b)) (g.branches b) r = none := by
    rw [either_right (kleisli_none (operator_none hr hc)), hbranches]
  rw [assignmentHere, either_right harrow, either_right hyielded, kleisli_some hoperand,
    kleisli_some (g.repeated_none hascription), maybe_none hrest]

/-- An identifier with a comma or semicolon behind it is a whole assignment. -/
theorem assignmentHere_identifier {n : Identifier} (h : WordAhead s n.chars r)
    (hr : SignAhead r c u) (hc : c = ',' ∨ c = ';') : g.assignmentHere b s = some r := by
  have hmarks : Lacks r ['.', '?', '(', '[', '`', '+', '-', '!', '<', '='] :=
    lacks_of_separator hr hc (by decide)
  have hoperand : g.operand endsTypeArguments s = some r :=
    g.operand_identifier h n.avoids (hmarks.mono (by simp))
  have hasync : keyword "async" s = none := h.keyword_none n.avoids (by decide)
  have htail : (identifier >=> g.arrowTail b) s = none := by
    rw [kleisli_some (h.identifier n.avoids (by decide))]
    exact kleisli_none (sameLine_none (hmarks '=' (by simp) ['>']))
  have harrow : g.arrowFunction b s = none := by
    rw [arrowFunction, either_right htail, either_right (kleisli_none hasync),
      either_right (kleisli_none hasync)]
    exact g.arrowWithParameters_none (h.lacks (by decide))
  have hyielded : g.yielded s = none := kleisli_none (h.keyword_none n.avoids (by decide))
  exact g.assignmentHere_operand harrow hyielded hoperand hr hc

/-- A sign other than `<` and `(` begins no arrow function. -/
theorem arrowFunction_none (h : SignAhead s c r) (hc : c ∉ ['<', '(']) :
    g.arrowFunction b s = none := by
  rw [arrowFunction, either_right (kleisli_none h.identifier),
    either_right (kleisli_none (h.keyword "async")),
    either_right (kleisli_none (h.keyword "async"))]
  exact g.arrowWithParameters_none (h.lacks hc)

/-- The operators and words that an operand may begin with. -/
theorem primary_sign (h : SignAhead s c r) (hc : c ∉ ['@', '<']) :
    g.primary s = either number (either string <| either g.template <|
      either g.parenthesised <| either g.array <| either g.object <|
      either (symbol ['#'] >=> anyName) <| either g.elementValue regex) s := by
  have hdecorators := g.repeated_none (g.decorator_none (h.lacks (by simp_all)))
  have hfunction : g.function s = none := by
    simp [function, kleisli_apply, maybe, h.keyword]
  have hclass : g.classValue s = none := by
    simp [classValue, kleisli_apply, maybe, h.keyword, hdecorators]
  have htarget : newTarget s = none := kleisli_none (h.keyword "new")
  rw [primary, either_right hfunction, either_right hclass, either_right htarget,
    either_right h.identifier]

/-- A sign that is no prefix operator is not taken as one. -/
theorem prefixOperator_none (h : SignAhead s c r) (hc : c ∉ ['+', '-', '!', '~', '<']) :
    g.prefixOperator s = none := by
  have hsymbol := h.lacks hc
  have hassertion := g.typeAssertion_none (hsymbol.mono (by simp))
  have hsymbol' := fun a ha t => hsymbol a ha t
  simp [prefixOperator, kleisli_apply, either, h.oneOf, h.keyword, hsymbol', hassertion]

/-- The number one is read as a value. -/
theorem assignmentHere_one (h : skipTrivia s = '1' :: r) (hr : SignAhead r c u) (hhead : r = c :: u)
    (hc : c = ',' ∨ c = ';') : g.assignmentHere b s = some r := by
  have hone : SignAhead s '1' r := ⟨h, by decide⟩
  have hmarks : Lacks r ['.', '?', '(', '[', '`', '+', '-', '!', '<'] :=
    lacks_of_separator hr hc (by decide)
  have hnumber : number s = some r := by
    rw [hone.number, hhead]
    rcases hc with rfl | rfl
    · rfl
    · rfl
  have hoperand : g.operand endsTypeArguments s = some r := by
    rw [operand, kleisli_some (g.repeated_none (g.prefixOperator_none hone (by decide))),
      kleisli_some ((g.primary_sign hone (by decide)).trans (either_left hnumber)),
      g.repeated_none (g.suffix_none hmarks)]
  exact g.assignmentHere_operand (g.arrowFunction_none hone (by decide))
    (kleisli_none (hone.keyword "yield")) hoperand hr hc

end Scope

end DeclarationDocs.TypeScript
