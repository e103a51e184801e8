import DeclarationDocs.Proofs.TypeScript.Class

namespace DeclarationDocs.TypeScript

/-!
# Declarations

How the declarations of an outline are read without the words that mark them.  The first word of a
declaration decides what it is: the readers for all others give up at it.

* `classStatement_none`, `enumStatement_none` and the like — a reader gives up if the first word
  `Avoids` its own words;
* `plainDeclaration_class`, `plainDeclaration_variables` and the like — what `g.plainDeclaration`
  finds in each kind of declaration, with the text behind it left.
-/

variable {s t u r n m : List Char} {a c : Char} {k depth : Nat} {d : Dialect} {b : Bool}
  {p q : Finder} {x : List Finding × List Char} {before : List (List Char)}

/-! ### Words that may also be names -/

theorem isAsciiBlank_of_startsName (hc : startsName c = true) : isAsciiBlank c = false := by
  rcases Bool.or_eq_true _ _ ▸ hc with hstart | hslash
  · have hpart := isNamePart_of_isNameStart hstart
    simp only [isNamePart, Bool.and_eq_true, decide_eq_true_eq, Bool.not_eq_true'] at hpart
    obtain ⟨⟨hcontrol, hblank⟩, -⟩ := hpart
    have hspace : c ≠ ' ' := by
      rintro rfl
      exact absurd hblank (by decide)
    simp only [isAsciiBlank, Bool.or_eq_false_iff, beq_eq_false_iff_ne, Bool.and_eq_false_iff,
      decide_eq_false_iff_not]
    exact ⟨hspace, .inr (by omega)⟩
  · obtain rfl := eq_of_beq hslash
    decide

/-- No statement ends before a name on the same line. -/
theorem endsHere_name (hn : IsName n) (r : List Char) : endsHere b (' ' :: (n ++ r)) = false := by
  obtain ⟨c, v, rfl, hc⟩ := startsName_of_isName hn
  have hbrace : c ≠ '\x7d' ∧ c ≠ '\n' := by
    constructor
    all_goals
      rintro rfl
      exact absurd hc (by decide)
  show endsHere b (c :: (v ++ r)) = false
  rw [endsHere.eq_def]
  split
  all_goals simp_all [isAsciiBlank_of_startsName]

/-- Only a slash begins a comment. -/
theorem commentEnd_none (hc : c ≠ '/') : commentEnd (c :: s) = none := by
  rw [commentEnd.eq_def]
  split
  all_goals simp_all

/-- A word that may also be a name is one of the language in front of a name. -/
theorem wordContinues_name (hn : IsName n) (r : List Char) :
    wordContinues (k + 1) false (' ' :: (n ++ r)) = some (false, n ++ r) := by
  have hends := endsHere_name (b := true) hn r
  obtain ⟨c, v, rfl, hc⟩ := startsName_of_isName hn
  obtain ⟨hblank, hslash⟩ := not_isBlank_of_startsName hc
  have hdrop : (' ' :: (c :: v ++ r)).dropWhile isBlank = c :: v ++ r := by
    rw [List.dropWhile_cons_of_pos isBlank_space, List.cons_append,
      List.dropWhile_cons_of_neg (by simp [hblank])]
  rw [wordContinues, hends, hdrop]
  simp only [Bool.false_eq_true, if_false, List.cons_append, commentEnd_none hslash]

/-! ### Ends of statements -/

/-- A line break that ends a statement stands in for the semicolon and is left there. -/
theorem semicolon_newline (hu : breakEnds b u = true) :
    semicolon b (k + 1) ('\n' :: u) = '\n' :: u := by
  rw [semicolon, endsHere_newline, if_pos hu]

/-! ### Combining finders -/

/-- What `p` finds is what `eitherFind p q` finds. -/
theorem eitherFind_left (h : p s = some x) : eitherFind p q s = some x := by rw [eitherFind, h]

/-- If `p` fails, `eitherFind p q` finds what `q` finds. -/
theorem eitherFind_right (h : p s = none) : eitherFind p q s = q s := by rw [eitherFind, h]

/-- Where `p` takes something, `nothing p` finds no declaration in it. -/
theorem nothing_some {p : Reader} (h : p s = some r) : nothing p s = some ([], r) := by
  rw [nothing, h]
  rfl

/-- Where `p` fails, so does `nothing p`. -/
theorem nothing_none {p : Reader} (h : p s = none) : nothing p s = none := by
  rw [nothing, h]
  rfl

namespace Scope

variable (g : Scope)

/-- A leading word with a name behind it is taken, up to that name. -/
theorem leadingWord_name {w : String} (h : WordAhead s w.toList (' ' :: (n ++ r)))
    (hn : IsName n) : (ofDepth d (depth + 1)).leadingWord w s = some (n ++ r) := by
  rw [leadingWord, h.keyword_self rfl]
  show (wordContinues (depth + 1) false (' ' :: (n ++ r))).map Prod.snd = _
  rw [wordContinues_name hn r]
  rfl

/-! ### Other statements -/

/-- Without an `@` there are no decorators. -/
theorem decorators_none (h : Lacks s ['@']) : g.decorators k s = ([], s) := by
  cases k with
  | zero => rfl
  | succ k => simp [decorators, g.decorator_none h]

section Other

variable (h : WordAhead s n r)

include h

/-- Another name is no leading word. -/
theorem leadingWord_none {w : String} (hw : n ≠ w.toList) : g.leadingWord w s = none := by
  rw [leadingWord, h.keyword, if_neg hw]
  rfl

/-- Neither `abstract` nor `class`: no class. -/
theorem classStatement_none (ha : Avoids n ["abstract", "class"]) :
    g.classStatement before s = none := by
  have hkeyword : ∀ w ∈ ["abstract", "class"], keyword w s = none :=
    fun w hw => h.keyword_none ha hw
  simp [classStatement, classTail, g.decorators_none (h.lacks (by decide)), hkeyword]

theorem interfaceStatement_none (ha : Avoids n ["interface"]) : g.interfaceStatement s = none := by
  simp [interfaceStatement, h.keyword_none ha (List.mem_singleton_self _)]

theorem enumStatement_none (ha : Avoids n ["const", "enum"]) : g.enumStatement s = none := by
  have hkeyword : ∀ w ∈ ["const", "enum"], keyword w s = none := fun w hw => h.keyword_none ha hw
  simp [enumStatement, kleisli_apply, maybe, hkeyword]

theorem aliasStatement_none (ha : Avoids n ["type"]) : g.aliasStatement s = none := by
  simp [aliasStatement, g.leadingWord_none h (ha _ (List.mem_singleton_self _))]

theorem functionStatement_none (ha : Avoids n ["async", "function"]) :
    g.functionStatement s = none := by
  have hkeyword : ∀ w ∈ ["async", "function"], keyword w s = none :=
    fun w hw => h.keyword_none ha hw
  simp [functionStatement, nothing, function, kleisli_apply, maybe, hkeyword]

theorem variableStatement_none (ha : Avoids n ["const", "let", "var"]) :
    g.variableStatement b s = none := by
  simp [variableStatement, h.oneOf_none ha (List.Subset.refl _)]

theorem namespaceStatement_none (ha : Avoids n ["namespace", "module"]) :
    g.namespaceStatement s = none := by
  have hfirst := g.leadingWord_none h (ha "namespace" (by simp))
  have hsecond := g.leadingWord_none h (ha "module" (by simp))
  simp [namespaceStatement, nothing, kleisli_apply, either, hfirst, hsecond]

end Other

/-! ### Declarations -/

/-- What is neither a class nor an interface nor an enumeration is a declaration of another kind. -/
theorem plainDeclaration_afterEnum (h : WordAhead s n r)
    (ha : Avoids n ["abstract", "class", "interface"]) (henum : g.enumStatement s = none) :
    g.plainDeclaration b before s =
      eitherFind g.aliasStatement (eitherFind g.functionStatement <|
        eitherFind (g.variableStatement b) <| eitherFind g.namespaceStatement g.importAlias) s := by
  rw [plainDeclaration, eitherFind_right (g.classStatement_none h (ha.mono (by simp))),
    eitherFind_right (g.interfaceStatement_none h (ha.mono (by simp))), eitherFind_right henum]

/-- What is no alias or function either declares variables or a namespace. -/
theorem plainDeclaration_afterFunction (h : WordAhead s n r)
    (ha : Avoids n ["abstract", "class", "interface", "type", "async", "function"])
    (henum : g.enumStatement s = none) :
    g.plainDeclaration b before s =
      eitherFind (g.variableStatement b) (eitherFind g.namespaceStatement g.importAlias) s := by
  rw [g.plainDeclaration_afterEnum h (ha.mono (by simp)) henum,
    eitherFind_right (g.aliasStatement_none h (ha.mono (by simp))),
    eitherFind_right (g.functionStatement_none h (ha.mono (by simp)))]

/-- The first word of a statement stands ahead, with a space behind it. -/
theorem wordAhead_first {w : String} (hw : nameHere? w.toList = some (w.toList, []))
    (h : skipTrivia s = w.toList ++ ' ' :: r) : WordAhead s w.toList (' ' :: r) :=
  ⟨h, isName_of_nameHere? hw, stops_space⟩

/-- Behind that space the declared name stands ahead. -/
theorem wordAhead_name (n : Identifier) (hr : Stops r) :
    WordAhead (' ' :: (n.chars ++ r)) n.chars r :=
  (n.isName.wordAhead hr).blank isBlank_space

/-- A class that is written as `ClassText` says is found with its decorators and contracts. -/
theorem plainDeclaration_class {x : ClassText} {abstract : Bool}
    (hk : x.contracts.length ≤ depth + 2)
    (h : skipTrivia s = marked abstract "abstract" ++ (x.bare ++ '\n' :: u))
    (hu : breakEnds false u = true) :
    (ofDepth d (depth + 2)).plainDeclaration b before s =
      some ([⟨x.name.chars, .classDecl, before, x.contracts.map Contract.text⟩], '\n' :: u) := by
  obtain ⟨w, -, v, -, hword⟩ :=
    (ClassText.begins_bare abstract x ('\n' :: u)).wordAhead h (by decide)
  apply eitherFind_left
  rw [classStatement, decorators_none _ (hword.lacks (by decide))]
  show (ofDepth d (depth + 2)).classTail (before ++ []) s = _
  rw [List.append_nil, classTail_bare hk h hu]

/-- An interface without members is found by its name. -/
theorem plainDeclaration_interface {n : Identifier}
    (h : skipTrivia s = "interface".toList ++ ' ' :: (n.chars ++ ' ' :: '\x7b' :: '\x7d' :: r)) :
    g.plainDeclaration b before s = some ([.simple .interface n.chars], r) := by
  have hword := wordAhead_first (by decide) h
  have hname := wordAhead_name n (stops_space (r := '\x7b' :: '\x7d' :: r))
  have hbrace := signAhead_brace ('\x7d' :: r)
  have hextends : (keyword "extends" >=> g.typeList) (' ' :: '\x7b' :: '\x7d' :: r) = none :=
    kleisli_none (hbrace.keyword "extends")
  have hbody : (maybe g.typeParameters >=> maybe (keyword "extends" >=> g.typeList) >=>
      g.objectType) (' ' :: '\x7b' :: '\x7d' :: r) = some r := by
    rw [kleisli_some (maybe_none (g.typeParameters_none (hbrace.lacks (by decide)))),
      kleisli_some (maybe_none hextends), g.objectType_empty hbrace]
  rw [plainDeclaration, eitherFind_right (g.classStatement_none hword (by decide))]
  apply eitherFind_left
  simp only [interfaceStatement, hword.keyword_self rfl, hname.name?, hbody,
    Option.bind_eq_bind, Option.bind_some]

/-- An enumeration without members is found by its name. -/
theorem plainDeclaration_enum {n : Identifier}
    (h : skipTrivia s = "enum".toList ++ ' ' :: (n.chars ++ ' ' :: '\x7b' :: '\x7d' :: r)) :
    g.plainDeclaration b before s = some ([.simple .enum n.chars], r) := by
  have hword := wordAhead_first (by decide) h
  have hname := wordAhead_name n (stops_space (r := '\x7b' :: '\x7d' :: r))
  have hconst : keyword "const" s = none := by rw [hword.keyword, if_neg (by decide)]
  have hfirst : (maybe (keyword "const") >=> keyword "enum") s =
      some (' ' :: (n.chars ++ ' ' :: '\x7b' :: '\x7d' :: r)) := by
    rw [kleisli_some (maybe_none hconst), hword.keyword_self rfl]
  rw [plainDeclaration, eitherFind_right (g.classStatement_none hword (by decide)),
    eitherFind_right (g.interfaceStatement_none hword (by decide))]
  apply eitherFind_left
  simp only [enumStatement, hfirst, hname.name?, g.enumBody_empty (signAhead_brace _),
    Option.bind_eq_bind, Option.bind_some]

/-- An alias of `number` is found by its name. -/
theorem plainDeclaration_alias {n : Identifier}
    (h : skipTrivia s = "type".toList ++ ' ' :: (n.chars ++ ' ' :: '=' :: ' ' ::
      ("number".toList ++ ';' :: r))) :
    (ofDepth d (depth + 1)).plainDeclaration b before s =
      some ([.simple .typeAlias n.chars], r) := by
  have hword := wordAhead_first (by decide) h
  have hfirst : (ofDepth d (depth + 1)).leadingWord "type" s =
      some (n.chars ++ ' ' :: '=' :: ' ' :: ("number".toList ++ ';' :: r)) :=
    leadingWord_name hword n.isName
  have hname := n.isName.wordAhead (stops_space (r := '=' :: ' ' :: ("number".toList ++ ';' :: r)))
  have hequals : SignAhead (' ' :: '=' :: ' ' :: ("number".toList ++ ';' :: r)) '='
      (' ' :: ("number".toList ++ ';' :: r)) :=
    (signAhead (by decide) _).blank isBlank_space
  have hend : SignAhead (';' :: r) ';' r := signAhead (by decide) r
  have hstop : Stops (';' :: r) := stops_cons.mpr (by decide)
  have htype : (ofDepth d (depth + 1)).type (' ' :: ("number".toList ++ ';' :: r)) =
      some (';' :: r) := by
    apply typeHere_word (ofDepth d depth)
      ((wordAhead_word (w := "number") (by decide) hstop).blank isBlank_space) (by decide)
    · exact namedTail_dots _ [] (Nat.zero_le _) hstop (hend.lacks (by decide))
    · exact hend
    · decide
  have hrest : (maybe (ofDepth d (depth + 1)).typeParameters >=> symbol ['='] >=>
      (ofDepth d (depth + 1)).type) (' ' :: '=' :: ' ' :: ("number".toList ++ ';' :: r)) =
        some (';' :: r) := by
    rw [kleisli_some (maybe_none (typeParameters_none _ (hequals.lacks (by decide)))),
      kleisli_some hequals.symbol_self, htype]
  rw [plainDeclaration_afterEnum _ hword (by decide) (enumStatement_none _ hword (by decide))]
  apply eitherFind_left
  simp only [aliasStatement, hfirst, hname.name?, hrest, Option.bind_eq_bind, Option.bind_some]
  rfl

/-! ### Variables -/

theorem nameHere?_word (w : VariableWord) :
    nameHere? w.word.toList = some (w.word.toList, []) :=
  isName_of_mem_statementWords _ (declarationWords_subset w.word_mem)

/-- A binding does not begin with a keyword. -/
theorem keyword_binding (y : Binding) (r : List Char) {w : String} (hw : w ∈ keywords) :
    keyword w (' ' :: (y.text ++ r)) = none := by
  cases y with
  | value n =>
    have hname := wordAhead_name n (stops_space (r := '=' :: ' ' :: '1' :: r))
    rw [Binding.text, List.append_assoc]
    exact hname.keyword_none n.avoids hw
  | part n m =>
    have hbrace := signAhead_brace (' ' :: (n.chars ++ ' ' :: '\x7d' :: ' ' :: '=' :: ' ' ::
      (m.chars ++ r)))
    have htext : (Binding.part n m).text ++ r = '\x7b' :: ' ' :: (n.chars ++ ' ' :: '\x7d' :: ' ' ::
        '=' :: ' ' :: (m.chars ++ r)) := by simp [Binding.text]
    rw [htext]
    exact hbrace.keyword w

/-- Variables are no enumeration, also behind `const`. -/
theorem enumStatement_binding {w : VariableWord} {y : Binding}
    (h : skipTrivia s = w.word.toList ++ ' ' :: (y.text ++ r)) : g.enumStatement s = none := by
  have hword := wordAhead_first (nameHere?_word w) h
  have hnone : (maybe (keyword "const") >=> keyword "enum") s = none := by
    cases w with
    | const =>
      have hconst : keyword "const" s = some (' ' :: (y.text ++ r)) := hword.keyword_self rfl
      rw [kleisli_some (maybe_some hconst)]
      exact keyword_binding y r (by decide)
    | «let» =>
      rw [kleisli_some (maybe_none ((hword.keyword "const").trans (if_neg (by decide)))),
        hword.keyword, if_neg (by decide)]
    | var =>
      rw [kleisli_some (maybe_none ((hword.keyword "const").trans (if_neg (by decide)))),
        hword.keyword, if_neg (by decide)]
  simp [enumStatement, hnone]

/-- What is found in variables: the names of exported constants. -/
def exportedNames (exported : Bool) (w : VariableWord) (ys : List Binding) : List Finding :=
  if exported && decide (w = .const) then
    (ys.filterMap Binding.name).map (.simple .exportedConst)
  else []

/-- The names that are bound one after the other are found, if they are exported. -/
theorem variableStatement_text {w : VariableWord} {y : Binding} {ys : List Binding}
    (hk : ys.length < depth + 2)
    (h : skipTrivia s = w.word.toList ++ ' ' :: (y.text ++ (Binding.more ys ++ ';' :: r))) :
    (ofDepth d (depth + 2)).variableStatement b s = some (exportedNames b w (y :: ys), r) := by
  have hword := wordAhead_first (nameHere?_word w) h
  have hconst : (keyword "const" s).isSome = decide (w = .const) := by
    rw [hword.keyword]
    cases w with
    | const => rfl
    | «let» => rfl
    | var => rfl
  have hone : oneOf ["const", "let", "var"] s =
      some (' ' :: (y.text ++ (Binding.more ys ++ ';' :: r))) := by
    rw [hword.oneOf]
    cases w with
    | const => rfl
    | «let» => rfl
    | var => rfl
  have hbindings : (ofDepth d (depth + 2)).bindings (ofDepth d (depth + 2)).bound
      (' ' :: (y.text ++ (Binding.more ys ++ ';' :: r))) =
        some ((y :: ys).filterMap Binding.name, ';' :: r, true) :=
    bindings_text hk ((skipTrivia_blank isBlank_space).trans (y.skipTrivia_text_append _))
  simp only [variableStatement, hone, hbindings, hconst, Option.bind_eq_bind, Option.bind_some]
  rfl

/-- No other declaration comes before that of the variables. -/
theorem plainDeclaration_variables {w : VariableWord} {y : Binding} {ys : List Binding}
    (hk : ys.length < depth + 2)
    (h : skipTrivia s = w.word.toList ++ ' ' :: (y.text ++ (Binding.more ys ++ ';' :: r))) :
    (ofDepth d (depth + 2)).plainDeclaration b before s =
      some (exportedNames b w (y :: ys), r) := by
  have hword := wordAhead_first (nameHere?_word w) h
  have ha : Avoids w.word.toList
      ["abstract", "class", "interface", "type", "async", "function"] := by
    cases w with
    | const => decide
    | «let» => decide
    | var => decide
  rw [plainDeclaration_afterFunction _ hword ha (enumStatement_binding _ h)]
  exact eitherFind_left (variableStatement_text hk h)

/-! ### Functions and namespaces -/

/-- A function declares nothing that is documented. -/
theorem plainDeclaration_function {n : Identifier}
    (h : skipTrivia s =
      "function".toList ++ ' ' :: (n.chars ++ '(' :: ')' :: ' ' :: '\x7b' :: '\x7d' :: '\n' :: u))
    (hu : breakEnds false u = true) :
    (ofDepth d (depth + 1)).plainDeclaration b before s = some ([], '\n' :: u) := by
  have hword := wordAhead_first (by decide) h
  have hstop : Stops ('(' :: ')' :: ' ' :: '\x7b' :: '\x7d' :: '\n' :: u) :=
    stops_cons.mpr (by decide)
  have hname := wordAhead_name n hstop
  have hopen : SignAhead ('(' :: ')' :: ' ' :: '\x7b' :: '\x7d' :: '\n' :: u) '('
      (')' :: ' ' :: '\x7b' :: '\x7d' :: '\n' :: u) :=
    signAhead (by decide) _
  have hbrace := signAhead_brace ('\x7d' :: '\n' :: u)
  have hsignature : (ofDepth d (depth + 1)).signature
      ('(' :: ')' :: ' ' :: '\x7b' :: '\x7d' :: '\n' :: u) =
        some (' ' :: '\x7b' :: '\x7d' :: '\n' :: u) := by
    rw [signature, kleisli_some (maybe_none (typeParameters_none _ (hopen.lacks (by decide)))),
      kleisli_some (parameters_empty hopen),
      maybe_none (annotation_none _ (hbrace.lacks (by decide)))]
  have hasync : keyword "async" s = none := by rw [hword.keyword, if_neg (by decide)]
  have hread : (ofDepth d (depth + 1)).function s = some ('\n' :: u) := by
    rw [function, kleisli_some (maybe_none hasync), kleisli_some (hword.keyword_self rfl),
      kleisli_some (maybe_none (hname.symbol (by decide))), kleisli_some (maybe_some hname.anyName),
      kleisli_some hsignature, maybe_some (block_empty _ hbrace)]
  rw [plainDeclaration_afterEnum _ hword (by decide) (enumStatement_none _ hword (by decide)),
    eitherFind_right (aliasStatement_none _ hword (by decide))]
  apply eitherFind_left
  apply nothing_some
  rw [hread]
  exact congrArg some (semicolon_newline hu)

/-- A namespace is read if its braces are. -/
theorem plainDeclaration_namespace {n : Identifier}
    (h : skipTrivia s = "namespace".toList ++ ' ' :: (n.chars ++ ' ' :: '\x7b' :: t))
    (hblock : (ofDepth d (depth + 1)).block (' ' :: '\x7b' :: t) = some r) :
    (ofDepth d (depth + 1)).plainDeclaration b before s = some ([], r) := by
  have hword := wordAhead_first (by decide) h
  have hfirst : (ofDepth d (depth + 1)).leadingWord "namespace" s =
      some (n.chars ++ ' ' :: '\x7b' :: t) := leadingWord_name hword n.isName
  have hname := n.isName.wordAhead (stops_space (r := '\x7b' :: t))
  have hbrace := signAhead_brace t
  have hdot : (symbol ['.'] >=> anyName) (' ' :: '\x7b' :: t) = none :=
    kleisli_none (hbrace.lacks (by decide) '.' (List.mem_singleton_self _) [])
  have hdotted : (ofDepth d (depth + 1)).dottedName (n.chars ++ ' ' :: '\x7b' :: t) =
      some (' ' :: '\x7b' :: t) := by
    rw [dottedName, kleisli_some hname.anyName, repeated_none _ hdot]
  have hstring : string (n.chars ++ ' ' :: '\x7b' :: t) = none := by
    have hquotes : Lacks (n.chars ++ ' ' :: '\x7b' :: t) ['\'', '"'] := hname.lacks (by decide)
    rw [string, either_right (kleisli_none (hquotes '\'' (by simp) [])),
      kleisli_none (hquotes '"' (by simp) [])]
  rw [plainDeclaration_afterFunction _ hword (by decide) (enumStatement_none _ hword (by decide)),
    eitherFind_right (variableStatement_none _ hword (by decide))]
  apply eitherFind_left
  apply nothing_some
  rw [kleisli_some (either_left hfirst), either_right (kleisli_none hstring),
    kleisli_some hdotted, hblock]

end Scope

end DeclarationDocs.TypeScript
