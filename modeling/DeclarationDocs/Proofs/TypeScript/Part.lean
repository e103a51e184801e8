import DeclarationDocs.Proofs.TypeScript.Clause

namespace DeclarationDocs.TypeScript

/-!
# Parts of statements

How the parts of the statements of an outline are read that are longer than a lexeme: brackets
with nothing in them, bindings, decorators, and what stands between the name of a class and its
members.

* `brackets_empty`, `classBody_empty`, `arguments_empty` and the like — brackets with nothing in
  them;
* `binding_text` — one binding of a constant; `bindings_text` — all of them, by induction on the
  list.
-/

variable {s t u r n m : List Char} {a c : Char} {p q : Reader} {k depth : Nat} {d : Dialect}
  {b : Bool}

namespace Scope

variable (g : Scope)

/-! ### Empty brackets -/

/-- Brackets are read with nothing in them if nothing can be read before the closing one. -/
theorem brackets_empty (hopen : SignAhead s a r) (hclose : SignAhead r c u) (hp : p r = none) :
    (symbol [a] >=> g.repeated p >=> symbol [c]) s = some u := by
  rw [kleisli_some hopen.symbol_self, kleisli_some (g.repeated_none hp), hclose.symbol_self]

/-- Without a comma and without an item a list does not go on. -/
theorem listTo_none (h : SignAhead s c r) (hc : c ≠ ',') (hp : p s = none) :
    either (symbol [',']) p s = none := by
  rw [either_right (h.lacks (by simpa using hc) ',' (List.mem_singleton_self _) []), hp]

/-- A name is the name of a property. -/
theorem propertyName_word (h : WordAhead s n r) : g.propertyName s = some r :=
  either_left h.anyName

variable (h : SignAhead s '\x7d' r)

include h in
/-- A closing brace is no name of a property. -/
theorem propertyName_none : g.propertyName s = none := by
  have hnumber : number s = none := by rw [h.number]; rfl
  simp [propertyName, string, either, kleisli_apply, h.anyName, h.symbol, hnumber]

include h in
theorem propertyModifier_none : propertyModifier s = none := kleisli_none (h.oneOf _)

include h in
/-- A closing brace is not passed over. -/
theorem skipLexeme_none : skipLexeme s = none := by rw [skipLexeme, h.skip]; rfl

include h in
theorem block_none : g.block s = none :=
  kleisli_none (h.lacks (by decide) '\x7b' (List.mem_singleton_self _) [])

include h in
theorem classMember_none : g.classMember s = none := by
  have hdecorator := g.decorator_none (h.lacks (by decide))
  simp [classMember, either, kleisli_apply, maybe, h.symbol, h.keyword, hdecorator,
    g.repeated_none (propertyModifier_none h), g.propertyName_none h]

include h in
theorem typeMember_none : g.typeMember s = none := by
  simp [typeMember, mappedSign, either, kleisli_apply, maybe, provided, h.symbol, h.keyword,
    h.startsWith, g.repeated_none (propertyModifier_none h), g.propertyName_none h]

theorem signAhead_close (r : List Char) : SignAhead ('\x7d' :: r) '\x7d' r :=
  signAhead (by decide) r

/-- Braces with nothing in them are the body of a class. -/
theorem classBody_empty (h : SignAhead s '\x7b' ('\x7d' :: r)) : g.classBody s = some r := by
  have hclose := signAhead_close r
  apply g.brackets_empty h hclose
  have hlacks : Lacks ('\x7d' :: r) ['\'', '"', '`'] := hclose.lacks (by decide)
  have hsymbol := fun a ha t => hlacks a ha t
  simp [either, string, template, kleisli_apply, hsymbol, g.classMember_none hclose,
    g.block_none hclose, skipLexeme_none hclose]

theorem objectType_empty (h : SignAhead s '\x7b' ('\x7d' :: r)) : g.objectType s = some r :=
  g.brackets_empty h (signAhead_close r) (g.typeMember_none (signAhead_close r))

theorem enumBody_empty (h : SignAhead s '\x7b' ('\x7d' :: r)) :
    (symbol ['\x7b'] >=> g.listTo (g.propertyName >=> maybe g.initializer) ['\x7d']) s =
      some r := by
  have hclose := signAhead_close r
  apply g.brackets_empty h hclose
  exact listTo_none hclose (by decide) (kleisli_none (g.propertyName_none hclose))

theorem block_empty (h : SignAhead s '\x7b' ('\x7d' :: r)) : g.block s = some r := by
  have hclose := signAhead_close r
  apply g.brackets_empty h hclose
  exact kleisli_none (provided_false (by simp [hclose.startsWith]))

/-! ### Nothing in parentheses -/

theorem signAhead_parenthesis (r : List Char) : SignAhead (')' :: r) ')' r :=
  signAhead (by decide) r

/-- Without a `<` there is no element. -/
theorem elementValue_none (h : Lacks s ['<']) : (ofDepth d depth).elementValue s = none := by
  unfold elementValue
  split
  · cases depth with
    | zero => rfl
    | succ depth => exact kleisli_none (h '<' (by simp) [])
  · rfl

/-- No value begins with a closing parenthesis. -/
theorem assignmentHere_none (h : SignAhead s ')' r) :
    (ofDepth d depth).assignmentHere b s = none := by
  have hnumber : number s = none := by rw [h.number]; rfl
  have hlacks : Lacks s ['\'', '"', '`', '(', '[', '\x7b', '#', '/'] := h.lacks (by decide)
  have hsymbol := fun a ha t => hlacks a ha t
  have helement : (ofDepth d depth).elementValue s = none :=
    elementValue_none (h.lacks (by decide))
  have hprimary : (ofDepth d depth).primary s = none := by
    rw [primary_sign _ h (by decide)]
    simp [either, string, template, parenthesised, array, object, regex, kleisli_apply, hsymbol,
      hnumber, helement]
  have hoperand : (ofDepth d depth).operand endsTypeArguments s = none := by
    rw [operand, kleisli_some (repeated_none _ (prefixOperator_none _ h (by decide))),
      kleisli_none hprimary]
  have hyielded : (ofDepth d depth).yielded s = none := kleisli_none (h.keyword "yield")
  rw [assignmentHere, either_right (arrowFunction_none _ h (by decide)), either_right hyielded,
    kleisli_none hoperand]

/-- No pattern begins with a closing parenthesis. -/
theorem patternHere_none (h : SignAhead s ')' r) : g.patternHere s = none := by
  simp [patternHere, either, kleisli_apply, h.anyName, h.symbol]

/-- A closing parenthesis is no parameter. -/
theorem parameter_none (h : SignAhead s ')' r) :
    (ofDepth d (depth + 1)).parameter s = none := by
  have hdecorators := repeated_none (ofDepth d (depth + 1))
    (decorator_none (ofDepth d (depth + 1)) (h.lacks (by decide)))
  have hmodifiers : (ofDepth d (depth + 1)).repeated parameterModifier s = some s :=
    repeated_none _ (kleisli_none (h.oneOf _))
  have hpattern : (ofDepth d (depth + 1)).pattern s = none :=
    patternHere_none (ofDepth d depth) h
  simp [parameter, kleisli_apply, maybe, hdecorators, hmodifiers, hpattern, h.symbol]

/-- A call without arguments. -/
theorem arguments_empty (h : SignAhead s '(' (')' :: r)) :
    (ofDepth d (depth + 1)).arguments s = some r := by
  have hclose := signAhead_parenthesis r
  apply brackets_empty _ h hclose
  have hvalue : (ofDepth d (depth + 1)).assignment (')' :: r) = none := assignmentHere_none hclose
  apply listTo_none hclose (by decide)
  rw [kleisli_some (maybe_none (hclose.lacks (by decide) '.' (List.mem_singleton_self _) _)),
    hvalue]

/-- Parentheses with nothing in them are parameters. -/
theorem parameters_empty (h : SignAhead s '(' (')' :: r)) :
    (ofDepth d (depth + 1)).parameters s = some r := by
  have hclose := signAhead_parenthesis r
  apply brackets_empty _ h hclose
  exact listTo_none hclose (by decide) (parameter_none hclose)

/-! ### Bindings -/

/-- A pattern that takes one part is read up to its closing brace. -/
theorem patternHere_part {n : Identifier}
    (h : SignAhead s '\x7b' (' ' :: (n.chars ++ ' ' :: '\x7d' :: r))) :
    (ofDepth d (depth + 1)).patternHere s = some r := by
  have hclose : SignAhead (' ' :: '\x7d' :: r) '\x7d' r := (signAhead_close r).blank isBlank_space
  have hname : WordAhead (' ' :: (n.chars ++ ' ' :: '\x7d' :: r)) n.chars (' ' :: '\x7d' :: r) :=
    (n.isName.wordAhead stops_space).blank isBlank_space
  have hlacks : Lacks (' ' :: '\x7d' :: r) [':', '='] := hclose.lacks (by decide)
  -- the part itself, then nothing more before the brace
  have hproperty : (ofDepth d (depth + 1)).patternProperty
      (' ' :: (n.chars ++ ' ' :: '\x7d' :: r)) = some (' ' :: '\x7d' :: r) := by
    rw [patternProperty, either_right (kleisli_none (hname.symbol (by decide))),
      kleisli_some (propertyName_word _ hname),
      kleisli_some (maybe_none (kleisli_none (hlacks ':' (by simp) []))),
      maybe_none (initializer_none _ (hlacks.mono (by simp)))]
  have hend : (ofDepth d (depth + 1)).patternProperty (' ' :: '\x7d' :: r) = none := by
    rw [patternProperty, either_right (kleisli_none
      (hclose.lacks (by decide) '.' (List.mem_singleton_self _) _)),
      kleisli_none (propertyName_none _ hclose)]
  have hitems : (ofDepth d (depth + 1)).repeated
      (either (symbol [',']) (ofDepth d (depth + 1)).patternProperty)
      (' ' :: (n.chars ++ ' ' :: '\x7d' :: r)) = some (' ' :: '\x7d' :: r) := by
    show many (depth + 1) _ _ = _
    rw [many_some ((either_right (hname.symbol (by decide))).trans hproperty),
      many_none (listTo_none hclose (by decide) hend)]
  rw [patternHere, either_right h.anyName, either_left]
  rw [kleisli_some h.symbol_self, listTo, kleisli_some hitems, hclose.symbol_self]

/-- An initializer is read if its value is. -/
theorem initializer_eq (hvalue : g.assignment (' ' :: s) = some r) :
    g.initializer (' ' :: '=' :: ' ' :: s) = some r := by
  have hequals : SignAhead (' ' :: '=' :: ' ' :: s) '=' (' ' :: s) :=
    (signAhead (by decide) _).blank isBlank_space
  rw [initializer, kleisli_some hequals.symbol_self, hvalue]

/-- A binding whose pattern and value are read. -/
theorem binding_eq (hpattern : g.pattern s = some (' ' :: '=' :: ' ' :: t))
    (hvalue : g.assignment (' ' :: t) = some r) :
    g.binding s = some ((name? s).map Prod.fst, r, true) := by
  have hequals : SignAhead (' ' :: '=' :: ' ' :: t) '=' (' ' :: t) :=
    (signAhead (by decide) _).blank isBlank_space
  have hlacks : Lacks (' ' :: '=' :: ' ' :: t) ['!', ':'] := hequals.lacks (by decide)
  have hbetween : (maybe (symbol ['!']) >=> maybe g.annotation) (' ' :: '=' :: ' ' :: t) =
      some (' ' :: '=' :: ' ' :: t) := by
    rw [kleisli_some (maybe_none (hlacks '!' (by simp) [])),
      maybe_none (g.annotation_none (hlacks.mono (by simp)))]
  have hinitializer := g.initializer_eq hvalue
  have hstarts : startsWith '=' (' ' :: '=' :: ' ' :: t) = true := by
    rw [hequals.startsWith]
    rfl
  simp [binding, hpattern, hbetween, hinitializer, hstarts]

/-- A binding is read up to the mark behind it. -/
theorem binding_text {x : Binding} (h : skipTrivia s = x.text ++ c :: u) (hc : c = ',' ∨ c = ';') :
    (ofDepth d (depth + 2)).binding s = some (x.name, c :: u, true) := by
  have hend : SignAhead (c :: u) c u := by
    rcases hc with rfl | rfl
    · exact signAhead (by decide) u
    · exact signAhead (by decide) u
  cases x with
  | value n =>
    have hname : WordAhead s n.chars (' ' :: '=' :: ' ' :: '1' :: c :: u) :=
      ⟨by simpa [Binding.text] using h, n.isName, stops_space⟩
    have hone : skipTrivia (' ' :: '1' :: c :: u) = '1' :: c :: u := by
      rw [skipTrivia_blank isBlank_space, skipTrivia_lexeme (by decide) (by decide)]
    have hpattern : (ofDepth d (depth + 2)).pattern s =
        some (' ' :: '=' :: ' ' :: '1' :: c :: u) := by
      rw [pattern_ofDepth, patternHere, either_left hname.anyName]
    rw [binding_eq _ hpattern (assignmentHere_one _ hone hend rfl hc), hname.name?]
    rfl
  | part n m =>
    have hopen : SignAhead s '\x7b'
        (' ' :: (n.chars ++ ' ' :: '\x7d' :: ' ' :: '=' :: ' ' :: (m.chars ++ c :: u))) :=
      ⟨by simpa [Binding.text] using h, by decide⟩
    have hstops : Stops (c :: u) := by
      rcases hc with rfl | rfl
      · exact stops_cons.mpr (by decide)
      · exact stops_cons.mpr (by decide)
    have hsource : WordAhead (' ' :: (m.chars ++ c :: u)) m.chars (c :: u) :=
      (m.isName.wordAhead hstops).blank isBlank_space
    have hpattern : (ofDepth d (depth + 2)).pattern s =
        some (' ' :: '=' :: ' ' :: (m.chars ++ c :: u)) := patternHere_part hopen
    rw [binding_eq _ hpattern (assignmentHere_identifier _ hsource hend hc),
      hopen.name?]
    rfl

/-- Bindings are read up to the semicolon behind them. -/
theorem bindings_text {x : Binding} {xs : List Binding} (hk : xs.length < k)
    (h : skipTrivia s = x.text ++ (Binding.more xs ++ ';' :: u)) :
    (ofDepth d (depth + 2)).bindings k s =
      some ((x :: xs).filterMap Binding.name, ';' :: u, true) := by
  induction xs generalizing k s x with
  | nil =>
    obtain ⟨k, rfl⟩ : ∃ k', k = k' + 1 := ⟨k - 1, by omega⟩
    have hend : symbol [','] (';' :: u) = none :=
      (signAhead (by decide) u).lacks (by decide) ','
        (List.mem_singleton_self _) []
    rw [bindings, binding_text h (.inr rfl)]
    simp only [Option.bind_eq_bind, Option.bind_some, hend, Binding.filterMap_name_cons,
      List.filterMap_nil, List.append_nil]
  | cons y xs ih =>
    obtain ⟨k, rfl⟩ : ∃ k', k = k' + 1 := ⟨k - 1, by simp at hk; omega⟩
    rw [Binding.more_cons_append] at h
    have hcomma : symbol [','] (',' :: ' ' :: (y.text ++ (Binding.more xs ++ ';' :: u))) =
        some (' ' :: (y.text ++ (Binding.more xs ++ ';' :: u))) :=
      (signAhead (by decide) _).symbol_self
    have hrest := ih (k := k) (s := ' ' :: (y.text ++ (Binding.more xs ++ ';' :: u))) (x := y)
      (by simpa using hk) ((skipTrivia_blank isBlank_space).trans (y.skipTrivia_text_append _))
    rw [bindings, binding_text h (.inl rfl)]
    simp only [Option.bind_eq_bind, Option.bind_some, hcomma, hrest,
      Binding.filterMap_name_cons x]

end Scope

end DeclarationDocs.TypeScript
