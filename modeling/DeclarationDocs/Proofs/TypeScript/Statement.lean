import DeclarationDocs.Proofs.TypeScript.Declaration

namespace DeclarationDocs.TypeScript

/-!
# Statements of an outline

How the statements of an outline are read: declarations with the words that mark them, and imports.

* `statementHere_word` — which readers are left for a statement that begins with a word;
* `statementHere_declaration` — what `export`, `default` and `declare` do to a declaration;
* `statementHere_leaf` — `g.statementHere` finds `y.findings` in `y.text`, for every leaf `y`;
* `statementHere_namespace` — a namespace, if what it holds is read.
-/

variable {s t u r n m : List Char} {a c : Char} {k depth : Nat} {d : Dialect} {b : Bool}
  {p q : Finder} {x : List Finding × List Char} {before : List (List Char)}

namespace Scope

variable (g : Scope)

/-! ### Exports -/

/-- A declaration that is not marked as ambient. -/
theorem declaration_plain (h : WordAhead s n r) (ha : Avoids n ["declare"]) :
    g.declaration b before s = g.plainDeclaration b before s := by
  rw [declaration, h.keyword_none ha (List.mem_singleton_self _)]
  rfl

/-- No declaration begins with `declare`, `default` or `export`. -/
theorem avoids_of_mem_declarationWords :
    ∀ w ∈ declarationWords, Avoids w.toList ["declare", "default", "export"] := by decide

/-- So is one that begins with a word of its own. -/
theorem declaration_begins (hbegins : Begins declarationWords t) (h : skipTrivia s = t) :
    g.declaration b before s = g.plainDeclaration b before s := by
  obtain ⟨w, hw, v, -, hword⟩ := hbegins.wordAhead h declarationWords_subset
  exact g.declaration_plain hword ((avoids_of_mem_declarationWords w hw).mono (by simp))

/-- A space in front of a declaration is passed over, and nothing else. -/
theorem skipTrivia_space_begins (hbegins : Begins declarationWords t) :
    skipTrivia (' ' :: t) = t :=
  (skipTrivia_blank isBlank_space).trans (hbegins.skipTrivia_eq declarationWords_subset)

/-- A declaration is read behind `export`. -/
theorem exportStatement_declaration (hbegins : Begins declarationWords t)
    (h : WordAhead s "export".toList (' ' :: t))
    (hread : ∀ s, skipTrivia s = t → g.plainDeclaration true before s = some x) :
    g.exportStatement before s = some x := by
  have hskip := skipTrivia_space_begins hbegins
  obtain ⟨w, hw, v, -, hword⟩ := hbegins.wordAhead hskip declarationWords_subset
  have hdefault : keyword "default" (' ' :: t) = none :=
    hword.keyword_none (avoids_of_mem_declarationWords w hw) (by simp)
  simp only [exportStatement, h.keyword_self rfl, hdefault, g.declaration_begins hbegins hskip,
    hread _ hskip, Option.bind_eq_bind, Option.bind_some]

/-- A declaration is read behind `export default`. -/
theorem exportStatement_default (hbegins : Begins declarationWords t)
    (h : WordAhead s "export".toList (' ' :: ("default".toList ++ ' ' :: t)))
    (hread : ∀ s, skipTrivia s = t → g.plainDeclaration true before s = some x) :
    g.exportStatement before s = some x := by
  have hskip := skipTrivia_space_begins hbegins
  have hdefault : keyword "default" (' ' :: ("default".toList ++ ' ' :: t)) = some (' ' :: t) :=
    ((wordAhead_word (by decide) stops_space).blank isBlank_space).keyword_self rfl
  simp only [exportStatement, h.keyword_self rfl, hdefault, g.declaration_begins hbegins hskip,
    hread _ hskip, Option.bind_eq_bind, Option.bind_some]

/-- Without the word `export` nothing is exported. -/
theorem exportStatement_none (h : WordAhead s n r) (ha : Avoids n ["export"]) :
    g.exportStatement before s = none := by
  simp [exportStatement, h.keyword_none ha (List.mem_singleton_self _)]

/-! ### All statements -/

/-- A statement that begins with a word is an export, a declaration, an import or a command. -/
theorem statementHere_word (h : WordAhead s n r) : g.statementHere s =
    eitherFind (g.exportStatement []) (eitherFind (g.declaration false []) <|
      eitherFind g.importStatement <|
      eitherFind (nothing g.controlStatement) (nothing g.expressionStatement)) s := by
  have hblock : g.block s = none := kleisli_none (h.symbol (by decide))
  have hdecorated : g.decorated s = none := by
    rw [decorated, h.symbol (by decide)]
  rw [statementHere, eitherFind_right (nothing_none hblock),
    eitherFind_right (nothing_none (h.symbol (by decide))), eitherFind_right hdecorated]

/-- **Declarations.**  A declaration is read with or without `export` before it. -/
theorem statementHere_declaration (exported : Bool) (hbegins : Begins declarationWords t)
    (h : skipTrivia s = marked exported "export" ++ t)
    (hread : ∀ s, skipTrivia s = t → g.plainDeclaration exported [] s = some x) :
    g.statementHere s = some x := by
  cases exported with
  | true =>
    rw [marked_true_append] at h
    have hword := wordAhead_first (by decide) h
    rw [g.statementHere_word hword]
    exact eitherFind_left (g.exportStatement_declaration hbegins hword hread)
  | false =>
    obtain ⟨w, hw, v, -, hword⟩ := hbegins.wordAhead h declarationWords_subset
    have ha := avoids_of_mem_declarationWords w hw
    rw [g.statementHere_word hword,
      eitherFind_right (g.exportStatement_none hword (ha.mono (by simp)))]
    exact eitherFind_left ((g.declaration_begins hbegins h).trans (hread s h))

/-- An ambient class is read from the word behind `declare` on. -/
theorem statementHere_ambient {n : Identifier}
    (h : skipTrivia s = "declare".toList ++ ' ' :: ("class".toList ++ ' ' :: (n.chars ++
      ' ' :: '\x7b' :: '\x7d' :: '\n' :: u))) (hu : breakEnds false u = true) :
    (ofDepth d (depth + 2)).statementHere s = some ([.simple .classDecl n.chars], '\n' :: u) := by
  have hword := wordAhead_first (by decide) h
  let x : ClassText := ⟨[], .plain false, n, none, []⟩
  have hbare : x.bare ++ '\n' :: u = "class".toList ++ ' ' :: (n.chars ++
      ' ' :: '\x7b' :: '\x7d' :: '\n' :: u) := x.bare_append _
  have hread : (ofDepth d (depth + 2)).plainDeclaration false [] (x.bare ++ '\n' :: u) =
      some ([⟨n.chars, .classDecl, [], []⟩], '\n' :: u) :=
    plainDeclaration_class (Nat.zero_le _)
      (show _ = marked false "abstract" ++ (x.bare ++ '\n' :: u) from x.skipTrivia_bare_append _) hu
  rw [hbare] at hread
  have hmarked : (keyword "declare" s).bind (wordContinues (ofDepth d (depth + 2)).bound false) =
      some (false, "class".toList ++ ' ' :: (n.chars ++ ' ' :: '\x7b' :: '\x7d' :: '\n' :: u)) := by
    rw [hword.keyword_self rfl]
    exact wordContinues_name (k := depth + 1) (isName_of_nameHere? (r := []) (by decide)) _
  rw [statementHere_word _ hword, eitherFind_right (exportStatement_none _ hword (by decide))]
  apply eitherFind_left
  simp only [declaration, hmarked, eitherFind_left hread]
  rfl

/-- A string without its quote, backslashes and line breaks in it ends at the next quote. -/
theorem stringEnd_plain {quote : Char} (hs : ∀ c ∈ s, c ≠ quote ∧ c ≠ '\\' ∧ c ≠ '\n')
    (hquote : quote ≠ '\\') : stringEnd quote (s ++ quote :: r) = some r := by
  induction s with
  | nil =>
    rw [List.nil_append, stringEnd.eq_def]
    split
    all_goals simp_all
  | cons c s ih =>
    obtain ⟨⟨hc, hslash, hline⟩, hs⟩ := List.forall_mem_cons.mp hs
    rw [List.cons_append, stringEnd.eq_def]
    split
    all_goals simp_all

/-- An import of a module is read up to its semicolon. -/
theorem statementHere_import {m : ModuleName}
    (h : skipTrivia s = "import".toList ++ ' ' :: '\'' :: (m.chars ++ '\'' :: ';' :: r)) :
    (ofDepth d (depth + 1)).statementHere s = some ([], r) := by
  have hword := wordAhead_first (by decide) h
  have hquote : SignAhead (' ' :: '\'' :: (m.chars ++ '\'' :: ';' :: r)) '\''
      (m.chars ++ '\'' :: ';' :: r) :=
    (signAhead (by decide) _).blank isBlank_space
  have hend : SignAhead (';' :: r) ';' r := signAhead (by decide) r
  have hstring : string (' ' :: '\'' :: (m.chars ++ '\'' :: ';' :: r)) = some (';' :: r) := by
    apply either_left
    rw [kleisli_some hquote.symbol_self, stringEnd_plain m.plain (by decide)]
  have hattributes : (ofDepth d (depth + 1)).importAttributes (';' :: r) = some (';' :: r) :=
    maybe_none (kleisli_none (hend.oneOf _))
  have htype : (keyword "type" >=> provided fun s => (name? s).isSome)
      (' ' :: '\'' :: (m.chars ++ '\'' :: ';' :: r)) = none := kleisli_none (hquote.keyword "type")
  have halias : (ofDepth d (depth + 1)).importAlias s = none := by
    apply nothing_none
    rw [kleisli_some (hword.keyword_self rfl), kleisli_some (maybe_none htype),
      kleisli_none hquote.anyName]
    rfl
  have hplain : (ofDepth d (depth + 1)).plainDeclaration false [] s = none := by
    rw [plainDeclaration_afterFunction _ hword (by decide)
        (enumStatement_none _ hword (by decide)),
      eitherFind_right (variableStatement_none _ hword (by decide)),
      eitherFind_right (namespaceStatement_none _ hword (by decide)), halias]
  rw [statementHere_word _ hword, eitherFind_right (exportStatement_none _ hword (by decide)),
    eitherFind_right ((declaration_plain _ hword (by decide)).trans hplain)]
  apply eitherFind_left
  apply nothing_some
  rw [kleisli_some (hword.keyword_self rfl), kleisli_some (either_left hstring), hattributes]
  rfl

/-! ### Classes -/

/-- An exported class is read behind its decorators, whatever they are. -/
theorem exportStatement_class {y : ClassText} (hk : y.contracts.length ≤ depth + 2)
    (hexports : y.lead.exports = true)
    (h : skipTrivia s = y.lead.text ++ (y.bare ++ '\n' :: u)) (hu : breakEnds false u = true) :
    (ofDepth d (depth + 2)).exportStatement before s =
      some ([⟨y.name.chars, .classDecl, before, y.contracts.map Contract.text⟩], '\n' :: u) := by
  have hread : ∀ (abstract : Bool) (v : List Char),
      skipTrivia v = marked abstract "abstract" ++ (y.bare ++ '\n' :: u) →
      (ofDepth d (depth + 2)).plainDeclaration true before v =
        some ([⟨y.name.chars, .classDecl, before, y.contracts.map Contract.text⟩], '\n' :: u) :=
    fun abstract v hv => plainDeclaration_class hk hv hu
  have hbegins : ∀ abstract : Bool,
      Begins declarationWords (marked abstract "abstract" ++ (y.bare ++ '\n' :: u)) :=
    fun abstract => (y.begins_bare abstract _).mono (by decide)
  cases hlead : y.lead with
  | plain abstract =>
    rw [hlead] at hexports
    exact absurd hexports Bool.false_ne_true
  | exported abstract =>
    rw [hlead, ClassLead.text, List.append_assoc, marked_true_append] at h
    exact exportStatement_declaration _ (hbegins abstract) (wordAhead_first (by decide) h)
      (hread abstract)
  | default =>
    rw [hlead, ClassLead.text, List.append_assoc, marked_true_append, marked_true_append] at h
    exact exportStatement_default _ (hbegins false) (wordAhead_first (by decide) h) (hread false)

/-- A class without decorators. -/
theorem statementHere_undecorated {y : ClassText} (hk : y.contracts.length ≤ depth + 2)
    (h : skipTrivia s = y.lead.text ++ (y.bare ++ '\n' :: u)) (hu : breakEnds false u = true) :
    (ofDepth d (depth + 2)).statementHere s =
      some ([⟨y.name.chars, .classDecl, [], y.contracts.map Contract.text⟩], '\n' :: u) := by
  obtain ⟨hexports, v, hv⟩ | ⟨abstract, hlead⟩ := y.lead.text_append (y.bare ++ '\n' :: u)
  · have hword := wordAhead_first (by decide) (h.trans hv)
    rw [statementHere_word _ hword]
    exact eitherFind_left (exportStatement_class hk hexports h hu)
  · rw [hlead] at h
    exact statementHere_declaration _ false
      ((y.begins_bare abstract _).mono (by decide)) h fun v hv => plainDeclaration_class hk hv hu

/-- A class with decorators before it, or before its export. -/
theorem statementHere_decorated {y : ClassText} {e : Decorator} {es : List Decorator}
    (hdecorators : y.decorators = e :: es) (hk : y.contracts.length ≤ depth + 2)
    (hcount : y.decorators.length ≤ depth + 2)
    (hpaths : ∀ e ∈ y.decorators, e.path.others.length ≤ depth + 2)
    (h : skipTrivia s = y.text ++ '\n' :: u) (hu : breakEnds false u = true) :
    (ofDepth d (depth + 2)).statementHere s = some ([y.finding], '\n' :: u) := by
  generalize hrest : y.lead.text ++ (y.bare ++ '\n' :: u) = rest
  have hbegins : Begins ["export", "abstract", "class"] rest := hrest ▸ y.begins_lead _
  have hskip : skipTrivia rest = rest := hbegins.skipTrivia_eq (by decide)
  have htexts : skipTrivia s = skipTrivia (Decorator.texts y.decorators ++ rest) := by
    rw [h, ClassText.text, List.append_assoc, List.append_assoc, hrest, hdecorators,
      Decorator.skipTrivia_texts_append]
  have hmark : SignAhead s '@' (e.path.text ++ e.call ++ e.separator ::
      (Decorator.texts es ++ rest)) := by
    rw [hdecorators] at htexts
    exact signAhead_texts.of_skipTrivia_eq htexts
  -- the decorators are read up to the words before the class
  obtain ⟨w, hw, v, -, hfirst⟩ := hbegins.wordAhead hskip (by decide)
  obtain ⟨t, hread, htskip⟩ :
      ∃ t, (ofDepth d (depth + 2)).decorators (ofDepth d (depth + 2)).bound s =
        (y.decorators.map Decorator.name, t) ∧ skipTrivia t = skipTrivia rest :=
    decorators_texts hcount hpaths htexts (hfirst.lacks (by decide))
  have hclass : skipTrivia t = y.lead.text ++ (y.bare ++ '\n' :: u) := by
    rw [htskip, hskip, hrest]
  have hdecorated : (ofDepth d (depth + 2)).decorated s = some ([y.finding], '\n' :: u) := by
    simp only [decorated, hread, hmark.symbol_self]
    obtain ⟨hexports, -, -⟩ | ⟨abstract, hlead⟩ := y.lead.text_append (y.bare ++ '\n' :: u)
    · exact eitherFind_left (exportStatement_class hk hexports hclass hu)
    · rw [hlead] at hclass
      obtain ⟨w, hw, v, -, hword⟩ := (y.begins_bare abstract _).wordAhead hclass (by decide)
      have havoids : ∀ w ∈ ["abstract", "class"], Avoids w.toList ["export"] := by decide
      rw [eitherFind_right (exportStatement_none _ hword (havoids w hw))]
      exact classTail_bare hk hclass hu
  have hblock : (ofDepth d (depth + 2)).block s = none :=
    kleisli_none (hmark.lacks (by decide) '\x7b' (List.mem_singleton_self _) [])
  have hsemicolon : symbol [';'] s = none :=
    hmark.lacks (by decide) ';' (List.mem_singleton_self _) []
  rw [statementHere, eitherFind_right (nothing_none hblock),
    eitherFind_right (nothing_none hsemicolon)]
  exact eitherFind_left hdecorated

/-- A class of an outline. -/
theorem statementHere_class {y : ClassText} (hk : y.text.length ≤ depth)
    (h : skipTrivia s = y.text ++ '\n' :: u) (hu : breakEnds false u = true) :
    (ofDepth d (depth + 2)).statementHere s = some ([y.finding], '\n' :: u) := by
  have hcontracts : y.contracts.length ≤ depth + 2 :=
    y.length_contracts_le.trans (hk.trans (Nat.le_add_right depth 2))
  cases hdecorators : y.decorators with
  | nil =>
    rw [ClassText.text, hdecorators, List.append_assoc, List.append_assoc] at h
    rw [statementHere_undecorated hcontracts h hu, ClassText.finding, hdecorators]
    rfl
  | cons e es =>
    have hcount : y.decorators.length ≤ depth + 2 :=
      y.length_decorators_le.trans (hk.trans (Nat.le_add_right depth 2))
    exact statementHere_decorated hdecorators hcontracts hcount
      (fun e he => (y.length_path_le e he).trans (hk.trans (Nat.le_add_right depth 2))) h hu

/-- Variables of an outline.  Only those that are exported and constant are found. -/
theorem statementHere_bindings {exported : Bool} {w : VariableWord} {y : Binding} {ys : List Binding}
    (hk : (Leaf.bindings exported w y ys).text.length ≤ depth)
    (h : skipTrivia s = (Leaf.bindings exported w y ys).text ++ '\n' :: u) :
    (ofDepth d (depth + 2)).statementHere s =
      some ((Leaf.bindings exported w y ys).findings, '\n' :: u) := by
  have htext : (Leaf.bindings exported w y ys).text ++ '\n' :: u = marked exported "export" ++
      (w.word.toList ++ ' ' :: (y.text ++ (Binding.more ys ++ ';' :: '\n' :: u))) := by
    unfold Leaf.text
    simp only [List.append_assoc, List.cons_append, List.nil_append]
  -- there are more characters than bindings, so there are steps enough to read them all
  have hcount : ys.length < depth + 2 := by
    have hmore := Binding.length_le_more ys
    have hlength : (Binding.more ys).length ≤ (Leaf.bindings exported w y ys).text.length := by
      unfold Leaf.text
      simp only [List.length_append]
      omega
    omega
  rw [statementHere_declaration (ofDepth d (depth + 2)) exported
    ⟨w.word, w.word_mem, _, rfl⟩ (h.trans htext) fun v hv => plainDeclaration_variables hcount hv]
  cases exported with
  | false => rfl
  | true =>
    cases w with
    | const => rfl
    | «let» => rfl
    | var => rfl

/-- **Statements.**  A statement of an outline is read up to the end of its line, and what is found
    in it is what it declares. -/
theorem statementHere_leaf {y : Leaf} (hk : y.text.length ≤ depth)
    (h : skipTrivia s = y.text ++ '\n' :: u) (hu : breakEnds false u = true) :
    (ofDepth d (depth + 2)).statementHere s = some (y.findings, '\n' :: u) := by
  cases y with
  | classDecl c => exact statementHere_class hk h hu
  | interface exported n =>
    have htext : (Leaf.interface exported n).text ++ '\n' :: u = marked exported "export" ++
        ("interface".toList ++ ' ' :: (n.chars ++ ' ' :: '\x7b' :: '\x7d' :: '\n' :: u)) := by
      unfold Leaf.text
      simp only [List.append_assoc, List.cons_append, List.nil_append]
    exact statementHere_declaration _ exported ⟨"interface", by decide, _, rfl⟩ (h.trans htext)
      fun v hv => plainDeclaration_interface _ hv
  | enum exported n =>
    have htext : (Leaf.enum exported n).text ++ '\n' :: u = marked exported "export" ++
        ("enum".toList ++ ' ' :: (n.chars ++ ' ' :: '\x7b' :: '\x7d' :: '\n' :: u)) := by
      unfold Leaf.text
      simp only [List.append_assoc, List.cons_append, List.nil_append]
    exact statementHere_declaration _ exported ⟨"enum", by decide, _, rfl⟩ (h.trans htext)
      fun v hv => plainDeclaration_enum _ hv
  | typeAlias exported n =>
    have htext : (Leaf.typeAlias exported n).text ++ '\n' :: u = marked exported "export" ++
        ("type".toList ++ ' ' :: (n.chars ++ ' ' :: '=' :: ' ' ::
          ("number".toList ++ ';' :: '\n' :: u))) := by
      unfold Leaf.text
      simp only [List.append_assoc, List.cons_append, List.nil_append]
    exact statementHere_declaration _ exported ⟨"type", by decide, _, rfl⟩ (h.trans htext)
      fun v hv => plainDeclaration_alias hv
  | bindings exported w y ys => exact statementHere_bindings hk h
  | ambientClass n =>
    apply statementHere_ambient _ hu
    rw [h]
    unfold Leaf.text
    simp only [List.append_assoc, List.cons_append, List.nil_append]
  | importOf m =>
    apply statementHere_import (m := m)
    rw [h]
    unfold Leaf.text
    simp only [List.append_assoc, List.cons_append, List.nil_append]
  | function n =>
    have htext : (Leaf.function n).text ++ '\n' :: u = marked false "export" ++
        ("function".toList ++ ' ' :: (n.chars ++
          '(' :: ')' :: ' ' :: '\x7b' :: '\x7d' :: '\n' :: u)) := by
      unfold Leaf.text
      simp only [List.append_assoc, List.cons_append, List.nil_append]
      rfl
    exact statementHere_declaration _ false ⟨"function", by decide, _, rfl⟩ (h.trans htext)
      fun v hv => plainDeclaration_function hv hu

/-- A namespace of an outline is read if its braces are. -/
theorem statementHere_namespace {n : Identifier} {inner : List Char}
    (h : skipTrivia s = Outline.namespaceText n inner ++ r)
    (hblock : (ofDepth d (depth + 1)).block (' ' :: '\x7b' :: (inner ++ '\x7d' :: r)) = some r) :
    (ofDepth d (depth + 1)).statementHere s = some ([], r) := by
  have htext : Outline.namespaceText n inner ++ r = marked false "export" ++
      ("namespace".toList ++ ' ' :: (n.chars ++ ' ' :: '\x7b' :: (inner ++ '\x7d' :: r))) := by
    unfold Outline.namespaceText
    simp only [List.append_assoc, List.cons_append, List.nil_append]
    rfl
  exact statementHere_declaration _ false ⟨"namespace", by decide, _, rfl⟩ (h.trans htext)
    fun v hv => plainDeclaration_namespace hv hblock

end Scope

end DeclarationDocs.TypeScript
