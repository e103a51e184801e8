import DeclarationDocs.Proofs.TypeScript.Statement

namespace DeclarationDocs.TypeScript

/-!
# Reading back an outline

The statements of an outline are read one by one, in the order in which they were written, and
with the blanks and comments that were put between them.

* `Scope.many_outline` — the statements in the braces of a namespace are read up to the closing
  brace, by induction on the outline;
* `statementsFrom_outline` — so are those of a source, each with its text and its line;
* `declarations_text` — reading undoes writing: `declarations d p.text = byKind p.declared`.
-/

variable {s t u r n m g : List Char} {a c : Char} {k depth line : Nat} {d : Dialect} {b : Bool}

/-! ### Where statements begin -/

/-- A statement begins: with a decorator or with one of its words. -/
def StatementAhead (t : List Char) : Prop := (∃ v, t = '@' :: v) ∨ Begins statementWords t

/-- Whether a line break ends a statement depends on `skipTrivia s` alone. -/
theorem breakEnds_congr (h : skipTrivia s = skipTrivia t) : breakEnds b s = breakEnds b t := by
  rw [breakEnds.eq_def, breakEnds.eq_def, h]

/-- A line break ends a statement in front of a closing brace. -/
theorem breakEnds_close : breakEnds b ('\x7d' :: s) = true := by
  rw [breakEnds.eq_def, skipTrivia_lexeme (by decide) (by decide)]
  rfl

/-- A line break ends a statement if nothing follows. -/
theorem breakEnds_nil (h : skipTrivia s = []) : breakEnds b s = true := by
  rw [breakEnds.eq_def, h]

/-- A line break ends a statement in front of a word that is no operator. -/
theorem breakEnds_word (h : WordAhead s n r) (ha : Avoids n ["in", "instanceof"]) :
    breakEnds b s = true := by
  obtain ⟨c, v, hskip, hc⟩ := h.exists_head
  have hname : nameHere? (c :: v) = some (n, r) := hskip ▸ h.nameHere?
  -- a name begins with none of the marks by which a statement goes on
  have hne : ∀ a, startsName a = false → c ≠ a := by
    rintro a ha rfl
    exact absurd hc (by simp [ha])
  have hmarks : "`,.;*%><=?^|&/:".toList.contains c = false := by
    have hsigns : ("`,.;*%><=?^|&/:".toList.all fun a => !startsName a) = true := by decide
    rw [Bool.eq_false_iff]
    intro hcontains
    have hsign := List.all_eq_true.mp hsigns c (List.contains_iff_mem.mp hcontains)
    exact hne c (by simpa using hsign) rfl
  have hbrackets : (c == '(' || c == '[') = false := by
    simp [hne '(' (by decide), hne '[' (by decide)]
  have hoperators : (n != "in".toList && n != "instanceof".toList) = true := by
    simp only [Bool.and_eq_true, bne_iff_ne]
    exact ⟨ha "in" (by simp), ha "instanceof" (by simp)⟩
  rw [breakEnds.eq_def, hskip]
  split
  · rfl
  · rename_i heq
    exact absurd (List.cons.inj heq).1 (hne '+' (by decide))
  · rename_i heq
    exact absurd (List.cons.inj heq).1 (hne '-' (by decide))
  · rename_i heq
    exact absurd (List.cons.inj heq).1 (hne '!' (by decide))
  · rename_i heq
    obtain ⟨rfl, rfl⟩ := List.cons.inj heq
    rw [hmarks, hbrackets, hname]
    exact hoperators

namespace StatementAhead

variable (h : StatementAhead t)

include h

/-- Nothing is passed over in front of a statement: `skipTrivia t = t`. -/
theorem skipTrivia_eq : skipTrivia t = t := by
  obtain ⟨v, rfl⟩ | hbegins := h
  · exact skipTrivia_lexeme (by decide) (by decide)
  · exact hbegins.skipTrivia_eq (List.Subset.refl _)

/-- A line break in front of a statement ends the one before. -/
theorem breakEnds : breakEnds b t = true := by
  obtain ⟨v, rfl⟩ | hbegins := h
  · rw [TypeScript.breakEnds.eq_def, skipTrivia_lexeme (by decide) (by decide)]
    rfl
  · obtain ⟨w, hw, v, -, hword⟩ :=
      hbegins.wordAhead (hbegins.skipTrivia_eq (List.Subset.refl _)) (List.Subset.refl _)
    have havoids : ∀ w ∈ statementWords, Avoids w.toList ["in", "instanceof"] := by decide
    exact breakEnds_word hword (havoids w hw)

/-- A statement does not start with a closing brace. -/
theorem startsWith_close : startsWith '\x7d' t = false := by
  obtain ⟨v, rfl⟩ | hbegins := h
  · have hmark : SignAhead ('@' :: v) '@' v := signAhead (by decide) v
    exact hmark.startsWith _
  · obtain ⟨w, hw, v, -, hword⟩ :=
      hbegins.wordAhead (hbegins.skipTrivia_eq (List.Subset.refl _)) (List.Subset.refl _)
    exact hword.startsWith (by decide)

/-- A statement does not start with the mark of an interpreter line. -/
theorem head?_ne : t.head? ≠ some '#' := by
  have hskip := h.skipTrivia_eq
  obtain ⟨v, rfl⟩ | hbegins := h
  · simp
  · obtain ⟨w, hw, v, -, hword⟩ := hbegins.wordAhead hskip (List.Subset.refl _)
    obtain ⟨c, u, hhead, hc⟩ := hword.exists_head
    rw [← hskip, hhead, List.head?_cons, ne_eq, Option.some.injEq]
    rintro rfl
    exact absurd hc (by decide)

end StatementAhead

/-- What follows a statement does not change that it begins. -/
theorem StatementAhead.append (h : StatementAhead t) (r : List Char) : StatementAhead (t ++ r) := by
  obtain ⟨v, rfl⟩ | ⟨w, hw, v, rfl⟩ := h
  · exact .inl ⟨v ++ r, rfl⟩
  · exact .inr ⟨w, hw, v ++ r, by rw [List.append_assoc, List.cons_append]⟩

/-- A class begins a statement, with its decorators or with one of its words. -/
theorem ClassText.statementAhead (c : ClassText) : StatementAhead c.text := by
  unfold ClassText.text
  cases c.decorators with
  | nil =>
    obtain ⟨w, hw, v, hv⟩ := c.begins_lead []
    have hwords : ["export", "abstract", "class"] ⊆ statementWords := by decide
    rw [List.append_nil] at hv
    exact .inr ⟨w, hwords hw, v, hv⟩
  | cons e es => exact (StatementAhead.append (.inl ⟨_, rfl⟩) _).append _

/-- Every statement of an outline begins as one. -/
theorem Leaf.statementAhead (x : Leaf) : StatementAhead x.text := by
  have hmarked : ∀ (exported : Bool) {w : String} (v : List Char), w ∈ declarationWords →
      StatementAhead (marked exported "export" ++ w.toList ++ ' ' :: v) := by
    intro exported w v hw
    rw [List.append_assoc]
    cases exported with
    | true => exact .inr ⟨"export", by decide, _, marked_true_append _ _⟩
    | false => exact .inr ⟨w, declarationWords_subset hw, v, rfl⟩
  unfold Leaf.text
  cases x with
  | classDecl c => exact c.statementAhead
  | interface exported n => exact (hmarked exported _ (by decide)).append _
  | enum exported n => exact (hmarked exported _ (by decide)).append _
  | typeAlias exported n => exact ((hmarked exported _ (by decide)).append _).append _
  | bindings exported w y ys =>
    exact ((hmarked exported _ w.word_mem).append _).append _
  | ambientClass n =>
    have hdeclare : StatementAhead ("declare".toList ++ ' ' :: "class".toList) :=
      .inr ⟨"declare", by decide, _, rfl⟩
    exact (hdeclare.append _).append _
  | importOf m =>
    have himport : StatementAhead ("import".toList ++ ' ' :: '\'' :: m.chars) :=
      .inr ⟨"import", by decide, _, rfl⟩
    exact himport.append _
  | function n =>
    have hfunction : StatementAhead ("function".toList ++ ' ' :: n.chars) :=
      .inr ⟨"function", by decide, _, rfl⟩
    exact hfunction.append _

/-- A namespace begins a statement. -/
theorem statementAhead_namespace (n : Identifier) (inner : List Char) :
    StatementAhead (Outline.namespaceText n inner) := by
  have hnamespace : StatementAhead ("namespace".toList ++ ' ' :: n.chars) :=
    .inr ⟨"namespace", by decide, _, rfl⟩
  exact (hnamespace.append _).append _

/-- What follows a statement ends it. -/
theorem breakEnds_outline (p : Outline) (gap : Gap) (ht : breakEnds false t = true) :
    breakEnds false (gap.chars ++ (p.text ++ t)) = true := by
  rw [breakEnds_congr (skipTrivia_gap gap.isGap _)]
  cases p with
  | nil => exact ht
  | leaf x gap rest =>
    exact (((x.statementAhead.append _).append _).append t).breakEnds
  | nest n opening body gap rest =>
    exact ((((statementAhead_namespace n _).append _).append _).append t).breakEnds

/-! ### Namespaces -/

namespace Scope

/-- A statement in braces, or what is passed over there. -/
def blockItem (g : Scope) : Reader :=
  provided (fun s => !startsWith '\x7d' s) >=> either g.statement skipLexeme

/-- A closing brace is no item of a block. -/
theorem blockItem_close (g : Scope) (h : SignAhead s '\x7d' r) : g.blockItem s = none :=
  kleisli_none (provided_false (by simp [h.startsWith]))

/-- A statement that is read is an item of a block. -/
theorem blockItem_statement {found : List Finding} (ht : StatementAhead t)
    (hs : skipTrivia s = t) (hread : (ofDepth d depth).statementHere s = some (found, r)) :
    (ofDepth d (depth + 1)).blockItem s = some r := by
  have hstarts : startsWith '\x7d' s = false := by
    have hclose := ht.startsWith_close
    rw [startsWith, ht.skipTrivia_eq] at hclose
    rw [startsWith, hs, hclose]
  have hstatement : (ofDepth d (depth + 1)).statement s = some r := by
    show ((ofDepth d depth).statementHere s).map Prod.snd = _
    rw [hread]
    rfl
  rw [blockItem, kleisli_some (provided_true (by simp [hstarts])), either_left hstatement]

/-- The braces of a namespace are read if what is in them is read up to the closing one. -/
theorem block_of_items (hitems : many depth (ofDepth d depth).blockItem s = some t)
    (ht : skipTrivia t = '\x7d' :: r) :
    (ofDepth d depth).block (' ' :: '\x7b' :: s) = some r := by
  have hopen := signAhead_brace s
  have hclose : SignAhead t '\x7d' r := ⟨ht, by decide⟩
  show (symbol ['\x7b'] >=> many depth (ofDepth d depth).blockItem >=> symbol ['\x7d']) _ = _
  rw [kleisli_some hopen.symbol_self, kleisli_some hitems, hclose.symbol_self]

/-- So is the namespace with its name. -/
theorem statementHere_of_items {n : Identifier} {opening : Gap} {body : Outline}
    (hitems : many (depth + 1) (ofDepth d (depth + 1)).blockItem
      (opening.chars ++ (body.text ++ '\x7d' :: r)) = some t) (ht : skipTrivia t = '\x7d' :: r)
    (hs : skipTrivia s = Outline.namespaceText n (opening.chars ++ body.text) ++ r) :
    (ofDepth d (depth + 1)).statementHere s = some ([], r) := by
  apply statementHere_namespace hs
  rw [List.append_assoc]
  exact block_of_items hitems ht

/-- **The body of a namespace.**  By induction on the outline: each statement is one step, and a
    nested namespace is read by the induction for its own body, one level below. -/
theorem many_outline (p : Outline) (depth k : Nat) (hdepth : p.text.length + 2 ≤ depth)
    (hk : p.text.length ≤ k)
    (hs : skipTrivia s = skipTrivia (p.text ++ '\x7d' :: r)) :
    ∃ t, many k (ofDepth d (depth + 1)).blockItem s = some t ∧ skipTrivia t = '\x7d' :: r := by
  induction p generalizing depth k s r with
  | nil =>
    have hclose := (signAhead_close r).of_skipTrivia_eq hs
    exact ⟨s, many_none (blockItem_close _ hclose), hclose.skip⟩
  | leaf x gap rest ih =>
    have hlength := Outline.length_leaf x gap rest
    obtain ⟨depth, rfl⟩ : ∃ depth', depth = depth' + 2 := ⟨depth - 2, by omega⟩
    obtain ⟨k, rfl⟩ : ∃ k', k = k' + 1 := ⟨k - 1, by omega⟩
    have hahead := x.statementAhead.append ('\n' :: (gap.chars ++ (rest.text ++ '\x7d' :: r)))
    rw [Outline.text_leaf_append, hahead.skipTrivia_eq] at hs
    have hread : (ofDepth d (depth + 2)).statementHere s =
        some (x.findings, '\n' :: (gap.chars ++ (rest.text ++ '\x7d' :: r))) :=
      statementHere_leaf (by omega) hs (breakEnds_outline rest gap breakEnds_close)
    obtain ⟨t, ht, hskip⟩ := ih (depth + 2) k (by omega) (by omega)
      ((skipTrivia_blank isBlank_newline).trans (skipTrivia_gap gap.isGap _))
    exact ⟨t, by rw [many_some (blockItem_statement hahead hs hread), ht], hskip⟩
  | nest n opening body gap rest ihbody ih =>
    have hlength := Outline.length_nest n opening body gap rest
    obtain ⟨depth, rfl⟩ : ∃ depth', depth = depth' + 1 := ⟨depth - 1, by omega⟩
    obtain ⟨k, rfl⟩ : ∃ k', k = k' + 1 := ⟨k - 1, by omega⟩
    have hahead := (statementAhead_namespace n (opening.chars ++ body.text)).append
      ('\n' :: (gap.chars ++ (rest.text ++ '\x7d' :: r)))
    rw [Outline.text_nest_append, hahead.skipTrivia_eq] at hs
    obtain ⟨v, hitems, hv⟩ := ihbody depth (depth + 1)
      (r := '\n' :: (gap.chars ++ (rest.text ++ '\x7d' :: r))) (by omega) (by omega)
      (skipTrivia_gap opening.isGap _)
    have hread := statementHere_of_items hitems hv hs
    obtain ⟨t, ht, hskip⟩ := ih (depth + 1) k (by omega) (by omega)
      ((skipTrivia_blank isBlank_newline).trans (skipTrivia_gap gap.isGap _))
    exact ⟨t, by rw [many_some (blockItem_statement hahead hs hread), ht], hskip⟩

/-- A namespace is read up to the end of its line. -/
theorem statementHere_nest {n : Identifier} {opening : Gap} {body : Outline}
    (hdepth : body.text.length + 2 ≤ depth)
    (hs : skipTrivia s = Outline.namespaceText n (opening.chars ++ body.text) ++ r) :
    (ofDepth d (depth + 1)).statementHere s = some ([], r) := by
  obtain ⟨t, hitems, ht⟩ := many_outline (d := d) (r := r) body depth (depth + 1)
    hdepth (by omega) (skipTrivia_gap opening.isGap _)
  exact statementHere_of_items hitems ht hs

end Scope

/-! ### Sources -/

/-- A text in which a statement begins is not empty. -/
theorem StatementAhead.ne_nil (h : StatementAhead t) : t ≠ [] := by
  obtain ⟨v, rfl⟩ | ⟨w, hw, v, rfl⟩ := h
  · exact List.cons_ne_nil _ _
  · simp

/-- A statement that is read takes up its text. -/
theorem piece?_eq {g : Scope} {found : List Finding} (ht : t ≠ [])
    (hread : g.statementHere (t ++ r) = some (found, r)) :
    piece? g (t ++ r) = some (t.length, found) := by
  have hpos := List.length_pos_iff.mpr ht
  have hshort : r.length < (t ++ r).length := by
    rw [List.length_append]
    omega
  rw [piece?, hread]
  show (if r.length < (t ++ r).length then some ((t ++ r).length - r.length, found) else none) = _
  rw [if_pos hshort, List.length_append, Nat.add_sub_cancel]

/-- One step over a source: the blanks before a statement, and the statement. -/
theorem statementsFrom_step {g : Scope} {found : List Finding} {clean : Bool} {gap : List Char}
    (hgap : IsGap gap) (ht : StatementAhead t)
    (hread : g.statementHere (t ++ r) = some (found, r)) :
    statementsFrom g (k + 1) clean line (gap ++ (t ++ r)) =
      ⟨t, line + gap.count '\n', found⟩ ::
        statementsFrom g k clean (line + gap.count '\n' + t.count '\n') r := by
  have hskip : skipTrivia (gap ++ (t ++ r)) = t ++ r :=
    (skipTrivia_gap hgap _).trans (ht.append r).skipTrivia_eq
  have hpiece := piece?_eq ht.ne_nil hread
  have hbefore : upTo (gap ++ (t ++ r)) (t ++ r) = gap := upTo_append _ _
  obtain ⟨c, v, hcons⟩ := List.exists_cons_of_ne_nil (ht.append r).ne_nil
  have htake : (c :: v).take t.length = t := by rw [← hcons, List.take_left]
  have hdrop : (c :: v).drop t.length = r := by rw [← hcons, List.drop_left]
  rw [hcons] at hskip hpiece hbefore
  simp only [statementsFrom, hcons, hskip, hpiece, hbefore, htake, hdrop, Option.some_or,
    Option.getD_some, Option.isSome_some, Bool.and_true, lineBreaks]

/-- The line of what stands behind a gap and a statement. -/
theorem line_eq (before gap text : List Char) :
    1 + before.count '\n' + gap.count '\n' + text.count '\n' =
      1 + (before ++ (gap ++ text)).count '\n' := by
  simp only [List.count_append]
  omega

/-- **The statements of a source.**  By induction on the outline: behind the text `before`, each
    statement is found with its text and its line. -/
theorem statementsFrom_outline (p : Outline) (clean : Bool) (gap before ending : List Char)
    (hdepth : p.text.length + 2 ≤ depth) (hk : p.text.length < k) (hgap : IsGap gap)
    (hending : skipTrivia ending = []) :
    (statementsFrom (.ofDepth d depth) k clean (1 + before.count '\n')
      (gap ++ (p.text ++ ending))).flatMap Statement.declarations = p.declared (before ++ gap) := by
  induction p generalizing k gap before with
  | nil =>
    obtain ⟨k, rfl⟩ : ∃ k', k = k' + 1 := ⟨k - 1, by omega⟩
    have hskip : skipTrivia (gap ++ (Outline.nil.text ++ ending)) = [] :=
      (skipTrivia_gap hgap _).trans hending
    simp only [statementsFrom, hskip, List.flatMap_nil, Outline.declared]
  | leaf x gap' rest ih =>
    have hlength := Outline.length_leaf x gap' rest
    obtain ⟨depth, rfl⟩ : ∃ depth', depth = depth' + 2 := ⟨depth - 2, by omega⟩
    obtain ⟨k, rfl⟩ : ∃ k', k = k' + 1 := ⟨k - 1, by omega⟩
    have hread : (Scope.ofDepth d (depth + 2)).statementHere
        (x.text ++ '\n' :: (gap'.chars ++ (rest.text ++ ending))) =
          some (x.findings, '\n' :: (gap'.chars ++ (rest.text ++ ending))) :=
      Scope.statementHere_leaf (by omega) (x.statementAhead.append _).skipTrivia_eq
        (breakEnds_outline rest gap' (breakEnds_nil hending))
    have hrest := ih (k := k) ('\n' :: gap'.chars) (before ++ (gap ++ x.text)) (by omega)
      (by omega) (.blank isBlank_newline gap'.isGap)
    have hdeclared : Statement.declarations ⟨x.text, 1 + before.count '\n' + gap.count '\n',
        x.findings⟩ = x.declared (1 + (before ++ gap).count '\n') := by
      rw [List.count_append, ← Nat.add_assoc]
      rfl
    rw [List.append_assoc, List.append_assoc, List.cons_append] at hrest
    rw [Outline.text_leaf_append, statementsFrom_step hgap x.statementAhead hread,
      List.flatMap_cons, hdeclared, line_eq, hrest, Outline.declared, List.append_assoc]
  | nest n opening body gap' rest ihbody ih =>
    have hlength := Outline.length_nest n opening body gap' rest
    obtain ⟨depth, rfl⟩ : ∃ depth', depth = depth' + 1 := ⟨depth - 1, by omega⟩
    obtain ⟨k, rfl⟩ : ∃ k', k = k' + 1 := ⟨k - 1, by omega⟩
    have hahead := statementAhead_namespace n (opening.chars ++ body.text)
    have hread : (Scope.ofDepth d (depth + 1)).statementHere
        (Outline.namespaceText n (opening.chars ++ body.text) ++
          '\n' :: (gap'.chars ++ (rest.text ++ ending))) =
        some ([], '\n' :: (gap'.chars ++ (rest.text ++ ending))) :=
      Scope.statementHere_nest (by omega) (hahead.append _).skipTrivia_eq
    have hrest := ih (k := k) ('\n' :: gap'.chars)
      (before ++ (gap ++ Outline.namespaceText n (opening.chars ++ body.text)))
      (by omega) (by omega) (.blank isBlank_newline gap'.isGap)
    rw [List.append_assoc, List.append_assoc, List.cons_append] at hrest
    -- nothing is declared in a namespace
    rw [Outline.text_nest_append, statementsFrom_step hgap hahead hread, List.flatMap_cons, line_eq,
      hrest, Outline.declared, List.append_assoc]
    rfl

/-- What a source ends with is passed over, all of it. -/
theorem Ending.skipTrivia_text (e : Ending) : skipTrivia e.text = [] := by
  cases e with
  | nothing => rfl
  | comment content h =>
    have hline := triviaFrom_content (b := false) (r := []) h
    rw [List.append_nil] at hline
    show (triviaFrom .line false content).2 = []
    rw [hline]
    rfl

/-- No gap begins with the mark of an interpreter's line. -/
theorem head?_gap_ne (hg : IsGap g) (hr : r.head? ≠ some '#') : (g ++ r).head? ≠ some '#' := by
  cases hg with
  | nil => exact hr
  | @blank c g hc =>
    rw [List.cons_append, List.head?_cons, ne_eq, Option.some.injEq]
    rintro rfl
    exact absurd hc (by decide)
  | line => simp
  | block => simp

/-- No source of statements begins with that mark. -/
theorem SourceText.head?_ne (p : SourceText) : p.text.head? ≠ some '#' := by
  have hending : p.ending.text.head? ≠ some '#' := by
    cases p.ending with
    | nothing => simp [Ending.text]
    | comment content h => simp [Ending.text]
  rw [SourceText.text, List.append_assoc]
  apply head?_gap_ne p.opening.isGap
  cases p.outline with
  | nil => exact hending
  | leaf x gap rest =>
    exact (((x.statementAhead.append _).append _).append _).head?_ne
  | nest n opening body gap rest =>
    exact ((((statementAhead_namespace n _).append _).append _).append _).head?_ne

/-- Without its mark there is no interpreter line. -/
theorem skipInterpreterLine_eq (h : s.head? ≠ some '#') : skipInterpreterLine s = s := by
  unfold skipInterpreterLine
  split
  · exact absurd rfl h
  · rfl

/-- **Reading back.**  Whatever statements `p` has, with whatever blanks and comments between
    them, the `declarations` of the text `p.text` are those that the statements stand for
    (`p.declared`), grouped by `byKind`: by kind, and within each kind in the order of the text. -/
theorem declarations_text (d : Dialect) (p : SourceText) :
    declarations d (String.ofList p.text) = byKind Declaration.kind p.declared := by
  have hlength : p.outline.text.length ≤ p.text.length := by
    simp only [SourceText.text, List.length_append]
    omega
  have hdepth : p.outline.text.length + 2 ≤ 8 * p.text.length + 16 := by omega
  have hstatements := statementsFrom_outline (d := d) p.outline true p.opening.chars []
    p.ending.text hdepth (Nat.lt_succ_of_le hlength) p.opening.isGap p.ending.skipTrivia_text
  rw [← List.append_assoc, List.nil_append] at hstatements
  rw [declarations, String.toList_ofList, statements, skipInterpreterLine_eq p.head?_ne]
  exact congrArg (byKind Declaration.kind) hstatements

end DeclarationDocs.TypeScript
