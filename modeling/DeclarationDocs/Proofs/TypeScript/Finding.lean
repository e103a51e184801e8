import DeclarationDocs.Proofs.TypeScript.Constructs
import DeclarationDocs.TypeScript.Program

namespace DeclarationDocs.TypeScript

/-!
# What is found in a statement

Whatever a source text looks like, what is found in a statement was read there: its names are
names of the language and stand in the statement one behind the other, and so do the contracts of
a class.  Several things are found only in a statement of exported constants.

* `InOrder ns s` — the names stand in the text, in this order;
* `Orderly`, `Holds` — what can be said of findings alone, and of them in a text;
* `Found s found r` — both, for what is found between two places of a text;
* `Finds p` — all that the finder `p` finds is found so; `Scope.finds_statementHere` — statements,
  by the ways in which they are read;
* `advances_read` — hence all constructs of the language are read forward, however deep they are
  nested.
-/

variable {s t u v r r' n body : List Char} {ns : List (List Char)} {found : List Finding}
  {f : Finding}

/-! ### Names in a text -/

/-- Names stand in a text, each behind the one before it. -/
inductive InOrder : List (List Char) → List Char → Prop
  | nil (s : List Char) : InOrder [] s
  | cons (gap : List Char) {n : List Char} {ns : List (List Char)} {s : List Char}
      (h : InOrder ns s) : InOrder (n :: ns) (gap ++ (n ++ s))

/-- Names that stand in order in `s` do so with more in front. -/
theorem InOrder.prepend (h : InOrder ns s) (a : List Char) : InOrder ns (a ++ s) := by
  cases h with
  | nil => exact .nil _
  | cons gap h =>
    rw [← List.append_assoc]
    exact .cons (a ++ gap) h

/-- Names that stand in order in `s` do so with more behind. -/
theorem InOrder.append (h : InOrder ns s) (b : List Char) : InOrder ns (s ++ b) := by
  induction h with
  | nil => exact .nil _
  | cons gap _ ih =>
    rw [List.append_assoc, List.append_assoc]
    exact .cons gap ih

/-- Names that stand in order in a part of `t` do so in `t`. -/
theorem InOrder.mono (h : InOrder ns s) (hs : s <:+: t) : InOrder ns t := by
  obtain ⟨a, b, rfl⟩ := hs
  exact (h.prepend a).append b

/-- One name is in order wherever it stands. -/
theorem inOrder_singleton (h : n <:+: s) : InOrder [n] s := by
  obtain ⟨a, b, rfl⟩ := h
  rw [List.append_assoc]
  exact .cons a (.nil b)

/-- What stands at a place of a text, in front of another place, is a part of what lies before
    that. -/
theorem infix_of_suffix (ht : t ++ u <:+ s) (hr : r <:+ u) (hs : s = body ++ r) :
    t <:+: body := by
  obtain ⟨a, rfl⟩ := ht
  obtain ⟨b, rfl⟩ := hr
  refine ⟨a, b, (List.append_left_inj r).mp ?_⟩
  simpa using hs

/-! ### Findings -/

/-- What can be said of findings alone: their names are names, only classes have decorators and
    contracts, and several of them are exported constants. -/
structure Orderly (found : List Finding) : Prop where
  isName : ∀ f ∈ found, IsName f.name
  bare : ∀ f ∈ found, f.kind ≠ .classDecl → f.decorators = [] ∧ f.implements = []
  several : found.Pairwise fun f f' => f.kind = .exportedConst ∧ f'.kind = .exportedConst

/-- Findings are written in a text: their names one behind the other, and their contracts. -/
structure Holds (body : List Char) (found : List Finding) : Prop where
  inOrder : InOrder (found.map Finding.name) body
  contracts : ∀ f ∈ found, ∀ x ∈ f.implements, x <:+: body

/-- What `name?` reads is a name. -/
theorem isName_of_name? (h : name? s = some (n, r)) : IsName n := (nameHere?_eq_some h).1

theorem orderly_nil : Orderly [] := ⟨by simp, by simp, .nil⟩

/-- One declaration is in order by itself. -/
theorem orderly_singleton (hname : IsName f.name)
    (hbare : f.kind ≠ .classDecl → f.decorators = [] ∧ f.implements = []) : Orderly [f] :=
  ⟨by simpa using hname, by simpa using hbare, List.pairwise_singleton _ f⟩

/-- Every statement holds what declares nothing. -/
theorem holds_nil (body : List Char) : Holds body [] := ⟨.nil body, by simp⟩

/-- What a part of `t` holds `t` holds. -/
theorem Holds.mono (h : Holds s found) (hs : s <:+: t) : Holds t found :=
  ⟨h.inOrder.mono hs, fun f hf x hx => (h.contracts f hf x hx).trans hs⟩

/-- What is found between two places of a text is written there; if it all ends with braces, these
    stand behind what is found. -/
structure Found (s : List Char) (found : List Finding) (r : List Char) : Prop where
  orderly : Orderly found
  held : ∃ head tail, s = head ++ (tail ++ r) ∧ Holds head found ∧
    (found ≠ [] → (∀ f ∈ found, endsWithBrace f.kind = true) → 2 ≤ tail.length)

/-- A finder leaves an end of the text. -/
theorem Found.suffix (h : Found s found r) : r <:+ s := by
  obtain ⟨head, tail, rfl, -⟩ := h.held
  exact ⟨head ++ tail, by simp⟩

/-- A reader that finds nothing may leave any end of the text. -/
theorem found_nil (h : r <:+ s) : Found s [] r := by
  obtain ⟨a, rfl⟩ := h
  exact ⟨orderly_nil, a, [], rfl, holds_nil a, by simp⟩

/-- What is found in an end of `t` is found in `t`. -/
theorem Found.prepend (h : Found s found r) (hs : s <:+ t) : Found t found r := by
  obtain ⟨head, tail, rfl, hheld, htail⟩ := h.held
  obtain ⟨a, rfl⟩ := hs
  exact ⟨h.orderly, a ++ head, tail, by simp, hheld.mono (List.suffix_append a head).isInfix, htail⟩

/-- What is found may be followed by more that is passed over. -/
theorem Found.extend (h : Found s found r) (hr : r' <:+ r) : Found s found r' := by
  obtain ⟨head, tail, rfl, hheld, htail⟩ := h.held
  obtain ⟨b, rfl⟩ := hr
  refine ⟨h.orderly, head, tail ++ b, by simp, hheld, fun hne hbrace => ?_⟩
  have hlength := htail hne hbrace
  rw [List.length_append]
  omega

/-- One declaration, whose name and contracts stand in front of the place `v`. -/
theorem found_singleton (horderly : Orderly [f]) (hname : f.name ++ t <:+ s) (hv : v <:+ t)
    (hcontracts : ∀ x ∈ f.implements, ∃ u, x ++ u <:+ s ∧ v <:+ u) (hr : r <:+ v)
    (hbrace : endsWithBrace f.kind = true → r.length + 2 ≤ v.length) : Found s [f] r := by
  obtain ⟨head, hs⟩ := (hv.trans (List.suffix_append _ t)).trans hname
  obtain ⟨tail, rfl⟩ := hr
  refine ⟨horderly, head, tail, hs.symm, ⟨?_, ?_⟩, fun _ hall => ?_⟩
  · exact inOrder_singleton (infix_of_suffix hname hv hs.symm)
  · intro f' hf' x hx
    obtain rfl := List.mem_singleton.mp hf'
    obtain ⟨u, hx, hu⟩ := hcontracts x hx
    exact infix_of_suffix hx hu hs.symm
  · have hlength := hbrace (hall f List.mem_cons_self)
    rw [List.length_append] at hlength
    omega

/-- One declaration that has a name and a kind only; its name is read between `s` and `v`. -/
theorem found_simple (kind : Declaration.Kind) (hu : u <:+ s) (hname : name? u = some (n, t))
    (hv : v <:+ t) (hr : r <:+ v) (hbrace : endsWithBrace kind = true → r.length + 2 ≤ v.length) :
    Found s [.simple kind n] r :=
  found_singleton (orderly_singleton (isName_of_name? hname) fun _ => ⟨rfl, rfl⟩)
    ((name?_suffix hname).trans hu) hv (by simp [Finding.simple]) hr hbrace

/-! ### Finders -/

/-- What a finder finds is found in what it reads. -/
def Finds (p : Finder) : Prop := ∀ s found r, p s = some (found, r) → Found s found r

/-- A reader that finds nothing finds what is there. -/
theorem finds_nothing (p : Reader) [Advances p] : Finds (nothing p) := by
  intro s found r h
  obtain ⟨t, ht, heq⟩ := Option.map_eq_some_iff.mp h
  obtain ⟨rfl, rfl⟩ := Prod.mk.inj heq
  exact found_nil (Advances.suffix ht)

/-- So does one that takes a semicolon at the end. -/
theorem finds_ended (p : Reader) [Advances p] (inExpression : Bool) (k : Nat) :
    Finds fun s => (p s).map fun r => ([], semicolon inExpression k r) := by
  intro s found r h
  obtain ⟨t, ht, heq⟩ := Option.map_eq_some_iff.mp h
  obtain ⟨rfl, rfl⟩ := Prod.mk.inj heq
  exact found_nil ((semicolon_suffix _ _ t).trans (Advances.suffix ht))

/-- Of two finders either one may find. -/
theorem finds_eitherFind {p q : Finder} (hp : Finds p) (hq : Finds q) :
    Finds (eitherFind p q) := by
  intro s found r h
  unfold eitherFind at h
  split at h
  · rename_i x hx
    rw [h] at hx
    exact hp s found r hx
  · exact hq s found r h

namespace Scope

variable (g : Scope) [g.Regular]

/-! ### Classes -/

/-- Decorators are taken from the front. -/
theorem decorators_suffix (k : Nat) (s : List Char) : (g.decorators k s).2 <:+ s := by
  induction k generalizing s with
  | zero => exact List.suffix_refl s
  | succ k ih =>
    unfold decorators
    split
    · rename_i r _ hr _
      exact (ih r).trans (Advances.suffix hr)
    · exact List.suffix_refl s

/-- The texts of types stand one behind the other in front of what is left. -/
theorem typeTexts_spec {k : Nat} {xs : List (List Char)} (h : g.typeTexts k s = some (xs, r)) :
    r <:+ s ∧ ∀ x ∈ xs, ∃ u, x ++ u <:+ s ∧ r <:+ u := by
  induction k generalizing s xs r with
  | zero => exact absurd h (by simp [typeTexts])
  | succ k ih =>
    simp only [typeTexts, Option.bind_eq_bind, Option.bind_eq_some_iff] at h
    obtain ⟨t, htype, h⟩ := h
    have ht : t <:+ skipTrivia s := Advances.suffix htype
    -- the first text is all that was read of its type, without the trivia in front of it
    have hfirst : upTo (skipTrivia s) t ++ t <:+ s := by
      rw [upTo_append_of_suffix ht]
      exact skipTrivia_suffix s
    have hts : t <:+ s := ht.trans (skipTrivia_suffix s)
    split at h
    · obtain ⟨rfl, rfl⟩ := Prod.mk.inj (Option.some.inj h)
      exact ⟨hts, by simpa using ⟨t, hfirst, List.suffix_refl t⟩⟩
    · rename_i v hcomma
      obtain ⟨⟨ys, r'⟩, hrest, h⟩ := Option.bind_eq_some_iff.mp h
      obtain ⟨rfl, rfl⟩ := Prod.mk.inj (Option.some.inj h)
      obtain ⟨hr, hys⟩ := ih hrest
      have hvt : v <:+ t := Advances.suffix hcomma
      refine ⟨(hr.trans hvt).trans hts, List.forall_mem_cons.mpr ⟨⟨t, hfirst, hr.trans hvt⟩, ?_⟩⟩
      intro x hx
      obtain ⟨u, hxu, hu⟩ := hys x hx
      exact ⟨u, (hxu.trans hvt).trans hts, hu⟩

/-- The contracts of a class are slices of it, one behind the other. -/
theorem contracts_spec {xs : List (List Char)} (h : g.contracts s = some (xs, r)) :
    r <:+ s ∧ ∀ x ∈ xs, ∃ u, x ++ u <:+ s ∧ r <:+ u := by
  unfold contracts at h
  split at h
  · obtain ⟨rfl, rfl⟩ := Prod.mk.inj (Option.some.inj h)
    exact ⟨List.suffix_refl s, by simp⟩
  · rename_i t ht
    have hts : t <:+ s := Advances.suffix ht
    obtain ⟨hr, hxs⟩ := g.typeTexts_spec h
    refine ⟨hr.trans hts, fun x hx => ?_⟩
    obtain ⟨u, hxu, hu⟩ := hxs x hx
    exact ⟨u, hxu.trans hts, hu⟩

/-- A class from its name on is found with the decorators `before` it. -/
theorem finds_classTail (before : List (List Char)) : Finds (g.classTail before) := by
  intro s found r h
  simp only [classTail, Option.bind_eq_bind, Option.bind_eq_some_iff] at h
  obtain ⟨s₁, hclass, s₂, hheritage, ⟨xs, s₃⟩, hcontracts, s₄, hbody, h⟩ := h
  have h₁ : s₁ <:+ s := by
    have habstract : (keyword "abstract" s).getD s <:+ s :=
      Advances.suffix (p := maybe (keyword "abstract")) rfl
    exact (Advances.suffix hclass).trans habstract
  obtain ⟨h₃, hxs⟩ := g.contracts_spec hcontracts
  have hbraces : s₄.length + 2 ≤ s₃.length := length_between hbody
  -- the comments behind the closing brace may belong to the class
  have hend : ∀ b : Bool, (if b then s₄ else (commentsToBreak g.bound s₄).getD s₄) <:+ s₄ := by
    intro b
    cases b with
    | true => exact List.suffix_refl s₄
    | false => exact Advances.suffix (p := maybe (commentsToBreak g.bound)) rfl
  have h₄ : s₄ <:+ s₃ := Advances.suffix hbody
  split at h
  · rename_i n t hname
    obtain ⟨rfl, rfl⟩ := Prod.mk.inj (Option.some.inj h)
    rw [hname] at hheritage
    obtain ⟨u, hu, hread⟩ := Option.bind_eq_some_iff.mp hname
    have hn : n ++ t <:+ s := ((name?_suffix hread).trans (Advances.suffix hu)).trans h₁
    have h₂ : s₂ <:+ t := Advances.suffix hheritage
    have hts : t <:+ s := (List.suffix_append n t).trans hn
    refine found_singleton (orderly_singleton (isName_of_name? hread) (by simp)) hn
      (h₃.trans h₂) (fun x hx => ?_) ((hend _).trans h₄) fun _ => ?_
    · obtain ⟨v, hxv, hv⟩ := hxs x hx
      exact ⟨v, (hxv.trans h₂).trans hts, hv⟩
    · have hlength := (hend (keyword "abstract" s).isSome).length_le
      omega
  · rename_i hname
    obtain ⟨rfl, rfl⟩ := Prod.mk.inj (Option.some.inj h)
    rw [hname] at hheritage
    have h₂ : s₂ <:+ s₁ := Advances.suffix hheritage
    exact found_nil (((((hend _).trans h₄).trans h₃).trans h₂).trans h₁)

/-- A class is found with the decorators `before` it. -/
theorem finds_classStatement (before : List (List Char)) : Finds (g.classStatement before) := by
  intro s found r h
  exact (g.finds_classTail _ _ _ _ h).prepend (g.decorators_suffix g.bound s)

/-! ### Other declarations -/

theorem finds_interfaceStatement : Finds g.interfaceStatement := by
  intro s found r h
  simp only [interfaceStatement, Option.bind_eq_bind, Option.bind_eq_some_iff] at h
  obtain ⟨s₁, hword, ⟨n, s₂⟩, hname, s₃, hrest, h⟩ := h
  obtain ⟨rfl, rfl⟩ := Prod.mk.inj (Option.some.inj h)
  -- the members stand behind what may follow the name
  let head : Reader := maybe g.typeParameters >=> maybe (keyword "extends" >=> g.typeList)
  obtain ⟨s₄, hhead, hmembers⟩ : ∃ s₄, head s₂ = some s₄ ∧ g.objectType s₄ = some s₃ :=
    ⟨_, rfl, hrest⟩
  exact found_simple .interface (Advances.suffix hword) hname (Advances.suffix hhead)
    (Advances.suffix hmembers) fun _ => length_between hmembers

theorem finds_enumStatement : Finds g.enumStatement := by
  intro s found r h
  simp only [enumStatement, Option.bind_eq_bind, Option.bind_eq_some_iff] at h
  obtain ⟨s₁, hword, ⟨n, s₂⟩, hname, s₃, hmembers, h⟩ := h
  obtain ⟨rfl, rfl⟩ := Prod.mk.inj (Option.some.inj h)
  exact found_simple .enum (Advances.suffix hword) hname (List.suffix_refl s₂)
    (Advances.suffix hmembers) fun _ => length_between hmembers

theorem finds_aliasStatement : Finds g.aliasStatement := by
  intro s found r h
  simp only [aliasStatement, Option.bind_eq_bind, Option.bind_eq_some_iff] at h
  obtain ⟨s₁, hword, ⟨n, s₂⟩, hname, s₃, hrest, h⟩ := h
  obtain ⟨rfl, rfl⟩ := Prod.mk.inj (Option.some.inj h)
  exact found_simple .typeAlias (Advances.suffix hword) hname (List.suffix_refl s₂)
    ((semicolon_suffix _ _ s₃).trans (Advances.suffix hrest)) (by simp [endsWithBrace])

/-! ### Variables -/

/-- A binding has the name that stands where it begins, and goes on behind it. -/
theorem binding_spec {name : Option (List Char)} {valued : Bool}
    (h : g.binding s = some (name, r, valued)) :
    r <:+ s ∧ ∀ n ∈ name, IsName n ∧ ∃ t, n ++ t <:+ s ∧ r <:+ t := by
  simp only [binding, Option.bind_eq_bind, Option.bind_eq_some_iff] at h
  obtain ⟨s₁, hpattern, s₂, hannotation, h⟩ := h
  -- with or without a value, the name is the one that was looked up in front
  obtain ⟨rfl, hr⟩ : (name? s).map Prod.fst = name ∧ r <:+ s₂ := by
    split at h
    · obtain ⟨s₃, hvalue, h⟩ := Option.bind_eq_some_iff.mp h
      obtain ⟨hname, hr⟩ := Prod.mk.inj (Option.some.inj h)
      obtain ⟨rfl, -⟩ := Prod.mk.inj hr
      exact ⟨hname, Advances.suffix hvalue⟩
    · obtain ⟨hname, hr⟩ := Prod.mk.inj (Option.some.inj h)
      obtain ⟨rfl, -⟩ := Prod.mk.inj hr
      exact ⟨hname, List.suffix_refl _⟩
  have h₂ : r <:+ s₁ := hr.trans (Advances.suffix hannotation)
  refine ⟨h₂.trans (Advances.suffix hpattern), fun n hn => ?_⟩
  obtain ⟨⟨m, t⟩, hname, rfl⟩ := Option.map_eq_some_iff.mp hn
  obtain rfl := Regular.binding hname hpattern
  exact ⟨isName_of_name? hname, s₁, name?_suffix hname, h₂⟩

/-- **Bindings.**  By induction on their number: the names of the later ones stand behind the
    comma that follows the first. -/
theorem bindings_spec {k : Nat} {valued : Bool} (h : g.bindings k s = some (ns, r, valued)) :
    (∀ n ∈ ns, IsName n) ∧ ∃ head, s = head ++ r ∧ InOrder ns head := by
  induction k generalizing s r ns valued with
  | zero => exact absurd h (by simp [bindings])
  | succ k ih =>
    simp only [bindings, Option.bind_eq_bind, Option.bind_eq_some_iff] at h
    obtain ⟨⟨name, s₁, b⟩, hbinding, h⟩ := h
    obtain ⟨hs₁, hname⟩ := g.binding_spec hbinding
    -- whatever names follow the binding, its own one stands before them
    have hcons : ∀ (ms : List (List Char)) (head : List Char), (∀ n ∈ ms, IsName n) →
        s₁ = head ++ r → InOrder ms head →
        (∀ n ∈ name.toList ++ ms, IsName n) ∧
          ∃ head', s = head' ++ r ∧ InOrder (name.toList ++ ms) head' := by
      intro ms head hms hhead horder
      cases name with
      | none =>
        obtain ⟨a, rfl⟩ := hs₁
        exact ⟨hms, a ++ head, by simp [hhead], horder.prepend a⟩
      | some n =>
        obtain ⟨hn, t, ⟨a, rfl⟩, ⟨b, rfl⟩⟩ := hname n rfl
        refine ⟨List.forall_mem_cons.mpr ⟨hn, hms⟩, a ++ (n ++ (b ++ head)), by simp [hhead], ?_⟩
        exact .cons a (horder.prepend b)
    have hlast : some (name.toList, s₁, b) = some (ns, r, valued) →
        (∀ n ∈ ns, IsName n) ∧ ∃ head, s = head ++ r ∧ InOrder ns head := by
      intro heq
      obtain ⟨rfl, hr⟩ := Prod.mk.inj (Option.some.inj heq)
      obtain ⟨rfl, -⟩ := Prod.mk.inj hr
      simpa using hcons [] [] (by simp) rfl (.nil [])
    split at h
    · exact hlast h
    · rename_i t hcomma
      split at h
      · rename_i ms r' valued' hrest
        obtain ⟨rfl, hr⟩ := Prod.mk.inj (Option.some.inj h)
        obtain ⟨rfl, -⟩ := Prod.mk.inj hr
        obtain ⟨hms, head, hhead, horder⟩ := ih hrest
        obtain ⟨c, hc⟩ : t <:+ s₁ := Advances.suffix hcomma
        exact hcons ms _ hms (by rw [← hc, hhead, List.append_assoc]) (horder.prepend c)
      · exact hlast h

/-- The names that variables bind are found in their order. -/
theorem finds_variableStatement (exported : Bool) : Finds (g.variableStatement exported) := by
  intro s found r h
  simp only [variableStatement, Option.bind_eq_bind, Option.bind_eq_some_iff] at h
  obtain ⟨s₁, hword, ⟨ns, s₂, valued⟩, hbindings, h⟩ := h
  obtain ⟨rfl, rfl⟩ := Prod.mk.inj (Option.some.inj h)
  obtain ⟨hns, head, hs₁, horder⟩ := g.bindings_spec hbindings
  have hsemicolon := semicolon_suffix valued g.bound s₂
  split
  · have hfound : Found s₁ (ns.map (.simple .exportedConst)) s₂ := by
      refine ⟨⟨?_, ?_, ?_⟩, head, [], hs₁, ⟨?_, ?_⟩, fun hne hbrace => ?_⟩
      · simpa [Finding.simple] using hns
      · simp [Finding.simple]
      · exact List.pairwise_map.mpr (List.pairwise_of_forall fun _ _ => ⟨rfl, rfl⟩)
      · simpa [Finding.simple, Function.comp_def] using horder
      · simp [Finding.simple]
      · -- a constant does not end with a brace
        obtain ⟨f, fs, hf⟩ := List.exists_cons_of_ne_nil hne
        have hmem : f ∈ ns.map (Finding.simple .exportedConst) := hf ▸ List.mem_cons_self
        obtain ⟨n, -, rfl⟩ := List.mem_map.mp hmem
        exact absurd (hbrace _ hmem) (by simp [Finding.simple, endsWithBrace])
    exact (hfound.prepend (Advances.suffix hword)).extend hsemicolon
  · have hs₂ : s₂ <:+ s₁ := ⟨head, hs₁.symm⟩
    exact found_nil ((hsemicolon.trans hs₂).trans (Advances.suffix hword))

/-! ### Declarations and statements -/

theorem finds_functionStatement : Finds g.functionStatement := finds_nothing _

theorem finds_namespaceStatement : Finds g.namespaceStatement := finds_nothing _

theorem finds_importAlias : Finds g.importAlias := finds_nothing _

/-- Whichever declaration comes first is found. -/
theorem finds_plainDeclaration (exported : Bool) (before : List (List Char)) :
    Finds (g.plainDeclaration exported before) := by
  apply finds_eitherFind (g.finds_classStatement before)
  apply finds_eitherFind g.finds_interfaceStatement
  apply finds_eitherFind g.finds_enumStatement
  apply finds_eitherFind g.finds_aliasStatement
  apply finds_eitherFind g.finds_functionStatement
  apply finds_eitherFind (g.finds_variableStatement exported)
  exact finds_eitherFind g.finds_namespaceStatement g.finds_importAlias

/-- So it is behind `declare` and `export`. -/
theorem finds_declaration (exported : Bool) (before : List (List Char)) :
    Finds (g.declaration exported before) := by
  have hplain := g.finds_plainDeclaration exported before
  intro s found r h
  unfold declaration at h
  split at h
  · exact hplain s found r h
  · rename_i commented t hmarked
    obtain ⟨u, hword, hcontinues⟩ := Option.bind_eq_some_iff.mp hmarked
    have ht : t <:+ s := (wordContinues_suffix hcontinues).trans (Advances.suffix hword)
    split at h
    · rename_i found' r' hfound
      obtain ⟨rfl, rfl⟩ := Prod.mk.inj (Option.some.inj h)
      have hglobal : Finds g.globalBlock := finds_nothing _
      have hambient := (finds_eitherFind hplain hglobal t found' r' hfound).prepend ht
      -- a comment behind the marking word hides what is found
      split
      · exact found_nil hambient.suffix
      · exact hambient
    · exact hplain s found r h

/-- What is exported: a declaration, or something in which nothing is found. -/
theorem finds_exportStatement (before : List (List Char)) : Finds (g.exportStatement before) := by
  have hdeclaration := g.finds_declaration true before
  intro s found r h
  simp only [exportStatement, Option.bind_eq_bind, Option.bind_eq_some_iff] at h
  obtain ⟨s₁, hword, h⟩ := h
  have h₁ : s₁ <:+ s := Advances.suffix hword
  split at h
  · rename_i t hdefault
    have hexported := finds_eitherFind hdeclaration (finds_ended g.expression true g.bound)
    exact (hexported t found r h).prepend ((Advances.suffix hdefault).trans h₁)
  · have hexported := finds_eitherFind hdeclaration (finds_ended g.exportClause false g.bound)
    exact (hexported s₁ found r h).prepend h₁

theorem finds_importStatement : Finds g.importStatement := finds_nothing _

/-- A class behind its decorators is found with them. -/
theorem finds_decorated : Finds g.decorated := by
  intro s found r h
  unfold decorated at h
  split at h
  rename_i ds t hdecorators
  have ht : t <:+ s := by
    have hsuffix := g.decorators_suffix g.bound s
    rwa [hdecorators] at hsuffix
  split at h
  · exact absurd h (by simp)
  · have hclass := finds_eitherFind (g.finds_exportStatement (g.decorators g.bound s).1)
      (g.finds_classTail (g.decorators g.bound s).1)
    exact (hclass t found r h).prepend ht

/-- **Statements.**  What is found in a statement is written in it. -/
theorem finds_statementHere : Finds g.statementHere := by
  apply finds_eitherFind (finds_nothing _)
  apply finds_eitherFind (finds_nothing _)
  apply finds_eitherFind g.finds_decorated
  apply finds_eitherFind (g.finds_exportStatement [])
  apply finds_eitherFind (g.finds_declaration false [])
  apply finds_eitherFind g.finds_importStatement
  exact finds_eitherFind (finds_nothing _) (finds_nothing _)

end Scope

/-! ### Nested constructs -/

/-- Where a name stands, it is what is read as a binding. -/
theorem read_pattern_name {d : Dialect} {k : Nat} (hname : name? s = some (n, t))
    (h : read d k .pattern s = some r) : r = t := by
  cases k with
  | zero => exact absurd h (by simp [read])
  | succ k =>
    have hany : anyName s = some t := by simp [anyName, hname]
    simp only [read, Scope.patternHere, either, hany] at h
    exact (Option.some.inj h).symm

/-- **Constructs.**  By induction on how deep they are nested. -/
theorem advances_read (d : Dialect) (k : Nat) (what : Nested) : Advances (read d k what) := by
  induction k generalizing what with
  | zero => exact ⟨fun h => absurd h (by simp [read])⟩
  | succ k ih =>
    -- what is nested one level less makes the scope regular in which this construct is read
    have hregular : Scope.Regular ⟨d, k, read d k⟩ := ⟨ih, read_pattern_name⟩
    refine ⟨fun {s r} h => ?_⟩
    cases what with
    | statement =>
      obtain ⟨⟨found, r'⟩, hstatement, rfl⟩ := Option.map_eq_some_iff.mp h
      exact (Scope.finds_statementHere _ s found r' hstatement).suffix
    | assignment inCondition =>
      exact Advances.suffix (p := Scope.assignmentHere ⟨d, k, read d k⟩ inCondition) h
    | type conditional =>
      exact Advances.suffix (p := Scope.typeHere ⟨d, k, read d k⟩ conditional) h
    | pattern => exact Advances.suffix (p := Scope.patternHere ⟨d, k, read d k⟩) h
    | heritage => exact Advances.suffix (p := Scope.operand ⟨d, k, read d k⟩ fun _ => true) h
    | element => exact Advances.suffix (p := Scope.elementHere ⟨d, k, read d k⟩) h

/-- The scopes in which sources are read are regular. -/
instance regular_top (d : Dialect) (length : Nat) : (Scope.top d length).Regular :=
  ⟨advances_read d _, read_pattern_name⟩

end DeclarationDocs.TypeScript
