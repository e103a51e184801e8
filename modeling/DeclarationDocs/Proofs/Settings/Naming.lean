import DeclarationDocs.Proofs.Characters
import DeclarationDocs.Proofs.Path.Segments
import DeclarationDocs.Proofs.Settings.Merging
import DeclarationDocs.Settings.Variable

namespace DeclarationDocs.Setting

open Text

/-!
# Variables as layers

A variable of the environment is a layer of its own, which sets the one key that its name stands
for: the name up to its first underscore is the section, and the rest is the key in it.

* `keysOf?_name` — the section and the key in a name;
* `variableLayer?` — the layer of a variable; `keyed_variableLayer`, `at?_nest`;
* `ofVariables_eq_foldl` — an environment is its variables, one over the other.
-/

/-! ### Names -/

/-- Small letters are white space just when their capitals are. -/
theorem isWhiteSpace_toLower (c : Char) : isWhiteSpace c.toLower = isWhiteSpace c := by
  unfold isWhiteSpace
  simp only [toNat_toLower]
  split
  · rename_i hletter
    rw [Bool.eq_iff_iff]
    simp only [Bool.or_eq_true, Bool.and_eq_true, decide_eq_true_eq, beq_iff_eq]
    omega
  · rfl

/-- A text without white space is left as it is. -/
theorem trimChars_of_forall {s : List Char} (h : ∀ c ∈ s, isWhiteSpace c = false) :
    trimChars s = s := by
  have hdrop (s : List Char) (h : ∀ c ∈ s, isWhiteSpace c = false) :
      s.dropWhile isWhiteSpace = s := by
    cases s with
    | nil => rfl
    | cons c s => rw [List.dropWhile_cons_of_neg (by simp [h c])]
  unfold trimChars trimEndChars dropEndWhile
  rw [hdrop s h, hdrop s.reverse fun c hc => h c (List.mem_reverse.mp hc), List.reverse_reverse]

/-- A part of a name: it is not empty, and has neither dots nor white space. -/
structure NamePart (s : List Char) : Prop where
  ne_nil : s ≠ []
  dots : '.' ∉ s
  spaces : ∀ c ∈ s, isWhiteSpace c = false

/-- A part of a name is one in small letters. -/
theorem NamePart.lower {s : List Char} (h : NamePart s) : NamePart (lowerAscii s) where
  ne_nil hnil := h.ne_nil (List.map_eq_nil_iff.mp hnil)
  dots := notMem_lowerAscii (by decide) h.dots
  spaces := by
    intro c hc
    obtain ⟨c', hc', rfl⟩ := List.mem_map.mp hc
    rw [isWhiteSpace_toLower]
    exact h.spaces c' hc'

/-- Two parts of a name with a separator between them. -/
theorem NamePart.spaces_append {a b : List Char} {sep : Char} (ha : NamePart a)
    (hsep : isWhiteSpace sep = false) (hb : NamePart b) :
    ∀ c ∈ a ++ sep :: b, isWhiteSpace c = false := by
  intro c hc
  rcases List.mem_append.mp hc with hc | hc
  · exact ha.spaces c hc
  · rcases List.mem_cons.mp hc with rfl | hc
    · exact hsep
    · exact hb.spaces c hc

/-- Keys are divided at their dots, of which parts of a name have none. -/
theorem NamePart.splitAt_dot {a b : List Char} (ha : NamePart a) (hb : NamePart b) :
    splitAt '.' (trimChars (a ++ '.' :: b)) = [a, b] := by
  rw [trimChars_of_forall (ha.spaces_append (by decide) hb), splitAt_append_cons,
    splitAt_of_not_mem ha.dots, splitAt_of_not_mem hb.dots]
  rfl

/-- **The name of a variable** is divided at its first underscore behind the prefix. -/
theorem keysOf?_name {a b : List Char} (ha : NamePart a) (hunderscore : '_' ∉ a) (hb : NamePart b) :
    keysOf? (String.ofList (variablePrefix.toList ++ (a ++ '_' :: b))) =
      some [String.ofList (lowerAscii a), String.ofList (lowerAscii b)] := by
  have htrim : trimChars (variablePrefix.toList ++ (a ++ '_' :: b)) =
      variablePrefix.toList ++ (a ++ '_' :: b) := by
    refine trimChars_of_forall fun c hc => ?_
    rcases List.mem_append.mp hc with hc | hc
    · have hprefix : variablePrefix.toList.all (!isWhiteSpace ·) = true := by decide
      simpa using List.all_eq_true.mp hprefix c hc
    · exact ha.spaces_append (by decide) hb c hc
  have hlower : lowerAscii (variablePrefix.toList ++ (a ++ '_' :: b)) =
      lowerAscii variablePrefix.toList ++ (lowerAscii a ++ '_' :: lowerAscii b) := by
    unfold lowerAscii
    rw [List.map_append, List.map_append, List.map_cons]
    rfl
  -- the head of the rest is what comes before the first underscore
  have hhead : (lowerAscii a ++ '_' :: lowerAscii b).takeWhile (· != '_') = lowerAscii a := by
    rw [List.takeWhile_append_of_pos, List.takeWhile_cons_of_neg (by decide), List.append_nil]
    rintro c hc
    rw [bne_iff_ne]
    rintro rfl
    exact notMem_lowerAscii (by decide) hunderscore hc
  have hlength : (lowerAscii a).length < (lowerAscii a ++ '_' :: lowerAscii b).length := by
    rw [List.length_append, List.length_cons]
    omega
  have hdrop : (lowerAscii a ++ '_' :: lowerAscii b).drop ((lowerAscii a).length + 1) =
      lowerAscii b := by
    rw [List.drop_append, List.drop_eq_nil_of_le (by omega)]
    simp
  have hnonempty : ([lowerAscii a, lowerAscii b].any List.isEmpty) = false := by
    simp [ha.lower.ne_nil, hb.lower.ne_nil]
  unfold keysOf?
  simp only [String.toList_ofList, htrim, hlower, List.drop_left, hhead, hlength, if_true, hdrop,
    ha.lower.splitAt_dot hb.lower, hnonempty]
  rw [if_pos (List.isPrefixOf_iff_prefix.mpr (List.prefix_append _ _))]
  rfl

/-! ### Values -/

/-- Of the pairs in braces each key counts once. -/
theorem distinctKeys_pairsAt {n : Nat} {s r : List Char} {ms : List (String × Setting)}
    (h : pairsAt n s = some (ms, r)) : DistinctKeys ms := by
  induction n generalizing s r ms with
  | zero => simp [pairsAt] at h
  | succ n ih =>
    unfold pairsAt at h
    split at h
    · cases h
    · obtain ⟨rfl, -⟩ := Prod.mk.inj (Option.some.inj h)
      exact distinctKeys_nil
    · rename_i hn _
      obtain rfl := Nat.succ.inj hn
      obtain ⟨⟨k, r'⟩, -, h⟩ := Option.bind_eq_some_iff.mp h
      simp only at h
      split at h
      · obtain ⟨⟨v, r'⟩, -, h⟩ := Option.bind_eq_some_iff.mp h
        simp only at h
        split at h
        · obtain ⟨⟨ms', r'⟩, hpairs, h⟩ := Option.bind_eq_some_iff.mp h
          obtain ⟨rfl, -⟩ := Prod.mk.inj (Option.some.inj h)
          split
          · exact ih hpairs
          · rename_i hnew
            exact (ih hpairs).cons (Option.not_isSome_iff_eq_none.mp hnew) v
        · obtain ⟨rfl, -⟩ := Prod.mk.inj (Option.some.inj h)
          exact distinctKeys_nil.cons rfl v
        · cases h
      · cases h

/-- A plain value has no keys. -/
theorem distinctKeys_bare (s : List Char) : DistinctKeys (bare s).members := by
  unfold bare
  split
  · exact distinctKeys_nil
  split
  · exact distinctKeys_nil
  split
  · exact distinctKeys_nil
  · exact distinctKeys_nil

/-- The value of a variable has distinct keys, also where it is written as a table. -/
theorem distinctKeys_valueAt {n : Nat} {s r : List Char} {v : Setting}
    (h : valueAt n s = some (v, r)) : DistinctKeys v.members := by
  cases n with
  | zero => simp [valueAt] at h
  | succ n =>
    unfold valueAt at h
    simp only at h
    split at h
    · obtain ⟨rfl, -⟩ := Prod.mk.inj (Option.some.inj h)
      exact distinctKeys_nil
    · obtain ⟨rfl, -⟩ := Prod.mk.inj (Option.some.inj h)
      exact distinctKeys_nil
    · obtain ⟨⟨vs, r'⟩, -, h⟩ := Option.bind_eq_some_iff.mp h
      obtain ⟨rfl, -⟩ := Prod.mk.inj (Option.some.inj h)
      exact distinctKeys_nil
    · obtain ⟨⟨ms, r'⟩, hpairs, h⟩ := Option.bind_eq_some_iff.mp h
      obtain ⟨rfl, -⟩ := Prod.mk.inj (Option.some.inj h)
      exact distinctKeys_pairsAt hpairs
    · obtain ⟨_, hquoted, h⟩ := Option.bind_eq_some_iff.mp h
      obtain ⟨_, -, rfl⟩ := Option.map_eq_some_iff.mp hquoted
      obtain ⟨rfl, -⟩ := Prod.mk.inj (Option.some.inj h)
      exact distinctKeys_nil
    · obtain ⟨_, hquoted, h⟩ := Option.bind_eq_some_iff.mp h
      obtain ⟨_, -, rfl⟩ := Option.map_eq_some_iff.mp hquoted
      obtain ⟨rfl, -⟩ := Prod.mk.inj (Option.some.inj h)
      exact distinctKeys_nil
    · obtain ⟨rfl, -⟩ := Prod.mk.inj (Option.some.inj h)
      exact distinctKeys_bare _

/-- So has the value of any text. -/
theorem distinctKeys_ofVariableText (s : String) : DistinctKeys (ofVariableText s).members := by
  unfold ofVariableText
  simp only
  split
  · rename_i hvalue
    exact distinctKeys_valueAt hvalue
  · exact distinctKeys_nil

/-! ### Layers -/

/-- A variable that counts names at least one key. -/
theorem keysOf?_ne_nil {name : String} {keys : List String} (h : keysOf? name = some keys) :
    keys ≠ [] := by
  unfold keysOf? at h
  simp only [Option.ite_none_right_eq_some, Option.ite_none_left_eq_some, Option.some.injEq] at h
  obtain ⟨-, -, rfl⟩ := h
  intro hnil
  exact splitAt_ne_nil _ _ (List.map_eq_nil_iff.mp hnil)

/-- A value below keys is a layer. -/
theorem keyed_nest {keys : List String} (hkeys : keys ≠ []) {v : Setting}
    (hv : DistinctKeys v.members) : (nest keys v).Keyed := by
  cases keys with
  | nil => exact absurd rfl hkeys
  | cons k ks =>
    refine ⟨⟨_, _, rfl⟩, distinctKeys_nil.cons rfl _, fun k' w hw => ?_⟩
    have hw : (k', w) ∈ [(k, nest ks v)] := mem_of_lookup hw
    obtain ⟨rfl, rfl⟩ := Prod.mk.inj (List.mem_singleton.mp hw)
    cases ks with
    | nil => exact hv
    | cons k ks => exact distinctKeys_nil.cons rfl _

/-- What stands below a section and a key is the value of that key, and of no other. -/
theorem at?_nest (a k a' k' : String) (v : Setting) :
    (nest [a, k] v).at? a' k' = if a' = a ∧ k' = k then some v else none := by
  show ([(a, nest [k] v)].lookup a').bind (fun w => w.members.lookup k') = _
  by_cases ha : a' = a
  · subst ha
    rw [List.lookup_cons_self]
    show [(k, v)].lookup k' = _
    by_cases hk : k' = k
    · subst hk
      rw [List.lookup_cons_self, if_pos ⟨rfl, rfl⟩]
    · rw [lookup_cons_of_ne hk, if_neg fun h => hk h.2]
      rfl
  · rw [lookup_cons_of_ne ha, if_neg fun h => ha h.1]
    rfl

/-- The layer that a variable is, if its name is one of those that matter. -/
def variableLayer? (x : String × String) : Option Setting :=
  (keysOf? x.1).map fun keys => nest keys (ofVariableText x.2)

/-- The layer of a variable is a table with distinct keys. -/
theorem keyed_variableLayer {x : String × String} {v : Setting} (h : variableLayer? x = some v) :
    v.Keyed := by
  obtain ⟨keys, hkeys, rfl⟩ := Option.map_eq_some_iff.mp h
  exact keyed_nest (keysOf?_ne_nil hkeys) (distinctKeys_ofVariableText x.2)

/-- **An environment** is its variables, one over the other. -/
theorem ofVariables_eq_foldl (vs : Variables) :
    ofVariables vs = (vs.filterMap variableLayer?).foldl merge (.table .environment []) := by
  unfold ofVariables
  generalize table .environment [] = base
  induction vs generalizing base with
  | nil => rfl
  | cons x vs ih =>
    rw [List.foldl_cons, ih, List.filterMap_cons]
    unfold variableLayer?
    cases keysOf? x.1 <;> rfl

end DeclarationDocs.Setting
