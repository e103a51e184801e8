import DeclarationDocs.Proofs.Lookup
import DeclarationDocs.Settings.Setting

namespace DeclarationDocs.Setting

/-!
# Layers over layers

A layer is a table of sections, and a section is a table of plain values.  When one layer goes over
another, sections are merged and plain values replaced: so a key of a section has the value of the
upper layer if that has one, and else the value of the lower layer.

* `lookup_mergeMembers` — what a key of a merged table has;
* `at?` — the value of a key of a section;
* `Keyed` — a layer in which no key occurs twice; `Keyed.merge`;
* `at?_merge` — key by key.
-/

/-- The members of a table; other values have none. -/
def members : Setting → List (String × Setting)
  | table _ ms => ms
  | _ => []

/-- A table. -/
def IsTable (v : Setting) : Prop := ∃ o ms, v = table o ms

/-- A value over one that may be there. -/
def mergeOver (old? : Option Setting) (new : Setting) : Setting :=
  old?.elim new fun old => old.merge new

section Members

variable {old new r : List (String × Setting)} {k : String} {v w : Setting}

/-- A new key is put behind the others. -/
theorem mergeMembers_cons_of_none (h : old.lookup k = none) :
    mergeMembers old ((k, v) :: r) = mergeMembers (old ++ [(k, v)]) r := by
  rw [mergeMembers, h]

/-- Where a key is already there, the two settings are merged in its place. -/
theorem mergeMembers_cons_of_some (h : old.lookup k = some w) :
    mergeMembers old ((k, v) :: r) =
      mergeMembers (old.map fun m => if m.1 == k then (k, w.merge v) else m) r := by
  rw [mergeMembers, h]

/-- **Merged members.**  By induction on the new ones, each of which changes what its own key has
    and is not met again. -/
theorem lookup_mergeMembers (h : DistinctKeys new) (k : String) :
    (mergeMembers old new).lookup k =
      ((new.lookup k).map (mergeOver (old.lookup k))).or (old.lookup k) := by
  induction new generalizing old with
  | nil => rw [mergeMembers]; rfl
  | cons m r ih =>
    obtain ⟨j, v⟩ := m
    obtain ⟨hj, hr⟩ := List.nodup_cons.mp h
    have hj : r.lookup j = none := lookup_eq_none_iff_notMem_keys.mpr hj
    -- one step gives the key `j` its value, and leaves every other key what it has
    have hstep : ∃ merged, mergeMembers old ((j, v) :: r) = mergeMembers merged r ∧
        merged.lookup j = some (mergeOver (old.lookup j) v) ∧
        ∀ k, k ≠ j → merged.lookup k = old.lookup k := by
      cases hold : old.lookup j with
      | none =>
        refine ⟨_, mergeMembers_cons_of_none hold, ?_, fun k hk => ?_⟩
        · rw [List.lookup_append, hold, Option.none_or, List.lookup_cons_self]
          rfl
        · rw [List.lookup_append, lookup_cons_of_ne hk, List.lookup_nil, Option.or_none]
      | some w =>
        refine ⟨_, mergeMembers_cons_of_some hold, ?_, fun k hk => ?_⟩
        · rw [lookup_replaced, if_pos rfl, hold]
          rfl
        · rw [lookup_replaced, if_neg hk]
    obtain ⟨merged, hmerged, hself, hother⟩ := hstep
    rw [hmerged, ih hr]
    by_cases hk : k = j
    · subst hk
      rw [hj, hself, List.lookup_cons_self]
      rfl
    · rw [hother k hk, lookup_cons_of_ne hk]

/-- Merging keeps the keys distinct. -/
theorem distinctKeys_mergeMembers (h : DistinctKeys old) : DistinctKeys (mergeMembers old new) := by
  induction new generalizing old with
  | nil =>
    rw [mergeMembers]
    exact h
  | cons m r ih =>
    obtain ⟨j, v⟩ := m
    cases hold : old.lookup j with
    | none =>
      rw [mergeMembers_cons_of_none hold]
      exact ih (h.concat hold v)
    | some w =>
      rw [mergeMembers_cons_of_some hold]
      exact ih (distinctKeys_replaced h j _)

end Members

section Values

variable {old new : Setting}

/-- A value that is no table takes the place of what is there. -/
theorem merge_of_not_isTable (h : ¬ new.IsTable) : old.merge new = new := by
  cases new with
  | table o ms => exact absurd ⟨o, ms, rfl⟩ h
  | scalar o x => cases old <;> rfl
  | list o vs => cases old <;> rfl

/-- What is no table is replaced. -/
theorem merge_of_old_not_isTable (h : ¬ old.IsTable) : old.merge new = new := by
  cases old with
  | table o ms => exact absurd ⟨o, ms, rfl⟩ h
  | scalar o x => cases new <;> rfl
  | list o vs => cases new <;> rfl

/-- What is no table replaces whatever was there. -/
theorem mergeOver_of_not_isTable (h : ¬ new.IsTable) (old? : Option Setting) :
    mergeOver old? new = new := by
  cases old? with
  | none => rfl
  | some old => exact merge_of_not_isTable h

/-- Two tables are merged member by member. -/
theorem members_merge (hold : old.IsTable) (hnew : new.IsTable) :
    (old.merge new).members = mergeMembers old.members new.members := by
  obtain ⟨o, a, rfl⟩ := hold
  obtain ⟨o', b, rfl⟩ := hnew
  rfl

/-- A table over anything is a table. -/
theorem isTable_mergeOver (hnew : new.IsTable) (old? : Option Setting) :
    (mergeOver old? new).IsTable := by
  obtain ⟨o', b, rfl⟩ := hnew
  rcases old? with - | (_ | _ | _) <;> exact ⟨_, _, rfl⟩

/-- Distinct keys over distinct keys stay distinct. -/
theorem distinctKeys_mergeOver {old? : Option Setting}
    (hold : ∀ old, old? = some old → DistinctKeys old.members) (hnew : DistinctKeys new.members) :
    DistinctKeys (mergeOver old? new).members := by
  cases old? with
  | none => exact hnew
  | some old =>
    show DistinctKeys (old.merge new).members
    by_cases hn : new.IsTable
    · by_cases ho : old.IsTable
      · rw [members_merge ho hn]
        exact distinctKeys_mergeMembers (hold old rfl)
      · rw [merge_of_old_not_isTable ho]
        exact hnew
    · rw [merge_of_not_isTable hn]
      exact hnew

end Values

/-! ### Layers -/

/-- The value of a key of a section. -/
def at? (v : Setting) (sectionName key : String) : Option Setting :=
  (v.members.lookup sectionName).bind fun w => w.members.lookup key

/-- A table of which no key occurs twice, and neither does one of a table in it. -/
structure Keyed (v : Setting) : Prop where
  isTable : v.IsTable
  keys : DistinctKeys v.members
  below : ∀ k w, v.members.lookup k = some w → DistinctKeys w.members

section Layers

variable {old new w : Setting} {a k : String}

/-- A key is looked up in the newer table, over what the older one has, and else in the older one.
    -/
theorem lookup_merge (hold : old.IsTable) (hnew : new.Keyed) (k : String) :
    (old.merge new).members.lookup k =
      ((new.members.lookup k).map (mergeOver (old.members.lookup k))).or (old.members.lookup k) := by
  rw [members_merge hold hnew.isTable, lookup_mergeMembers hnew.keys]

/-- Merging keeps every key once. -/
theorem Keyed.merge (hold : old.Keyed) (hnew : new.Keyed) : (old.merge new).Keyed where
  isTable := isTable_mergeOver hnew.isTable (some old)
  keys := by
    rw [members_merge hold.isTable hnew.isTable]
    exact distinctKeys_mergeMembers hold.keys
  below := by
    intro k w hw
    rw [lookup_merge hold.isTable hnew] at hw
    cases hk : new.members.lookup k with
    | none =>
      rw [hk] at hw
      exact hold.below k w hw
    | some v =>
      rw [hk] at hw
      obtain rfl := Option.some.inj hw
      exact distinctKeys_mergeOver (hold.below k) (hnew.below k v hk)

/-- **Key by key.**  If the section is a table wherever it is there, and the key has a plain value
    in the upper layer if it has one, then the upper layer counts if it has the key, and else the
    lower one. -/
theorem at?_merge (hold : old.IsTable) (hnew : new.Keyed)
    (hsection : ∀ w, old.members.lookup a = some w → w.IsTable)
    (hsection' : ∀ w, new.members.lookup a = some w → w.IsTable)
    (hplain : ∀ w, new.at? a k = some w → ¬ w.IsTable) :
    (old.merge new).at? a k = (new.at? a k).or (old.at? a k) := by
  unfold at? at hplain ⊢
  rw [lookup_merge hold hnew]
  cases ha' : new.members.lookup a with
  | none => rfl
  | some s' =>
    rw [ha'] at hplain
    cases ha : old.members.lookup a with
    | none =>
      show s'.members.lookup k = (s'.members.lookup k).or none
      rw [Option.or_none]
    | some s =>
      show (s.merge s').members.lookup k = (s'.members.lookup k).or (s.members.lookup k)
      rw [members_merge (hsection s ha) (hsection' s' ha'), lookup_mergeMembers (hnew.below a s' ha')]
      cases hk : s'.members.lookup k with
      | none => rfl
      | some w =>
        show some (mergeOver (s.members.lookup k) w) = some w
        rw [mergeOver_of_not_isTable (hplain w hk)]

/-- A section of a merged layer is a table, if it is one wherever it is there. -/
theorem isTable_section_merge (hold : old.IsTable) (hnew : new.Keyed)
    (hsection : ∀ w, old.members.lookup a = some w → w.IsTable)
    (hsection' : ∀ w, new.members.lookup a = some w → w.IsTable) :
    ∀ w, (old.merge new).members.lookup a = some w → w.IsTable := by
  intro w hw
  rw [lookup_merge hold hnew] at hw
  cases ha' : new.members.lookup a with
  | none =>
    rw [ha'] at hw
    exact hsection w hw
  | some s' =>
    rw [ha'] at hw
    obtain rfl := Option.some.inj hw
    exact isTable_mergeOver (hsection' s' ha') _

end Layers

end DeclarationDocs.Setting
