/-!
# Searching and replacing

Whole-text operations on lists of characters: replacement of every occurrence, splitting at a
character, ASCII capitals made small.
-/

namespace DeclarationDocs.Text

/-- Replace the occurrences of `old`, found from left to right without overlap, by `new`; `skip`
characters of an occurrence that was already replaced are still to be dropped. -/
def replaceFrom (old new : List Char) : Nat → List Char → List Char
  | _, [] => []
  | k + 1, _ :: r => replaceFrom old new k r
  | 0, c :: r =>
    if old.isPrefixOf (c :: r) then new ++ replaceFrom old new (old.length - 1) r
    else c :: replaceFrom old new 0 r

/-- Replace every occurrence of the non-empty text `old` by `new`. -/
def replaceAll (s old new : String) : String :=
  if old.isEmpty then s else String.ofList (replaceFrom old.toList new.toList 0 s.toList)

/-- Split at every `sep`; the pieces do not contain it, and there is always one piece. -/
def splitAt (sep : Char) : List Char → List (List Char)
  | [] => [[]]
  | c :: r =>
    if c = sep then [] :: splitAt sep r
    else match splitAt sep r with
      | [] => [[c]]
      | p :: ps => (c :: p) :: ps

/-- The characters with every ASCII capital replaced by its small letter. -/
def lowerAscii (s : List Char) : List Char :=
  s.map Char.toLower

/-- A small letter stands 32 places behind its capital. -/
theorem toNat_toLower (c : Char) :
    c.toLower.toNat = if 65 ≤ c.toNat ∧ c.toNat ≤ 90 then c.toNat + 32 else c.toNat := by
  have hbounds : (c.val ≥ 'A'.val ∧ c.val ≤ 'Z'.val) ↔ 65 ≤ c.toNat ∧ c.toNat ≤ 90 := by
    rw [ge_iff_le, UInt32.le_iff_toNat_le, UInt32.le_iff_toNat_le]
    rfl
  unfold Char.toLower
  split
  · rename_i h
    have hle : c.val.toNat ≤ 90 := (hbounds.mp h).2
    rw [if_pos (hbounds.mp h)]
    show (c.val.toNat + 32) % 2 ^ 32 = c.val.toNat + 32
    omega
  · rename_i h
    rw [if_neg fun h' => h (hbounds.mpr h')]

/-- What `toLower` makes is left alone by it. -/
theorem toLower_toLower (c : Char) : c.toLower.toLower = c.toLower := by
  have houter := toNat_toLower c.toLower
  have hinner := toNat_toLower c
  refine Char.toNat_inj.mp ?_
  split at hinner <;> split at houter <;> omega

/-- Small letters stay small. -/
theorem lowerAscii_lowerAscii (s : List Char) : lowerAscii (lowerAscii s) = lowerAscii s := by
  rw [lowerAscii, lowerAscii, List.map_map]
  exact List.map_congr_left fun c _ => toLower_toLower c

end DeclarationDocs.Text
