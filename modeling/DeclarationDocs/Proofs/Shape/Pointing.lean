import DeclarationDocs.Proofs.Json.Pointing
import DeclarationDocs.Shape

namespace DeclarationDocs

/-!
# The line of a fault

A text that should have a shape is read by the same cursors as one that may be any value, so its
faults are found in it as well.  The text that is read is a strict one; since it has the lines of
the written text, the line of a fault is the line where the written text is to be mended.

* `Shape.Points` — a reader of shapes that stays in the text, and reports its faults there;
* `Shape.inText_of_read` — the faults of whole texts;
* `Json.KeepsLines`, `Json.Position.OnLine` — what the lines of two texts have in common, and
  where a place in one of them is in the other;
* `Json.Relaxed.lines_kept` — making a text strict keeps its lines, and faults are found on them.
-/

open Json (lines Cursor Position Flaw SyntaxFault)

namespace Shape

variable {s : List Char} {c : Cursor} {α β : Type} {behind : α → Cursor} {behind' : β → Cursor}

/-- A result of reading a shape in a text: the cursor `behind` what was read stands there, or else
    the fault does. -/
def Points (s : List Char) (behind : α → Cursor) : Except FaultAt α → Prop :=
  Ends (fun a => (behind a).InText s) fun e => e.position.InText s

theorem Points.bind {x : Except FaultAt α} {f : α → Except FaultAt β} (hx : Points s behind x)
    (hf : ∀ a, (behind a).InText s → Points s behind' (f a)) : Points s behind' (x >>= f) :=
  Ends.bind hx hf

theorem points_ok {a : α} (h : (behind a).InText s) : Points s behind (.ok a) := h

/-- A value of another shape is pointed to at a place in the text. -/
theorem points_mismatchAt (h : c.InText s) (m : Mismatch) :
    Points s behind (.error (mismatchAt c m)) :=
  h.position

/-- A fault of syntax points into the text as before. -/
theorem points_lift {x : Except SyntaxFault α} (h : Json.Points s behind x) :
    Points s behind (lift x) := by
  cases x with
  | error e => exact h
  | ok a => exact h

/-! ### What is not wanted -/

/-- Finding out what stands there points into the text. -/
theorem points_foundAt (x : Char) (h : c.InText s) : Points s Prod.snd (foundAt x c) := by
  unfold foundAt
  split
  · exact points_ok h
  · split
    · exact points_ok h
    · refine (points_lift (Json.points_scalar x h)).bind ?_
      rintro ⟨v, c₁⟩ h₁
      dsimp only at h₁ ⊢
      split
      all_goals exact points_ok h₁

theorem points_wrongType (x : Char) (wanted : String) (h : c.InText s) :
    Points s behind (wrongType x wanted c) :=
  (points_foundAt x h).bind fun _ h₁ => points_mismatchAt h₁ _

/-- The place behind an opened list is in the text. -/
theorem inText_afterList (h : c.InText s) : (afterList c).InText s := by
  unfold afterList
  dsimp only
  split
  · exact h.skipBlanks.next
  · exact h.skipBlanks.next.skipBlanks
  · exact h.skipBlanks

/-- The place behind an opened object is in the text. -/
theorem inText_afterObject (h : c.InText s) : (afterObject c).InText s := by
  unfold afterObject
  dsimp only
  split
  · exact h.skipBlanks.next
  · exact h.skipBlanks

/-- Closing a list points into the text. -/
theorem points_closeList (h : c.InText s) : Points s id (closeList c) := by
  refine (points_lift (Json.points_peek .eofList h)).bind ?_
  rintro ⟨x, c₁⟩ h₁
  dsimp only at h₁ ⊢
  split
  · exact points_ok h₁.next
  · split
    · split
      · exact points_lift (Json.points_faultAfter h₁.next.skipBlanks _)
      · exact points_lift (Json.points_faultAfter h₁.next.skipBlanks _)
    · exact points_lift (Json.points_faultAfter h₁ _)

/-! ### Shapes -/

/-- A literal where a text is wanted. -/
theorem points_readText (x : Char) (wanted : String) (h : c.InText s) :
    Points s Prod.snd
      (if x = '"' then (do let (t, c) ← lift (Json.stringAt c.next); .ok (Datum.text t, c))
      else wrongType x wanted c) := by
  split
  · exact (points_lift (Json.points_stringAt h.next)).bind fun _ h₁ => points_ok h₁
  · exact points_wrongType x _ h

/-- The digits of a number, behind its sign if it has one. -/
theorem points_signedNumber (x : Char) (h : c.InText s) : Json.Points s Prod.snd
    (if x = '-' then Json.numberAt false c.next else Json.numberAt true c) := by
  split
  · exact Json.points_numberAt h.next
  · exact Json.points_numberAt h

mutual

/-- **Shapes.**  By induction on the fuel, one case for each shape. -/
theorem points_readAt (fuel depth : Nat) (shape : Shape) {c : Cursor} (h : c.InText s) :
    Points s Prod.snd (readAt fuel depth shape c) := by
  cases fuel with
  | zero =>
    unfold readAt
    exact points_lift (Json.points_fault h _)
  | succ fuel =>
    unfold readAt
    refine (points_lift (Json.points_peek .eofValue h)).bind ?_
    rintro ⟨x, c₁⟩ h₁
    dsimp only at h₁ ⊢
    cases shape with
    | optional shape =>
      dsimp only
      split
      · exact (points_lift (Json.points_scalar x h₁)).bind fun _ h₂ => points_ok h₂
      · exact (points_readAt fuel depth shape h₁).bind fun _ h₂ => points_ok h₂
    | text => exact points_readText x _ h₁
    | path => exact points_readText x _ h₁
    | natural bits =>
      dsimp only
      split
      · refine (points_lift (points_signedNumber x h₁)).bind ?_
        rintro ⟨n, c₂⟩ h₂
        dsimp only at h₂ ⊢
        split
        · exact points_ok h₂
        · exact points_mismatchAt h₂ _
      · exact points_wrongType x _ h₁
    | list shape =>
      dsimp only
      split
      · split
        · exact points_lift (Json.points_faultAfter h₁ _)
        · exact (points_readItems fuel _ shape true h₁.next).bind fun _ h₂ => points_ok h₂
      · exact points_wrongType x _ h₁
    | record name fields =>
      dsimp only
      split
      · exact points_lift (Json.points_faultAfter h₁ _)
      · split
        · refine (points_readFields fuel _ true fields h₁.next).bind ?_
          rintro ⟨ds, c₂⟩ h₂
          dsimp only at h₂ ⊢
          -- fields that have no default are missed at the end of the array
          split
          · exact points_mismatchAt (inText_afterList h₂) _
          · exact (points_closeList h₂).bind fun _ h₃ => points_ok h₃
        · split
          · refine (points_readMembers fuel _ true fields [] h₁.next).bind ?_
            rintro ⟨found, c₂⟩ h₂
            dsimp only at h₂ ⊢
            split
            · exact points_mismatchAt (inText_afterObject h₂) _
            · exact points_ok h₂.next
          · exact points_wrongType x _ h₁

/-- Reading items points into the text, by induction on the fuel together with values. -/
theorem points_readItems (fuel depth : Nat) (shape : Shape) (first : Bool) {c : Cursor}
    (h : c.InText s) : Points s Prod.snd (readItems fuel depth shape first c) := by
  cases fuel with
  | zero =>
    unfold readItems
    exact points_lift (Json.points_fault h _)
  | succ fuel =>
    unfold readItems
    refine (points_lift (Json.points_hasItem first h)).bind ?_
    rintro ⟨more, c₁⟩ h₁
    dsimp only at h₁ ⊢
    split
    · refine (points_readAt fuel depth shape h₁).bind ?_
      rintro ⟨d, c₂⟩ h₂
      exact (points_readItems fuel depth shape false h₂).bind fun _ h₃ => points_ok h₃
    · exact points_ok h₁.next

theorem points_readFields (fuel depth : Nat) (first : Bool) (fields : List Field) {c : Cursor}
    (h : c.InText s) : Points s Prod.snd (readFields fuel depth first fields c) := by
  cases fuel with
  | zero =>
    unfold readFields
    exact points_lift (Json.points_fault h _)
  | succ fuel =>
    cases fields with
    | nil =>
      unfold readFields
      exact points_ok h
    | cons f fs =>
      unfold readFields
      refine (points_lift (Json.points_hasItem first h)).bind ?_
      rintro ⟨more, c₁⟩ h₁
      dsimp only at h₁ ⊢
      split
      · refine (points_readAt fuel depth f.2.1 h₁).bind ?_
        rintro ⟨d, c₂⟩ h₂
        exact (points_readFields fuel depth false fs h₂).bind fun _ h₃ => points_ok h₃
      · exact points_ok h₁

theorem points_readMembers (fuel depth : Nat) (first : Bool) (fields : List Field)
    (found : List (String × Datum)) {c : Cursor} (h : c.InText s) :
    Points s Prod.snd (readMembers fuel depth first fields found c) := by
  cases fuel with
  | zero =>
    unfold readMembers
    exact points_lift (Json.points_fault h _)
  | succ fuel =>
    unfold readMembers
    refine (points_lift (Json.points_hasMember first h)).bind ?_
    rintro ⟨more, c₁⟩ h₁
    dsimp only at h₁ ⊢
    split
    · refine (points_lift (Json.points_stringAt h₁.next)).bind ?_
      rintro ⟨key, c₂⟩ h₂
      dsimp only at h₂ ⊢
      split
      · refine (points_lift (Json.points_colon h₂)).bind fun c₃ h₃ => ?_
        refine (points_lift (Json.points_skipValue _ h₃)).bind fun c₄ h₄ => ?_
        exact points_readMembers fuel depth false fields found h₄
      · split
        · exact points_mismatchAt (inText_afterObject h₂) _
        · refine (points_lift (Json.points_colon h₂)).bind fun c₃ h₃ => ?_
          refine (points_readAt fuel depth _ h₃).bind ?_
          rintro ⟨d, c₄⟩ h₄
          exact points_readMembers fuel depth false fields _ h₄
    · exact points_ok h₁

end

/-- **Whole texts.**  The fault of a text that does not have its shape is found in it. -/
theorem inText_of_read {shape : Shape} {e : FaultAt} (h : shape.read s = .error e) :
    e.position.InText s := by
  have hread : Ends (fun _ => True) (fun e => e.position.InText s) (shape.read s) := by
    refine Ends.bind (points_readAt _ _ shape (Cursor.inText_start s)) ?_
    rintro ⟨d, c⟩ hc
    have hfinish : Ends (fun _ => True) (fun e : FaultAt => e.position.InText s)
        (lift (Json.finish c)) := by
      have hplain := Json.ends_finish hc
      cases hend : Json.finish c with
      | error e => rwa [hend] at hplain
      | ok _ => trivial
    exact Ends.bind hfinish fun _ _ => trivial
  rwa [h] at hread

end Shape

/-! ### Written texts and strict ones -/

namespace Json

/-- `t` has as many line breaks as `s`, and every line of it is a part of the same line of `s`. -/
def KeepsLines (t s : List Char) : Prop :=
  t.count '\n' = s.count '\n' ∧ List.Forall₂ List.Sublist (lines t) (lines s)

/-- A text that is thinned out line by line keeps the number of its lines. -/
theorem Thins.keepsLines {t s : List Char} (h : Thins t s) : KeepsLines t s :=
  ⟨h.count_eq, h.forall₂_lines⟩

/-- A place in the text `t`, the line of which is a part of the same line of `s`. -/
def Position.OnLine (t s : List Char) (p : Position) : Prop :=
  ∃ l l', 0 < p.line ∧ (lines t)[p.line - 1]? = some l ∧ p.column ≤ Text.byteLength l ∧
    (lines s)[p.line - 1]? = some l' ∧ l.Sublist l'

/-- A place in the thinned text is on a line of the whole one. -/
theorem Position.InText.onLine {t s : List Char} {p : Position} (hp : p.InText t)
    (h : KeepsLines t s) : p.OnLine t s := by
  obtain ⟨l, hpos, hl, hcolumn⟩ := hp
  obtain ⟨hlength, hget⟩ := List.forall₂_iff_get.mp h.2
  obtain ⟨hi, rfl⟩ := List.getElem?_eq_some_iff.mp hl
  have hi' : p.line - 1 < (lines s).length := hlength ▸ hi
  exact ⟨_, _, hpos, hl, hcolumn, List.getElem?_eq_getElem hi', hget _ hi hi'⟩

open Relaxed (stripComments dropTrailingCommas strict)

/-- **Lines.**  `stripComments`, `dropTrailingCommas` and both after each other leave a text as
    many line breaks as it is written with, and every line is a part of the same written line
    (`KeepsLines`).  A fault of the `strict` text, be it read as any value or as one of some
    `shape`, is found `OnLine` of it, and so on the written line with the same number. -/
theorem Relaxed.lines_kept (t : List Char) :
    KeepsLines (stripComments t) t ∧ KeepsLines (dropTrailingCommas t) t ∧
      KeepsLines (dropTrailingCommas (stripComments t)) t ∧
      (∀ e, Relaxed.parse t = .error e → e.position.OnLine (strict t) t) ∧
      ∀ (shape : Shape) e, shape.read (strict t) = .error e → e.position.OnLine (strict t) t := by
  have hstrict : KeepsLines (strict t) t := (thins_strict t).keepsLines
  refine ⟨(thins_stripComments t).keepsLines, (thins_dropTrailingCommas t).keepsLines, hstrict,
    ?_, ?_⟩
  · intro e he
    exact (inText_of_parse he).onLine hstrict
  · intro shape e he
    exact (Shape.inText_of_read he).onLine hstrict

example : Relaxed.parse "/* one\ntwo */ [1,\n 2 3]".toList =
    .error ⟨.expectedListCommaOrEnd, ⟨3, 4⟩⟩ := by
  rfl

end Json

end DeclarationDocs
