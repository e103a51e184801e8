import DeclarationDocs.Proofs.Generator

namespace DeclarationDocs

/-!
# Generators that cannot be told apart

Two backends may differ in what they do to their states and still answer alike.  Then whoever uses
them through a generator cannot tell one from the other, as long as the states they are in are
related.

* `ResultAlike`, `Outcome.Alike` — operations that come to the same, up to a relation of states;
* `Backend.Alike`, `Generator.Alike` — backends and generators that do so whatever is asked of them;
* `Generator.Alike.makeReady`, `Generator.Alike.generate` — one use of a generator.
-/

variable {σ α β : Type} {R : σ → σ → Prop}

/-! ### Operations -/

/-- Two results of which both are the same failure, or both are values that are related. -/
inductive ResultAlike (S : α → α → Prop) : Except Failure α → Except Failure α → Prop where
  | failed (e : Failure) : ResultAlike S (.error e) (.error e)
  | done {a a' : α} (h : S a a') : ResultAlike S (.ok a) (.ok a')

/-- Results are alike for equality only if they are the same. -/
theorem ResultAlike.eq {r r' : Except Failure α} (h : ResultAlike Eq r r') : r = r' := by
  cases h with
  | failed e => rfl
  | done h => rw [h]

theorem ResultAlike.refl (r : Except Failure α) : ResultAlike Eq r r := by
  cases r with
  | error e => exact .failed e
  | ok a => exact .done rfl

theorem ResultAlike.mono {S T : α → α → Prop} {r r' : Except Failure α} (h : ResultAlike S r r')
    (hST : ∀ a a', S a a' → T a a') : ResultAlike T r r' := by
  cases h with
  | failed e => exact .failed e
  | done h => exact .done (hST _ _ h)

/-- What is made of related values in related ways is related. -/
theorem ResultAlike.map {S : α → α → Prop} {T : β → β → Prop} {r r' : Except Failure α}
    {f f' : α → β} (h : ResultAlike S r r') (hf : ∀ a a', S a a' → T (f a) (f' a')) :
    ResultAlike T (r.map f) (r'.map f') := by
  cases h with
  | failed e => exact .failed e
  | done h => exact .done (hf _ _ h)

/-- Two operations that come to the same: related results, related states and the same warnings. -/
structure Outcome.Alike (R : σ → σ → Prop) (S : α → α → Prop) (o o' : Outcome σ α) : Prop where
  result : ResultAlike S o.result o'.result
  state : R o.state o'.state
  warnings : o.warnings = o'.warnings

/-! ### Backends and generators -/

/-- Two backends that answer alike in related states, and leave related states. -/
structure Backend.Alike (R : σ → σ → Prop) (b b' : Backend σ) : Prop where
  name : b.name = b'.name
  model : b.model = b'.model
  checkHealth : ∀ s s', R s s' → (b.checkHealth s).Alike R Eq (b'.checkHealth s')
  generate : ∀ prompt s s', R s s' →
    (b.generate prompt s).Alike R Eq (b'.generate prompt s')

/-- Two backends that were made with the same warnings and answer alike. -/
def MadeAlike (R : σ → σ → Prop) (made made' : Backend σ × List Warning) : Prop :=
  made.1.Alike R made'.1 ∧ made.2 = made'.2

namespace Generator

/-- Two generators whose backends answer alike, and which have made as many attempts. -/
structure Alike (R : σ → σ → Prop) (i i' : Generator σ) : Prop where
  make : ∀ n, ResultAlike (MadeAlike R) (i.make n) (i'.make n)
  attempts : i.attempts = i'.attempts
  backend? : Option.Rel (Backend.Alike R) i.backend? i'.backend?

variable {i i' : Generator σ} {b b' : Backend σ} {s s' : σ}

/-- Generators are alike before they are used if all that they make is. -/
theorem alike_ofFactory {make make' : Nat → Except Failure (Backend σ × List Warning)}
    (h : ∀ n, ResultAlike (MadeAlike R) (make n) (make' n)) :
    (ofFactory make).Alike R (ofFactory make') :=
  ⟨h, rfl, .none⟩

/-- What is said of a first look at a backend is its name and what the look came to. -/
theorem healthWarnings_congr (h : b.name = b'.name) (r : Except Failure Bool) :
    healthWarnings b r = healthWarnings b' r := by
  unfold healthWarnings
  rw [h]

/-- **Asking for the backend.**  Both generators have one by then, or both have none. -/
theorem Alike.handle (h : i.Alike R i') (hs : R s s') :
    (i.handle s).1.Alike R (i'.handle s').1 ∧
      (i.handle s).2.Alike R (Backend.Alike R) (i'.handle s').2 := by
  have hrel := h.backend?
  generalize hb : i.backend? = found, hb' : i'.backend? = found' at hrel
  cases hrel with
  | some halike =>
    rw [handle_of_some hb, handle_of_some hb']
    exact ⟨h, .done halike, hs, rfl⟩
  | none =>
    -- both make a backend at the same attempt, and look at it once
    have hmake := h.make i.attempts
    unfold Generator.handle
    simp only [hb, hb', ← h.attempts]
    generalize i.make i.attempts = made, i'.make i.attempts = made' at hmake
    cases hmake with
    | failed e => exact ⟨⟨h.make, rfl, .none⟩, .failed e, hs, rfl⟩
    | @done made made' hmade =>
      obtain ⟨halike, hwarnings⟩ := hmade
      have hlook := halike.checkHealth s s' hs
      refine ⟨⟨h.make, rfl, .some halike⟩, .done halike, hlook.state, ?_⟩
      simp only [hwarnings, hlook.warnings, hlook.result.eq, healthWarnings_congr halike.name]

/-- Making sure that the backend is there. -/
theorem Alike.makeReady (h : i.Alike R i') (hs : R s s') :
    (i.makeReady s).1.Alike R (i'.makeReady s').1 ∧
      (i.makeReady s).2.Alike R Eq (i'.makeReady s').2 := by
  obtain ⟨hgenerator, houtcome⟩ := h.handle hs
  exact ⟨hgenerator, houtcome.result.map fun _ _ _ => rfl, houtcome.state, houtcome.warnings⟩

/-- **Asking for a text.** -/
theorem Alike.generate (h : i.Alike R i') (source template : String) (hs : R s s') :
    (i.generate source template s).1.Alike R (i'.generate source template s').1 ∧
      (i.generate source template s).2.Alike R Eq (i'.generate source template s').2 := by
  obtain ⟨hgenerator, houtcome⟩ := h.handle hs
  unfold Generator.generate
  have hresult := houtcome.result
  generalize hr : (i.handle s).2.result = r, hr' : (i'.handle s').2.result = r' at hresult
  simp only [hr, hr']
  cases hresult with
  | failed e => exact ⟨hgenerator, .failed e, houtcome.state, houtcome.warnings⟩
  | @done b b' halike =>
    have hasked := halike.generate (documentPrompt template source) _ _ houtcome.state
    refine ⟨hgenerator, hasked.result.map fun _ _ => congrArg _, hasked.state, ?_⟩
    simp only [houtcome.warnings, hasked.warnings]

end Generator

end DeclarationDocs
