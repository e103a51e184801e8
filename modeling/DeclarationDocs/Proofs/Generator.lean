import DeclarationDocs.Proofs.Results
import DeclarationDocs.Run

namespace DeclarationDocs

/-!
# What can go wrong with a generator

A generator can fail to make its backend, or its backend can fail to give a text.  Until there is
a backend nothing is asked, and once there is one it stays.

* `Generator.Uses`, `Generator.FailsWithin` — the backends of a generator, and what may go wrong
  with them;
* `Generator.handle_eq_ok`, `Generator.handle_eq_error` — what asking for the backend leaves;
* `failsWithin_generatorFor` — a configured service fails by its configuration when it is made,
  and by itself when it is asked; so all of its failures end a run (`fatal_generatorFor`).
-/

variable {σ : Type}

/-! ### Failures of a generator -/

/-- A failure that ends a run. -/
def Failure.Fatal (e : Failure) : Prop := e.isRecoverable = false

/-- Every failure to give a text is one of those named. -/
def Backend.FailsWithin (asking : Failure → Prop) (b : Backend σ) : Prop :=
  ∀ prompt s e, (b.generate prompt s).result = .error e → asking e

namespace Generator

variable {i : Generator σ} {s : σ} {b : Backend σ} {e : Failure} {making asking : Failure → Prop}

/-- The backends that a generator has or may come to have. -/
def Uses (i : Generator σ) (b : Backend σ) : Prop :=
  i.backend? = some b ∨ ∃ n warnings, i.make n = .ok (b, warnings)

/-- Every failure to make a backend, and every failure of a backend to give a text, is one of
    those named. -/
structure FailsWithin (making asking : Failure → Prop) (i : Generator σ) : Prop where
  making : ∀ n e, i.make n = .error e → making e
  asking : ∀ b, i.Uses b → b.FailsWithin asking

/-- A backend that is there is used, and nothing changes. -/
theorem handle_of_some (h : i.backend? = some b) : i.handle s = (i, ⟨.ok b, s, []⟩) := by
  simp only [handle, h]

/-- What is asked for a backend has that backend from then on. -/
theorem handle_eq_ok (h : (i.handle s).2.result = .ok b) :
    (i.handle s).1.backend? = some b ∧ i.Uses b := by
  cases hb : i.backend? with
  | some b' =>
    rw [handle_of_some hb] at h ⊢
    obtain rfl := Except.ok.inj h
    exact ⟨hb, .inl hb⟩
  | none =>
    cases hmake : i.make i.attempts with
    | error e => simp [handle, hb, hmake] at h
    | ok made =>
      simp only [handle, hb, hmake, Except.ok.injEq] at h ⊢
      subst h
      exact ⟨rfl, .inr ⟨i.attempts, made.2, hmake⟩⟩

/-- Only an attempt is noted if the backend cannot be made. -/
theorem handle_eq_error (h : (i.handle s).2.result = .error e) :
    i.backend? = none ∧ i.make i.attempts = .error e ∧
      i.handle s = ({ i with attempts := i.attempts + 1 }, ⟨.error e, s, []⟩) := by
  cases hb : i.backend? with
  | some b =>
    rw [handle_of_some hb] at h
    exact absurd h (by simp)
  | none =>
    cases hmake : i.make i.attempts with
    | ok made => simp [handle, hb, hmake] at h
    | error e' =>
      simp only [handle, hb, hmake, Except.error.injEq] at h ⊢
      subst h
      exact ⟨trivial, rfl, rfl⟩

/-- Obtaining a backend leaves the way in which backends are made. -/
theorem make_handle (i : Generator σ) (s : σ) : (i.handle s).1.make = i.make := by
  unfold handle
  split
  · rfl
  · simp only
    split <;> rfl

/-- It brings no further backends into use. -/
theorem uses_of_handle (h : (i.handle s).1.Uses b) : i.Uses b := by
  unfold Uses at h
  rw [make_handle] at h
  rcases h with hb | hmake
  · cases hr : (i.handle s).2.result with
    | ok b' =>
      obtain ⟨hb', huses⟩ := handle_eq_ok hr
      obtain rfl := Option.some.inj (hb.symm.trans hb')
      exact huses
    | error e =>
      rw [(handle_eq_error hr).2.2] at hb
      exact .inl hb
  · exact .inr hmake

/-- It keeps the failures within what they are. -/
theorem FailsWithin.handle (h : i.FailsWithin making asking) :
    (i.handle s).1.FailsWithin making asking where
  making := by
    rw [make_handle]
    exact h.making
  asking b hb := h.asking b (uses_of_handle hb)

/-- Failures that are within something are within more. -/
theorem FailsWithin.mono {making' asking' : Failure → Prop} (h : i.FailsWithin making asking)
    (hmaking : ∀ e, making e → making' e) (hasking : ∀ e, asking e → asking' e) :
    i.FailsWithin making' asking' where
  making n e he := hmaking e (h.making n e he)
  asking b hb prompt s e he := hasking e (h.asking b hb prompt s e he)

/-- A generator of one backend that can always be made fails as the backend does. -/
theorem failsWithin_ofBackend (h : b.FailsWithin asking) :
    (ofBackend b).FailsWithin making asking where
  making n e he := absurd he (by simp [ofBackend, ofFactory])
  asking b' hb' := by
    obtain hnone | ⟨n, warnings, hmake⟩ := hb'
    · exact absurd hnone (by simp [ofBackend, ofFactory])
    · obtain ⟨rfl, -⟩ := Prod.mk.inj (Except.ok.inj hmake)
      exact h

/-- Once there is a backend, it is the one that is asked for a text. -/
theorem generate_of_some (source template : String) (s : σ) (h : i.backend? = some b) :
    (i.generate source template s).1 = i ∧
      (i.generate source template s).2.result =
        (b.generate (documentPrompt template source) s).result.map Generated.content := by
  simp only [generate, handle_of_some h, and_self]

end Generator

/-! ### Services -/

namespace ServiceClient

/-- A client that cannot be made is not configured well. -/
theorem create_eq_error {names : Url.DomainNames} {c : ServiceConfig} {key : Option String}
    {e : Failure} (h : create names c key = .error e) : ∃ f, e = .config f := by
  unfold create at h
  split at h
  · exact ⟨_, (Except.error.inj h).symm⟩
  · rename_i kind _
    rcases bind_eq_error_iff.mp h with hkey | ⟨key, -, h⟩
    · unfold ServiceKind.keyFor at hkey
      grind
    · rcases bind_eq_error_iff.mp h with hendpoint | ⟨base, -, h⟩
      · unfold readEndpoint endpointOf at hendpoint
        grind
      · exact absurd h (by simp)

/-- A client that gives no text was failed by its service. -/
theorem failsWithin_backend (c : ServiceClient) :
    c.backend.FailsWithin fun e => ∃ f, e = .service f := by
  intro prompt x e h
  have h : (c.generate prompt x).result = .error e := h
  unfold generate at h
  grind

end ServiceClient

/-- Making the backend for a configuration fails by the configuration, and asking it by the
    service. -/
theorem failsWithin_generatorFor (s : Surroundings) (c : Config) :
    (generatorFor s c).FailsWithin (fun e => ∃ f, e = .config f) (fun e => ∃ f, e = .service f) where
  making n e h := ServiceClient.create_eq_error (map_eq_error_iff.mp h)
  asking b hb := by
    rcases hb with hnone | ⟨n, warnings, hmake⟩
    · exact absurd hnone (by simp [generatorFor, Generator.ofFactory])
    · obtain ⟨⟨client, _⟩, -, hpair⟩ := map_eq_ok_iff.mp hmake
      obtain ⟨rfl, -⟩ := Prod.mk.inj hpair
      exact client.failsWithin_backend

/-- Whatever goes wrong with a configured service ends the run. -/
theorem fatal_generatorFor (s : Surroundings) (c : Config) :
    (generatorFor s c).FailsWithin Failure.Fatal Failure.Fatal := by
  refine (failsWithin_generatorFor s c).mono ?_ ?_
  · rintro e ⟨f, rfl⟩
    rfl
  · rintro e ⟨f, rfl⟩
    rfl

end DeclarationDocs
