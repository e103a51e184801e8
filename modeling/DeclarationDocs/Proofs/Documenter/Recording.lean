import DeclarationDocs.Documenter

namespace DeclarationDocs

/-!
# Runs with a record of what was answered

A report tells which jobs were completed but not with which texts.  A *recording* backend does
what a backend does and notes, beside the state, every text it gives back.

* `Backend.recording`, `Generator.recording`, `World.recording` — the recording twins;
* `Generator.makeReady_recording`, `Generator.generate_recording` — noting changes nothing: the
  twin gives the same results and warnings and reaches the twin of the same state;
* `Documenter.answers` — the texts that the backend gives back in a run, in order.
-/

variable {σ α : Type}

/-- What a backend was asked, and the text that it gave back. -/
structure Answer where
  prompt : String
  text : String
deriving DecidableEq, Repr

/-- The answers in the result of one request: one text or none. -/
def answersOf (prompt : String) : Except Failure String → List Answer
  | .ok text => [⟨prompt, text⟩]
  | .error _ => []

/-! ### The recording twins -/

/-- What an operation leaves, with a record beside the state. -/
def Outcome.recording (o : Outcome σ α) (answers : List Answer) : Outcome (σ × List Answer) α :=
  ⟨o.result, (o.state, answers), o.warnings⟩

/-- A backend that notes its answers. -/
def Backend.recording (b : Backend σ) : Backend (σ × List Answer) where
  name := b.name
  model := b.model
  checkHealth := fun s => (b.checkHealth s.1).recording s.2
  generate := fun prompt s =>
    let o := b.generate prompt s.1
    o.recording (s.2 ++ answersOf prompt (o.result.map Generated.content))

/-- A generator whose backend notes its answers. -/
def Generator.recording (i : Generator σ) : Generator (σ × List Answer) where
  make := fun n => (i.make n).map fun made => (made.1.recording, made.2)
  attempts := i.attempts
  backend? := i.backend?.map Backend.recording

/-- A world whose backend notes its answers behind those that are given. -/
def World.recording (w : World σ) (answers : List Answer) : World (σ × List Answer) :=
  ⟨w.tree, w.generator.recording, (w.state, answers)⟩

/-- A report on one job, with a record. -/
def JobReport.recording (r : JobReport σ) (answers : List Answer) : JobReport (σ × List Answer) :=
  ⟨r.result, r.world.recording answers, r.warnings⟩

/-- A report on a run, with a record. -/
def RunReport.recording (r : RunReport σ) (answers : List Answer) : RunReport (σ × List Answer) :=
  ⟨r.result, r.world.recording answers, r.events, r.warnings⟩

/-- The texts that the backend gives back in a run, in order. -/
def Documenter.answers (p : Documenter) (w : World σ) : List Answer :=
  (p.run (w.recording [])).world.state.2

/-! ### Recording changes nothing -/

namespace Generator

/-- Looking at a recording backend for the first time says the same. -/
theorem healthWarnings_recording (b : Backend σ) (r : Except Failure Bool) :
    healthWarnings b.recording r = healthWarnings b r := by
  cases r with
  | error e => rfl
  | ok healthy => cases healthy <;> rfl

/-- Asking a recording generator for its backend gives the recording twin of the backend. -/
theorem handle_recording (i : Generator σ) (s : σ) (answers : List Answer) :
    i.recording.handle (s, answers) =
      ((i.handle s).1.recording,
        ⟨(i.handle s).2.result.map Backend.recording, ((i.handle s).2.state, answers),
          (i.handle s).2.warnings⟩) := by
  cases i with
  | mk make attempts backend? =>
    cases backend? with
    | some b => rfl
    | none =>
      simp only [handle, recording, Option.map_none]
      cases hm : make attempts with
      | error e => rfl
      | ok made =>
        simp only [Except.map, healthWarnings_recording]
        rfl

/-- Making a recording generator ready records nothing. -/
theorem makeReady_recording (i : Generator σ) (s : σ) (answers : List Answer) :
    i.recording.makeReady (s, answers) =
      ((i.makeReady s).1.recording, (i.makeReady s).2.recording answers) := by
  unfold makeReady
  rw [handle_recording]
  simp only [Outcome.recording]
  cases (i.handle s).2.result <;> rfl

/-- The record grows by the text that comes back, and by nothing if none comes back. -/
theorem generate_recording (i : Generator σ) (source template : String) (s : σ)
    (answers : List Answer) :
    i.recording.generate source template (s, answers) =
      ((i.generate source template s).1.recording,
        (i.generate source template s).2.recording
          (answers ++ answersOf (documentPrompt template source)
            (i.generate source template s).2.result)) := by
  unfold generate
  rw [handle_recording]
  cases hr : (i.handle s).2.result with
  | error e => simp [hr, Except.map, Outcome.recording, answersOf]
  | ok b => simp [hr, Except.map, Outcome.recording, Backend.recording]

end Generator

end DeclarationDocs
