import DeclarationDocs.Prompt
import DeclarationDocs.Service.Backend

/-!
# The generator

The one place from which text is asked for.  Its backend is made when it is first needed, looked
at once, and kept; if it cannot be made, the next call tries again.

* `Generator.makeReady`: make the backend if there is none yet;
* `Generator.generate`: the text for a declaration and a template.
-/

namespace DeclarationDocs

/-- A generator over backends with the state `σ`. -/
structure Generator (σ : Type) where
  /-- What comes of the `n`-th attempt to make a backend, counted from 0. -/
  make : Nat → Except Failure (Backend σ × List Warning)
  /-- The attempts so far. -/
  attempts : Nat
  backend? : Option (Backend σ)

namespace Generator

variable {σ : Type}

/-- A generator that has not been used. -/
def ofFactory (make : Nat → Except Failure (Backend σ × List Warning)) : Generator σ :=
  ⟨make, 0, none⟩

/-- A generator whose backend can always be made. -/
def ofBackend (b : Backend σ) : Generator σ := ofFactory fun _ => .ok (b, [])

/-- Whether the backend is there. -/
def isReady (i : Generator σ) : Bool := i.backend?.isSome

/-- What the outcome of a first look at a backend is worth saying. -/
def healthWarnings (b : Backend σ) : Except Failure Bool → List Warning
  | .ok true => []
  | .ok false => [.unhealthy b.name]
  | .error e => [.healthFailed b.name e]

/-- The backend, which is made and looked at if there is none yet. -/
def handle (i : Generator σ) (s : σ) : Generator σ × Outcome σ (Backend σ) :=
  match i.backend? with
  | some b => (i, ⟨.ok b, s, []⟩)
  | none =>
    let tried := { i with attempts := i.attempts + 1 }
    match i.make i.attempts with
    | .error e => (tried, ⟨.error e, s, []⟩)
    | .ok (b, warnings) =>
      let look := b.checkHealth s
      ({ tried with backend? := some b },
        ⟨.ok b, look.state, warnings ++ look.warnings ++ healthWarnings b look.result⟩)

/-- Make sure that the backend is there. -/
def makeReady (i : Generator σ) (s : σ) : Generator σ × Outcome σ Unit :=
  let (i, o) := i.handle s
  (i, ⟨o.result.map fun _ => (), o.state, o.warnings⟩)

/-- The text for a declaration and a template. -/
def generate (i : Generator σ) (source template : String) (s : σ) :
    Generator σ × Outcome σ String :=
  let (i, o) := i.handle s
  match o.result with
  | .error e => (i, ⟨.error e, o.state, o.warnings⟩)
  | .ok b =>
    let g := b.generate (documentPrompt template source) o.state
    (i, ⟨g.result.map Generated.content, g.state, o.warnings ++ g.warnings⟩)

end Generator

end DeclarationDocs
