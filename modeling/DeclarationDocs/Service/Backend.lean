import DeclarationDocs.Warning

/-!
# Text generation

What a text generation backend can do, whatever it is: its operations work on a state of their
own, such as a server's replies, and may leave warnings.
-/

namespace DeclarationDocs

/-- What an operation on a state leaves. -/
structure Outcome (σ α : Type) where
  result : Except Failure α
  state : σ
  warnings : List Warning

/-- A generated text and what it took. -/
structure Generated where
  content : String
  inputTokens : Nat
  outputTokens : Nat
  model : String
  backend : String
deriving DecidableEq, Repr

/-- A text generation backend with a state. -/
structure Backend (σ : Type) where
  name : String
  model : String
  checkHealth : σ → Outcome σ Bool
  generate : String → σ → Outcome σ Generated

end DeclarationDocs
