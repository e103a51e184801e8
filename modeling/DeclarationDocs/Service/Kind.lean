/-!
# Kinds of text generation services
-/

namespace DeclarationDocs

/-- The services that can be asked for text. -/
inductive ServiceKind where
  | tgi
  | ollama
  | openai
deriving DecidableEq, Repr

namespace ServiceKind

/-- All kinds, in the order in which they are listed. -/
def all : List ServiceKind := [tgi, ollama, openai]

/-- The name by which a kind is chosen. -/
def name : ServiceKind → String
  | tgi => "tgi"
  | ollama => "ollama"
  | openai => "openai"

/-- The name by which messages speak of a kind. -/
def title : ServiceKind → String
  | tgi => "TGI"
  | ollama => "Ollama"
  | openai => "OpenAI"

/-- The kind with a given name. -/
def ofName? (s : String) : Option ServiceKind := all.find? fun k => k.name == s

end ServiceKind

end DeclarationDocs
