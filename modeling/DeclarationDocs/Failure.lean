import DeclarationDocs.Category
import DeclarationDocs.FileTree
import DeclarationDocs.Glob
import DeclarationDocs.Http
import DeclarationDocs.Service.Kind
import DeclarationDocs.Settings.Setting
import DeclarationDocs.Shape

/-!
# Failures

Everything that can go wrong, by cause, and the wording of it.

A failure is fatal or concerns one job alone: `Failure.isRecoverable`.
-/

namespace DeclarationDocs

/-- What is wrong with JSON. -/
inductive JsonFault where
  | text (fault : Json.SyntaxFault)
  | shape (fault : Shape.FaultAt)
  | value (mismatch : Shape.Mismatch)

/-- The wording of what is wrong with JSON. -/
def JsonFault.message : JsonFault → String
  | text f => f.flaw.message ++ f.position.suffix
  | shape f => f.message
  | value m => m.message

/-- What is wrong with a configuration. -/
inductive ConfigFault where
  | projectFile (p : Path) (fault : JsonFault)
  | fileNotFound (p : Path)
  | unreadable (layers : List LayerFault)
  | setting (fault : SettingFault)
  | zeroTimeout
  | zeroTokens
  | blankProvider
  | unknownProvider (name : String)
  | missingKey
  | endpoint (service : ServiceKind) (written : String) (fault : Url.Fault)
  | endpointScheme (service : ServiceKind) (scheme : String)
  | unknownCategory (name : String)
  | inContext (context : String) (fault : IoFault)
  | other (message : String)

/-- The wording of what is wrong with a configuration. -/
def ConfigFault.message : ConfigFault → String
  | projectFile p f =>
    "Invalid project configuration " ++ p.text ++ ": JSON error: " ++ f.message
  | fileNotFound p => "Config file not found: " ++ p.text
  | unreadable layers => "Configuration error: " ++ LayerFault.messageOf layers
  | setting f => "Configuration error: " ++ f.message
  | zeroTimeout => "LLM timeout_secs must be greater than 0"
  | zeroTokens => "LLM max_new_tokens must be greater than 0"
  | blankProvider => "LLM provider must not be empty"
  | unknownProvider name =>
    "Unknown provider: " ++ name ++ ". Supported: "
      ++ String.intercalate ", " (ServiceKind.all.map ServiceKind.name)
  | missingKey =>
    "OpenAI API key not found. Set OPENAI_API_KEY env var or provide in config"
  | endpoint k s f =>
    "Invalid " ++ k.title ++ " endpoint URL '" ++ s ++ "': " ++ f.message
  | endpointScheme k s => k.title ++ " endpoint must use http or https scheme, got: " ++ s
  | unknownCategory name => Category.unknownMessage name
  | inContext context f => context ++ ": " ++ f.message
  | other m => m

/-- What is wrong with a text generation service. -/
inductive ServiceFault where
  | cannotConnect (service : ServiceKind) (base : String)
  | request (service : ServiceKind) (fault : Http.Fault)
  | status (service : ServiceKind) (status : Http.Status) (body : String)
  | undecodable (service : ServiceKind)
  | noCandidates
  | noContent
  | other (message : String)

/-- The wording of what is wrong with a service. -/
def ServiceFault.message : ServiceFault → String
  | cannotConnect .ollama base =>
    "Failed to connect to Ollama at " ++ base
      ++ ". Is Ollama running? Start with: ollama serve"
  | cannotConnect k base =>
    "Failed to connect to " ++ k.title ++ " at " ++ base
      ++ ". Is the inference server running?"
  | request k f => k.title ++ " request failed: " ++ f.message
  | status k s body => k.title ++ " API error (" ++ s.text ++ "): " ++ body
  | undecodable k =>
    "Failed to parse " ++ k.title ++ " response: error decoding response body"
  | noCandidates => "TGI returned no candidates"
  | noContent => "No content in OpenAI response"
  | other m => m

/-- Everything that can go wrong. -/
inductive Failure where
  | io (fault : IoFault)
  | json (fault : JsonFault)
  | config (fault : ConfigFault)
  | projectNotFound (p : Path)
  | emptyInclude (p : Path)
  | pattern (written : String) (message : String)
  | parse (p : Path) (message : String)
  | templateNotFound (category : Category) (p : Path)
  | service (fault : ServiceFault)

namespace Failure

/-- The wording of a failure. -/
def message : Failure → String
  | io f => "IO error: " ++ f.message
  | json f => "JSON error: " ++ f.message
  | config f => "Config error: " ++ f.message
  | projectNotFound p => "Project configuration not found: " ++ p.text
  | emptyInclude p => "No include patterns in project configuration: " ++ p.text
  | pattern s m => "Invalid include pattern '" ++ s ++ "': " ++ m
  | parse p m => "Parse error in " ++ p.text ++ ": " ++ m
  | templateNotFound c p => "Template for '" ++ c.name ++ "' not found at " ++ p.text
  | service f => "LLM API error: " ++ f.message

/-- Whether a failure concerns one job alone, so that a run goes on. -/
def isRecoverable : Failure → Bool
  | templateNotFound _ _ => true
  | _ => false

end Failure

end DeclarationDocs
