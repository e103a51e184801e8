import DeclarationDocs.Failure

/-!
# Warnings

What a run complains about and survives, by cause, and the wording of it.
-/

namespace DeclarationDocs

/-- What a run complains about. -/
inductive Warning where
  | notLocal (service : ServiceKind) (host : String)
  | healthStatus (service : ServiceKind) (status : Http.Status)
  | healthFault (service : ServiceKind) (fault : Http.Fault)
  | modelMissing (model : String)
  | unhealthy (backend : String)
  | healthFailed (backend : String) (failure : Failure)
  | skipped (declaration : String) (category : Category) (failure : Failure)

/-- The wording of a warning. -/
def Warning.message : Warning → String
  | notLocal k host =>
    k.title ++ " endpoint is not localhost: " ++ host ++ ". Ensure this is intentional."
  | healthStatus .tgi s => "TGI health check failed: " ++ s.text
  | healthStatus k s => k.title ++ " API check failed: " ++ s.text
  | healthFault .tgi f => "TGI not available: " ++ f.message
  | healthFault .ollama f =>
    "Ollama not available: " ++ f.message ++ ". Start with: ollama serve"
  | healthFault .openai f => "OpenAI API check failed: " ++ f.message
  | modelMissing m =>
    "Ollama is running but model '" ++ m ++ "' not found. Pull with: ollama pull " ++ m
  | unhealthy name => name ++ " health check failed; generation requests may fail"
  | healthFailed name e => name ++ " health check errored: " ++ e.message
  | skipped name c e => "Skipping " ++ name ++ " (" ++ c.name ++ "): " ++ e.message

end DeclarationDocs
