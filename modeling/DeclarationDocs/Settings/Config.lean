import DeclarationDocs.Failure
import DeclarationDocs.Service.Config
import DeclarationDocs.Text.WhiteSpace

/-!
# The configuration

What a run is told besides the project: the service to ask, the templates, and where documents
go.  Every part has a default.

* `Config.shape`: what a configuration looks like, with its defaults;
* `Config.validate`: whether a configuration makes sense;
* `Config.debugText`, `Config.toJson`: writing it without the key.
-/

namespace DeclarationDocs

/-- The configuration. -/
structure Config where
  service : ServiceConfig
  templatesDir : Option Path
  outputDir : Path
deriving DecidableEq, Repr

namespace ServiceConfig

/-- The configuration that holds if nothing is said. -/
def default : ServiceConfig :=
  { provider := ServiceKind.tgi.name, model := none, timeoutSecs := usualTimeoutSecs
    apiKey := none, apiBase := none, maxNewTokens := usualMaxNewTokens }

/-- The fields of the section of the service, with their defaults. -/
def sectionFields : List Shape.Field :=
  [("provider", .text, some (.text default.provider)),
   ("model", .optional .text, some .absent),
   ("api_base", .optional .text, some .absent),
   ("api_key", .optional .text, some .absent),
   ("timeout_secs", .natural 64, some (.natural default.timeoutSecs)),
   ("max_new_tokens", .natural 32, some (.natural default.maxNewTokens))]

/-- The configuration that a section stands for. -/
def ofSection (d : Datum) : ServiceConfig :=
  { provider := (d.field 0).asText
    model := (d.field 1).asTextOption
    apiBase := (d.field 2).asTextOption
    apiKey := (d.field 3).asTextOption
    timeoutSecs := (d.field 4).asNatural
    maxNewTokens := (d.field 5).asNatural }

/-- The section for a reader of logs. -/
def sectionDebugText (c : ServiceConfig) : String :=
  "LlmConfig \x7b provider: " ++ Text.quote c.provider
    ++ ", model: " ++ Text.quoteOption c.model
    ++ ", api_base: " ++ Text.quoteOption c.apiBase
    ++ ", api_key: " ++ Text.quoteOption (redact c.apiKey)
    ++ ", timeout_secs: " ++ toString c.timeoutSecs
    ++ ", max_new_tokens: " ++ toString c.maxNewTokens ++ " \x7d"

/-- The section without the key. -/
def sectionJson (c : ServiceConfig) : Json :=
  .object
    [("provider", .string c.provider),
     ("model", .ofOption c.model),
     ("api_base", .ofOption c.apiBase),
     ("timeout_secs", .ofNat c.timeoutSecs),
     ("max_new_tokens", .ofNat c.maxNewTokens)]

end ServiceConfig

namespace Config

/-- The directory for documents if none is named. -/
def defaultOutputDir : String := "docs"

/-- The configuration that holds if nothing is said. -/
def default : Config := ⟨.default, none, Path.ofString defaultOutputDir⟩

/-- A record whose fields all have defaults. -/
def section_ (name : String) (fields : List Shape.Field) : Shape × Option Datum :=
  (.record name fields, some (.record (fields.map fun f => f.2.2.getD .absent)))

/-- What a configuration looks like. -/
def shape : Shape :=
  .record "Config"
    [("llm", section_ "LlmConfig" ServiceConfig.sectionFields),
     ("templates", section_ "TemplatesConfig" [("dir", .optional .path, some .absent)]),
     ("output", section_ "OutputConfig" [("dir", .path, some (.text defaultOutputDir))])]

/-- The configuration that a value of the shape stands for. -/
def ofDatum (d : Datum) : Config :=
  { service := .ofSection (d.field 0)
    templatesDir := ((d.field 1).field 0).asTextOption.map Path.ofString
    outputDir := Path.ofString ((d.field 2).field 0).asText }

/-- Read a configuration from JSON. -/
def decode (v : Json) : Except Shape.Mismatch Config := (shape.decode v).map ofDatum

/-- Whether the configuration makes sense. -/
def validate (c : Config) : Except Failure Unit :=
  if c.service.timeoutSecs = 0 then .error (.config .zeroTimeout)
  else if c.service.maxNewTokens = 0 then .error (.config .zeroTokens)
  else if (Text.trim c.service.provider).isEmpty then .error (.config .blankProvider)
  else .ok ()

/-- The configuration for a reader of logs. -/
def debugText (c : Config) : String :=
  "Config \x7b llm: " ++ c.service.sectionDebugText
    ++ ", templates: TemplatesConfig \x7b dir: " ++ Text.quoteOption (c.templatesDir.map Path.text)
    ++ " \x7d, output: OutputConfig \x7b dir: " ++ Text.quote c.outputDir.text ++ " \x7d \x7d"

/-- The configuration without the key. -/
def toJson (c : Config) : Json :=
  .object
    [("llm", c.service.sectionJson),
     ("templates", .object [("dir", .ofOption (c.templatesDir.map Path.text))]),
     ("output", .object [("dir", .string c.outputDir.text)])]

end Config

end DeclarationDocs
