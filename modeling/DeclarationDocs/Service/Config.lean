import DeclarationDocs.Json.Printer
import DeclarationDocs.Shape

/-!
# The configuration of a service

Which service to ask, where it is, and with what limits.  The key is never shown.

* `ServiceConfig.decode`: reading a configuration;
* `ServiceConfig.debugText`, `ServiceConfig.toJson`: writing it without the key.
-/

namespace DeclarationDocs

/-- The configuration of a service. -/
structure ServiceConfig where
  provider : String
  model : Option String
  timeoutSecs : Nat
  apiKey : Option String
  apiBase : Option String
  maxNewTokens : Nat
deriving DecidableEq, Repr

namespace ServiceConfig

/-- The time limit if none is given, in seconds. -/
def usualTimeoutSecs : Nat := 300

/-- The limit on generated tokens if none is given. -/
def usualMaxNewTokens : Nat := 1024

/-- What stands in the place of a key. -/
def redacted : String := "[REDACTED]"

/-- An optional key as it is shown. -/
def redact (key : Option String) : Option String := key.map fun _ => redacted

/-- What a configuration looks like. -/
def shape : Shape :=
  .record "ProviderConfig"
    [("provider", .text, none),
     ("model", .optional .text, some .absent),
     ("timeout_secs", .natural 64, none),
     ("api_key", .optional .text, some .absent),
     ("api_base", .optional .text, some .absent),
     ("max_new_tokens", .natural 32, some (.natural usualMaxNewTokens))]

/-- The configuration that a value of the shape stands for. -/
def ofDatum (d : Datum) : ServiceConfig :=
  ⟨(d.field 0).asText, (d.field 1).asTextOption, (d.field 2).asNatural, (d.field 3).asTextOption,
    (d.field 4).asTextOption, (d.field 5).asNatural⟩

/-- Read a configuration. -/
def decode (v : Json) : Except Shape.Mismatch ServiceConfig := (shape.decode v).map ofDatum

/-- The configuration for a reader of logs. -/
def debugText (c : ServiceConfig) : String :=
  "ProviderConfig \x7b provider: " ++ Text.quote c.provider
    ++ ", model: " ++ Text.quoteOption c.model
    ++ ", timeout_secs: " ++ toString c.timeoutSecs
    ++ ", api_key: " ++ Text.quoteOption (redact c.apiKey)
    ++ ", api_base: " ++ Text.quoteOption c.apiBase
    ++ ", max_new_tokens: " ++ toString c.maxNewTokens ++ " \x7d"

/-- The configuration without its key. -/
def toJson (c : ServiceConfig) : Json :=
  .object
    [("provider", .string c.provider),
     ("model", .ofOption c.model),
     ("timeout_secs", .ofNat c.timeoutSecs),
     ("api_base", .ofOption c.apiBase),
     ("max_new_tokens", .ofNat c.maxNewTokens)]

end ServiceConfig

end DeclarationDocs
