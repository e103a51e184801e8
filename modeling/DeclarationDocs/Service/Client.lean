import DeclarationDocs.Json.Reader
import DeclarationDocs.Service.Backend
import DeclarationDocs.Service.Config
import DeclarationDocs.Service.Endpoint
import DeclarationDocs.Text.Search

/-!
# Asking a service

Each kind of service has its own paths, its own request and its own reply; all decode greedily,
so the same prompt gives the same text.

* `ServiceClient.create`: a client for a configuration;
* `ServiceClient.requestBody`, `ServiceClient.decodeReply`: what is sent, and what comes back;
* `ServiceClient.backend`: the client as a text generation backend over HTTP.
-/

namespace DeclarationDocs

/-- A client of a service. -/
structure ServiceClient where
  kind : ServiceKind
  apiKey : Option String
  apiBase : String
  model : String
  maxNewTokens : Nat
deriving DecidableEq, Repr

namespace ServiceKind

/-- The endpoint if none is given. -/
def usualBase : ServiceKind → String
  | tgi => "http://localhost:8080"
  | ollama => "http://localhost:11434"
  | openai => "https://api.openai.com/v1"

/-- The model if none is given. -/
def usualModel : ServiceKind → String
  | tgi => "bigcode/starcoder"
  | ollama => "codellama:latest"
  | openai => "gpt-4o-mini"

/-- The path below the endpoint that tells whether the service is there. -/
def healthPath : ServiceKind → String
  | tgi => "/health"
  | ollama => "/api/tags"
  | openai => "/models"

/-- The path below the endpoint that generates text. -/
def generatePath : ServiceKind → String
  | tgi => "/generate"
  | ollama => "/api/generate"
  | openai => "/chat/completions"

/-- The key that a client of a kind has: an Ollama server takes none, and OpenAI's may come from
the environment. -/
def keyFor (k : ServiceKind) (configured environment : Option String) :
    Except Failure (Option String) :=
  match k with
  | tgi => .ok configured
  | ollama => .ok none
  | openai =>
    match configured.or environment with
    | some key => .ok (some key)
    | none => .error (.config .missingKey)

end ServiceKind

/-! ### Replies -/

/-- A generated text and the tokens counted for it. -/
structure Completion where
  text : String
  inputTokens : Nat
  outputTokens : Nat
deriving DecidableEq, Repr

namespace Completion

/-- A text as the inference server gives it. -/
def candidateShape : Shape :=
  .record "Candidate"
    [("generated_text", .text, none),
     ("details", .optional (.record "CandidateDetails" [("generated_tokens", .natural 32, none)]),
      some .absent)]

/-- The completion that a candidate stands for. -/
def ofCandidate (d : Datum) : Completion :=
  ⟨(d.field 0).asText, 0, (d.field 1).asOption.elim 0 fun details => (details.field 0).asNatural⟩

/-- The reply of an inference server: one candidate or a list of them. -/
def ofTgi (body : List Char) : Except ServiceFault Completion :=
  match Json.parse body with
  | .error _ => .error (.undecodable .tgi)
  | .ok v =>
    match candidateShape.decode v with
    | .ok d => .ok (ofCandidate d)
    | .error _ =>
      match (Shape.list candidateShape).decode v with
      | .error _ => .error (.undecodable .tgi)
      | .ok d =>
        match d.asList with
        | [] => .error .noCandidates
        | first :: _ => .ok (ofCandidate first)

/-- The reply of an Ollama server. -/
def ollamaShape : Shape :=
  .record "OllamaResponse"
    [("response", .text, none),
     ("prompt_eval_count", .optional (.natural 32), some .absent),
     ("eval_count", .optional (.natural 32), some .absent)]

/-- The completion in the reply of an Ollama server. -/
def ofOllama (body : List Char) : Except ServiceFault Completion :=
  match ollamaShape.read body with
  | .error _ => .error (.undecodable .ollama)
  | .ok d =>
    let count := fun i => (d.field i).asOption.elim 0 Datum.asNatural
    .ok ⟨(d.field 0).asText, count 1, count 2⟩

/-- The reply of an OpenAI server. -/
def openaiShape : Shape :=
  .record "ChatCompletionResponse"
    [("choices",
      .list (.record "Choice"
        [("message", .record "ResponseMessage" [("content", .optional .text, none)], none)]),
      none),
     ("usage",
      .optional (.record "UsageInfo"
        [("prompt_tokens", .natural 32, none), ("completion_tokens", .natural 32, none)]),
      none)]

/-- The completion in the reply of an OpenAI server: the content of its first choice. -/
def ofOpenai (body : List Char) : Except ServiceFault Completion :=
  match openaiShape.read body with
  | .error _ => .error (.undecodable .openai)
  | .ok d =>
    let used := fun i => (d.field 1).asOption.elim 0 fun u => (u.field i).asNatural
    match (d.field 0).asList with
    | [] => .error .noContent
    | choice :: _ =>
      match ((choice.field 0).field 0).asTextOption with
      | none => .error .noContent
      | some text => .ok ⟨text, used 0, used 1⟩

/-- The completion in the reply of a service. -/
def ofReply (k : ServiceKind) (body : List Char) : Except ServiceFault Completion :=
  match k with
  | .tgi => ofTgi body
  | .ollama => ofOllama body
  | .openai => ofOpenai body

end Completion

/-! ### Requests -/

namespace ServiceClient

/-- The text generation request for a prompt. -/
def requestJson (c : ServiceClient) (prompt : String) : Json :=
  match c.kind with
  | .tgi => .object
      [("inputs", .string prompt),
       ("parameters", .object
         [("max_new_tokens", .ofNat c.maxNewTokens),
          ("do_sample", .bool false),
          ("return_full_text", .bool true)])]
  | .ollama => .object
      [("model", .string c.model),
       ("prompt", .string prompt),
       ("stream", .bool false),
       ("options", .object
         [("temperature", .number (.float 0)),
          ("num_predict", .ofNat c.maxNewTokens)])]
  | .openai => .object
      [("model", .string c.model),
       ("messages", .array
         [.object [("role", .string "user"), ("content", .string prompt)]]),
       ("temperature", .number (.float 0)),
       ("max_tokens", .ofNat c.maxNewTokens)]

/-- The body of the request for a prompt. -/
def requestBody (c : ServiceClient) (prompt : String) : String := (c.requestJson prompt).text

/-! ### Clients -/

/-- A client for a configuration; `environmentKey` is the key that the environment offers, and
`names` converts the name of the endpoint's host. -/
def create (names : Url.DomainNames) (config : ServiceConfig) (environmentKey : Option String) :
    Except Failure (ServiceClient × List Warning) :=
  match ServiceKind.ofName? config.provider with
  | none => .error (.config (.unknownProvider config.provider))
  | some kind => do
    let apiKey ← kind.keyFor config.apiKey environmentKey
    let (apiBase, warnings) ← readEndpoint names kind (config.apiBase.getD kind.usualBase)
    .ok ({ kind, apiKey, apiBase
           model := config.model.getD kind.usualModel
           maxNewTokens := config.maxNewTokens }, warnings)

/-- The client for a reader of logs; an Ollama client has no such text. -/
def debugText? (c : ServiceClient) : Option String :=
  let shown := fun (name key : String) =>
    name ++ " \x7b api_key: " ++ key
      ++ ", api_base: " ++ Text.quote c.apiBase
      ++ ", model: " ++ Text.quote c.model
      ++ ", max_new_tokens: " ++ toString c.maxNewTokens ++ " \x7d"
  match c.kind with
  | .tgi => some (shown "TgiProvider" (Text.quoteOption (ServiceConfig.redact c.apiKey)))
  | .ollama => none
  | .openai => some (shown "OpenAiProvider" (Text.quote ServiceConfig.redacted))

/-- Whether the model is among those that an Ollama server names: by its name, or as the
beginning of one if the tag `:latest` is left out. -/
def hasModel (c : ServiceClient) (names : List String) : Bool :=
  let base := Text.replaceAll c.model ":latest" ""
  names.any fun n => n == c.model || base.toList.isPrefixOf n.toList

/-- The models that an Ollama server names. -/
def tagsShape : Shape :=
  .record "OllamaTagsResponse"
    [("models", .list (.record "OllamaModel" [("name", .text, none)]), none)]

/-- What the body of a successful health check says. -/
def judgeHealth (c : ServiceClient) (body : String) : Bool × List Warning :=
  match c.kind with
  | .ollama =>
    match tagsShape.read body.toList with
    | .error _ => (true, [])
    | .ok d =>
      if c.hasModel ((d.field 0).asList.map fun m => (m.field 0).asText) then (true, [])
      else (false, [.modelMissing c.model])
  | _ => (true, [])

/-- Ask whether the service is there. -/
def checkHealth (c : ServiceClient) (x : Http.Exchange) : Outcome Http.Exchange Bool :=
  let (r, x) := x.send .get (c.apiBase ++ c.kind.healthPath) c.apiKey none
  match r with
  | .error e => ⟨.ok false, x, [.healthFault c.kind e]⟩
  | .ok a =>
    if a.status.isSuccess then
      let (healthy, warnings) := c.judgeHealth a.body
      ⟨.ok healthy, x, warnings⟩
    else ⟨.ok false, x, [.healthStatus c.kind a.status]⟩

/-- What the fault of a text generation request means. -/
def requestFault (c : ServiceClient) : Http.Fault → ServiceFault
  | .refused url =>
    if c.kind = .openai then .request .openai (.refused url) else .cannotConnect c.kind c.apiBase
  | e => .request c.kind e

/-- The text in an answer. -/
def decodeAnswer (c : ServiceClient) (a : Http.Answer) : Except ServiceFault Completion :=
  if a.status.isSuccess then Completion.ofReply c.kind a.body.toList
  else .error (.status c.kind a.status a.body)

/-- A completion with the names of its makers. -/
def sign (c : ServiceClient) (r : Completion) : Generated :=
  ⟨r.text, r.inputTokens, r.outputTokens, c.model, c.kind.name⟩

/-- Ask for the text of a prompt. -/
def generate (c : ServiceClient) (prompt : String) (x : Http.Exchange) :
    Outcome Http.Exchange Generated :=
  let (r, x) :=
    x.send .post (c.apiBase ++ c.kind.generatePath) c.apiKey (some (c.requestBody prompt))
  match r with
  | .error e => ⟨.error (.service (c.requestFault e)), x, []⟩
  | .ok a =>
    match c.decodeAnswer a with
    | .error e => ⟨.error (.service e), x, []⟩
    | .ok r => ⟨.ok (c.sign r), x, []⟩

/-- The client as a backend. -/
def backend (c : ServiceClient) : Backend Http.Exchange where
  name := c.kind.name
  model := c.model
  checkHealth := c.checkHealth
  generate := c.generate

end ServiceClient

end DeclarationDocs
