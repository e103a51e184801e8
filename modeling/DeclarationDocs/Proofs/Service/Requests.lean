import DeclarationDocs.Proofs.Generator.Calls

namespace DeclarationDocs

/-!
# What a client sends

A client that reaches its server sends one request whenever it is used: one to look at the service,
and one for every prompt.  What the server replies decides what comes of it, and not what is sent.

* `Http.Exchange.message`, `Http.Exchange.send_of_reaches` — the request that reaches a server;
* `ServiceClient.Reaches` — a client whose URLs lead to the server;
* `ServiceClient.checkHealth_state`, `ServiceClient.generate_state` — one use of a client;
* `ServiceClient.sent_stateAfter` — all prompts, one after the other.
-/

/-! ### Exchanges -/

namespace Http.Exchange

variable {x : Exchange} {u : Url} {method : Method} {url : String} {bearer body : Option String}

/-- The request that is sent to a URL. -/
def message (u : Url) (method : Method) (bearer body : Option String) : Request where
  method := method
  target := String.ofList u.target
  authorization :=
    ((basicAuthorization u).or (bearer.map fun key => "Bearer ".toList ++ key.toList)).map
      fun h => String.ofList (trimHeader h)
  contentType := body.map fun _ => "application/json"
  body := body.getD ""

/-- The exchange once a request has come, to which the next reply is given. -/
def received (x : Exchange) (r : Request) : Exchange :=
  ⟨x.listening, x.replies.tail, x.sent ++ [r]⟩

/-- A request that reaches the server is received, whatever the server replies. -/
theorem send_of_reaches (hurl : Url.parse .ascii url.toList = .ok u) (hhost : u.host ≠ [])
    (hkey : ∀ key, bearer = some key → isHeaderText ("Bearer ".toList ++ key.toList) = true)
    (hreach : x.reaches u = true) :
    (x.send method url bearer body).2 = x.received (message u method bearer body) := by
  have hhost' : u.host.isEmpty = false := by simpa using hhost
  have hheader : (bearer.map fun key => "Bearer ".toList ++ key.toList).all isHeaderText = true := by
    cases bearer with
    | none => rfl
    | some key => exact hkey key rfl
  -- user and password do not decide which server it is
  have hreach' : x.reaches { u with user := [], password := Option.none } = true := hreach
  unfold send
  simp only [hurl, hhost', hheader, hreach', Bool.not_true, Bool.false_eq_true, if_false]
  split <;> rfl

/-- Whatever becomes of a request, at most that one is received, with the body that was given. -/
theorem exists_send_state (x : Exchange) (method : Method) (url : String)
    (bearer body : Option String) :
    ∃ rs : List Request, (x.send method url bearer body).2.sent = x.sent ++ rs ∧ rs.length ≤ 1 ∧
      ∀ r ∈ rs, r.method = method ∧ r.body = body.getD "" := by
  have hnone : ∃ rs : List Request, x.sent = x.sent ++ rs ∧ rs.length ≤ 1 ∧
      ∀ r ∈ rs, r.method = method ∧ r.body = body.getD "" := ⟨[], by simp⟩
  unfold send
  split
  · exact hnone
  simp only
  split_ifs
  · exact hnone
  · exact hnone
  · exact hnone
  · split
    · exact ⟨[_], rfl, by simp⟩
    · exact ⟨[_], rfl, by simp⟩

end Http.Exchange

/-! ### Clients -/

namespace ServiceClient

open Http Http.Exchange

variable {c : ServiceClient} {x : Exchange} {health generation : Url}

/-- The client reaches the server: its URLs for looking at the service and for asking it lead
    there, and its key, if it has one, can stand in a header. -/
structure Reaches (c : ServiceClient) (x : Exchange) (health generation : Url) : Prop where
  health_url : Url.parse .ascii (c.apiBase ++ c.kind.healthPath).toList = .ok health
  health_host : health.host ≠ []
  health_reaches : x.reaches health = true
  generation_url : Url.parse .ascii (c.apiBase ++ c.kind.generatePath).toList = .ok generation
  generation_host : generation.host ≠ []
  generation_reaches : x.reaches generation = true
  key : ∀ key, c.apiKey = some key → isHeaderText ("Bearer ".toList ++ key.toList) = true

/-- The request for a look at the service. -/
def healthRequest (c : ServiceClient) (health : Url) : Request :=
  message health .get c.apiKey none

/-- The request for the text of a prompt. -/
def textRequest (c : ServiceClient) (generation : Url) (prompt : String) : Request :=
  message generation .post c.apiKey (some (c.requestBody prompt))

/-- A server that was reached is reached again. -/
theorem Reaches.received (h : c.Reaches x health generation) (r : Request) :
    c.Reaches (x.received r) health generation :=
  { h with
    health_reaches := h.health_reaches
    generation_reaches := h.generation_reaches }

/-- What a look at the service leaves is what its request leaves. -/
theorem state_checkHealth (c : ServiceClient) (x : Exchange) :
    (c.checkHealth x).state = (x.send .get (c.apiBase ++ c.kind.healthPath) c.apiKey none).2 := by
  unfold checkHealth
  simp only
  split
  · rfl
  · split <;> rfl

/-- What asking for a text leaves is what its request leaves. -/
theorem state_generate (c : ServiceClient) (prompt : String) (x : Exchange) :
    (c.generate prompt x).state = (x.send .post (c.apiBase ++ c.kind.generatePath) c.apiKey
      (some (c.requestBody prompt))).2 := by
  unfold generate
  simp only
  split
  · rfl
  · split <;> rfl

/-- Looking at the service sends one request, whatever the reply says. -/
theorem checkHealth_state (h : c.Reaches x health generation) :
    (c.checkHealth x).state = x.received (c.healthRequest health) := by
  rw [healthRequest, ← send_of_reaches h.health_url h.health_host h.key h.health_reaches,
    state_checkHealth]

/-- Asking for a text sends one request, whatever the reply says. -/
theorem generate_state (h : c.Reaches x health generation) (prompt : String) :
    (c.generate prompt x).state = x.received (c.textRequest generation prompt) := by
  rw [textRequest, ← send_of_reaches h.generation_url h.generation_host h.key h.generation_reaches,
    state_generate]

/-- **All prompts.**  By induction on the prompts: one request for each of them, in order. -/
theorem sent_stateAfter (h : c.Reaches x health generation) (prompts : List String) :
    (c.backend.stateAfter x prompts).sent = x.sent ++ prompts.map (c.textRequest generation) := by
  induction prompts generalizing x with
  | nil => exact (List.append_nil _).symm
  | cons prompt prompts ih =>
    show (c.backend.stateAfter (c.generate prompt x).state prompts).sent = _
    rw [generate_state h, ih (h.received _), List.map_cons]
    exact List.append_assoc ..

end ServiceClient

end DeclarationDocs
