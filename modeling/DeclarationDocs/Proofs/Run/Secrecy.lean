import DeclarationDocs.Proofs.Documenter.Alike
import DeclarationDocs.Proofs.Run.Requesting
import DeclarationDocs.Proofs.Settings.Layering

namespace DeclarationDocs

open Http

/-!
# What the key shows in

A key is there to be sent as authorization.  With another key a run goes the same way, tells and
writes the same, and sends requests that differ in nothing else; and no configuration shows its key
when it is written.

* `Http.Exchange.SameBut` — exchanges in which the requests differ in their authorization only;
* `ServiceClient.Twin` — clients that differ in their keys only, which cannot be told apart;
* `generatorFor_alike` — the generators of configurations with different keys;
* `KeyHidden c key key'`, `keyHidden` — all that is the same for `c.withKey key` and
  `c.withKey key'`.
-/

/-! ### Exchanges -/

namespace Http

/-- A request without its authorization. -/
def Request.unsigned (r : Request) : Request := { r with authorization := none }

namespace Exchange

/-- Two exchanges with one server, which differ in the authorization of what was sent only. -/
structure SameBut (x x' : Exchange) : Prop where
  listening : x.listening = x'.listening
  replies : x.replies = x'.replies
  sent : x.sent.map Request.unsigned = x'.sent.map Request.unsigned

variable {x x' : Exchange} {r r' : Request} {bearer bearer' : Option String}

theorem SameBut.refl (x : Exchange) : x.SameBut x := ⟨rfl, rfl, rfl⟩

/-- A server that has received two such requests has received the same but for authorization. -/
theorem SameBut.received (h : x.SameBut x') (hr : r.unsigned = r'.unsigned) :
    (x.received r).SameBut (x'.received r') where
  listening := h.listening
  replies := congrArg List.tail h.replies
  sent := by
    show (x.sent ++ [r]).map _ = (x'.sent ++ [r']).map _
    rw [List.map_append, List.map_append, h.sent, List.map_singleton, List.map_singleton, hr]

/-- A key, if there is one, can stand in a header. -/
def Sendable (bearer : Option String) : Prop :=
  ∀ key, bearer = some key → isHeaderText ("Bearer ".toList ++ key.toList) = true

theorem sendable_none : Sendable Option.none := fun _ h => absurd h (by simp)

/-- A key can be sent if it is the text of a header by itself. -/
theorem sendable_some {key : String} (h : isHeaderText key.toList = true) :
    Sendable (some key) := by
  intro key' hkey
  obtain rfl := Option.some.inj hkey
  have hword : isHeaderText "Bearer ".toList = true := by decide
  unfold isHeaderText at hword h ⊢
  rw [List.all_append, hword, h]
  rfl

/-- The header of a key that can be sent is the text of a header. -/
theorem Sendable.all (h : Sendable bearer) :
    (bearer.map fun key => "Bearer ".toList ++ key.toList).all isHeaderText = true := by
  cases bearer with
  | none => rfl
  | some key => exact h key rfl

/-- Requests to one URL differ in their authorization only, if they have the same body. -/
theorem unsigned_message (u : Url) (method : Method) (bearer bearer' body : Option String) :
    (message u method bearer body).unsigned = (message u method bearer' body).unsigned := rfl

/-- **Sending a request.**  Keys that can be sent decide nothing about what is received. -/
theorem SameBut.send (h : x.SameBut x') (hbearer : Sendable bearer) (hbearer' : Sendable bearer')
    (method : Method) (url : String) (body : Option String) :
    ∃ answer after after', x.send method url bearer body = (answer, after) ∧
      x'.send method url bearer' body = (answer, after') ∧ after.SameBut after' := by
  obtain ⟨listening, replies, sent⟩ := x
  obtain ⟨listening', replies', sent'⟩ := x'
  obtain rfl : listening = listening' := h.listening
  obtain rfl : replies = replies' := h.replies
  unfold Exchange.send
  cases Url.parse .ascii url.toList with
  | error e => exact ⟨_, _, _, rfl, rfl, h⟩
  | ok u =>
    have hreaches (v : Url) : reaches ⟨listening, replies, sent⟩ v =
        reaches ⟨listening, replies, sent'⟩ v := rfl
    have hreceived := h.received (unsigned_message u method bearer bearer' body)
    simp only [hbearer.all, hbearer'.all, hreaches, Bool.not_true, Bool.false_eq_true, if_false]
    split_ifs
    · exact ⟨_, _, _, rfl, rfl, h⟩
    · exact ⟨_, _, _, rfl, rfl, h⟩
    · cases replies.headD exhausted with
      | answer status text => exact ⟨_, _, _, rfl, rfl, hreceived⟩
      | close => exact ⟨_, _, _, rfl, rfl, hreceived⟩

end Exchange

end Http

/-! ### Clients -/

namespace ServiceClient

open Http.Exchange

/-- Two clients that differ in their keys only, both of which have one that can be sent, or none. -/
structure Twin (c c' : ServiceClient) : Prop where
  others : { c with apiKey := none } = { c' with apiKey := none }
  kept : c.apiKey.isSome = c'.apiKey.isSome
  sendable : Sendable c.apiKey
  sendable' : Sendable c'.apiKey

variable {c c' : ServiceClient}

/-- For a reader of logs they are the same. -/
theorem Twin.debugText? (h : c.Twin c') : c.debugText? = c'.debugText? := by
  obtain ⟨kind, key, base, model, limit⟩ := c
  obtain ⟨kind', key', base', model', limit'⟩ := c'
  obtain ⟨rfl, -, rfl, rfl, rfl⟩ := ServiceClient.mk.inj h.others
  have hredact : ServiceConfig.redact key = ServiceConfig.redact key' := by
    have hkept : key.isSome = key'.isSome := h.kept
    cases key <;> cases key' <;> first | rfl | simp at hkept
  cases kind with
  | tgi => simp only [ServiceClient.debugText?, hredact]
  | ollama => rfl
  | openai => rfl

/-- **Clients with different keys** cannot be told apart. -/
theorem Twin.backend (h : c.Twin c') : c.backend.Alike SameBut c'.backend := by
  obtain ⟨kind, key, base, model, limit⟩ := c
  obtain ⟨kind', key', base', model', limit'⟩ := c'
  obtain ⟨rfl, -, rfl, rfl, rfl⟩ := ServiceClient.mk.inj h.others
  refine ⟨rfl, rfl, ?checkHealth, ?generate⟩
  case checkHealth =>
    intro x x' hx
    obtain ⟨answer, after, after', hsent, hsent', hafter⟩ :=
      hx.send h.sendable h.sendable' .get (base ++ kind.healthPath) none
    show (checkHealth _ x).Alike SameBut Eq (checkHealth _ x')
    simp only [checkHealth, hsent, hsent']
    cases answer with
    | error e => exact ⟨.refl _, hafter, rfl⟩
    | ok a =>
      dsimp only
      split_ifs <;> exact ⟨.refl _, hafter, rfl⟩
  case generate =>
    intro prompt x x' hx
    obtain ⟨answer, after, after', hsent, hsent', hafter⟩ :=
      hx.send h.sendable h.sendable' .post (base ++ kind.generatePath)
        (some (requestBody ⟨kind, key, base, model, limit⟩ prompt))
    -- neither what is asked for nor what is made of an answer depends on the key
    have hbody : requestBody ⟨kind, key', base, model, limit⟩ prompt =
        requestBody ⟨kind, key, base, model, limit⟩ prompt := rfl
    have hdecoded (a : Http.Answer) : decodeAnswer ⟨kind, key', base, model, limit⟩ a =
        decodeAnswer ⟨kind, key, base, model, limit⟩ a := rfl
    show (generate _ prompt x).Alike SameBut Eq (generate _ prompt x')
    simp only [generate, hbody, hsent, hsent', hdecoded]
    cases answer with
    | error e => cases e <;> exact ⟨.refl _, hafter, rfl⟩
    | ok a =>
      dsimp only
      cases decodeAnswer ⟨kind, key, base, model, limit⟩ a with
      | error e => exact ⟨.refl _, hafter, rfl⟩
      | ok completion => exact ⟨.refl _, hafter, rfl⟩

end ServiceClient

/-! ### Configurations -/

/-- The configuration of a service with a key, whatever its key was. -/
def ServiceConfig.withKey (c : ServiceConfig) (key : String) : ServiceConfig :=
  { c with apiKey := some key }

/-- A configuration with a key, whatever its key was.  Any two configurations that differ in nothing
    but the key that they have are one configuration with either key. -/
def Config.withKey (c : Config) (key : String) : Config :=
  { c with service := c.service.withKey key }

section Keys

open Http.Exchange

variable {key key' : String}

/-- A service that takes a key takes either, and one that takes none takes neither. -/
theorem ServiceKind.keyFor_some (kind : ServiceKind) (hkey : isHeaderText key.toList = true)
    (hkey' : isHeaderText key'.toList = true) (offered offered' : Option String) :
    ∃ taken taken', kind.keyFor (some key) offered = .ok taken ∧
      kind.keyFor (some key') offered' = .ok taken' ∧ taken.isSome = taken'.isSome ∧
        Sendable taken ∧ Sendable taken' := by
  cases kind with
  | tgi => exact ⟨some key, some key', rfl, rfl, rfl, sendable_some hkey, sendable_some hkey'⟩
  | ollama => exact ⟨Option.none, Option.none, rfl, rfl, rfl, sendable_none, sendable_none⟩
  | openai => exact ⟨some key, some key', rfl, rfl, rfl, sendable_some hkey, sendable_some hkey'⟩

/-- **Making a client** goes the same way with either key, whatever the environment offers. -/
theorem ServiceClient.create_withKey (names : Url.DomainNames) (c : ServiceConfig)
    (hkey : isHeaderText key.toList = true) (hkey' : isHeaderText key'.toList = true)
    (offered offered' : Option String) :
    ResultAlike (fun made made' => made.1.Twin made'.1 ∧ made.2 = made'.2)
      (create names (c.withKey key) offered) (create names (c.withKey key') offered') := by
  simp only [create, ServiceConfig.withKey]
  cases ServiceKind.ofName? c.provider with
  | none => exact .failed _
  | some kind =>
    obtain ⟨taken, taken', htaken, htaken', hkept, hsendable, hsendable'⟩ :=
      kind.keyFor_some hkey hkey' offered offered'
    simp only [htaken, htaken']
    cases readEndpoint names kind (c.apiBase.getD kind.usualBase) with
    | error e => exact .failed e
    | ok endpoint => exact .done ⟨⟨rfl, hkept, hsendable, hsendable'⟩, rfl⟩

/-- **The generators** of the configurations cannot be told apart. -/
theorem generatorFor_alike (c : Config) (hkey : isHeaderText key.toList = true)
    (hkey' : isHeaderText key'.toList = true) {s s' : Surroundings} (hnames : s.names = s'.names) :
    (generatorFor s (c.withKey key)).Alike SameBut (generatorFor s' (c.withKey key')) := by
  refine Generator.alike_ofFactory fun _ => ?_
  have hcreate := ServiceClient.create_withKey s.names c.service hkey hkey'
    (s.valueOf? "OPENAI_API_KEY") (s'.valueOf? "OPENAI_API_KEY")
  rw [← hnames]
  exact hcreate.map fun made made' h => ⟨h.1.backend, h.2⟩

/-- An Ollama server is not told the key at all. -/
theorem generatorFor_withKey_of_ollama {c : Config}
    (h : ServiceKind.ofName? c.service.provider = some .ollama) (key key' : String)
    {s s' : Surroundings} (hnames : s.names = s'.names) :
    generatorFor s (c.withKey key) = generatorFor s' (c.withKey key') := by
  have hcreate (key : String) (offered : Option String) :
      ServiceClient.create s.names (c.withKey key).service offered =
        ServiceClient.create s.names (c.withKey "").service none := by
    simp only [ServiceClient.create, Config.withKey, ServiceConfig.withKey, h]
    rfl
  simp only [generatorFor, ← hnames, hcreate]

/-! ### Runs -/

/-- Documenting with either key. -/
theorem Documenter.run_withKey (p : Documenter) (t : FileTree) (x : Exchange) (c : Config)
    (hkey : isHeaderText key.toList = true) (hkey' : isHeaderText key'.toList = true)
    {s s' : Surroundings} (hnames : s.names = s'.names) :
    (p.run ⟨t, generatorFor s (c.withKey key), x⟩).Alike SameBut
      (p.run ⟨t, generatorFor s' (c.withKey key'), x⟩) :=
  p.run_alike ⟨rfl, generatorFor_alike c hkey hkey' hnames, .refl x⟩

/-- Two outcomes of runs that differ in the authorization of what was sent only. -/
structure RunOutcome.SameBut (r r' : RunOutcome) : Prop where
  result : r.result = r'.result
  lines : r.lines = r'.lines
  tree : r.tree = r'.tree
  exchange : r.exchange.SameBut r'.exchange
  warnings : r.warnings = r'.warnings

/-- The options of a request go over the rest of the configuration. -/
theorem RunRequest.apply_withKey (o : RunRequest) (c : Config) (key : String) :
    o.apply (c.withKey key) = (o.apply c).map (·.withKey key) := by
  have hvalidate : (o.override (c.withKey key)).validate = (o.override c).validate := rfl
  unfold apply
  rw [hvalidate]
  cases (o.override c).validate <;> rfl

/-- What is prepared is the configuration with its key under the options, and the project. -/
theorem prepare_of_load {o : RunRequest} {s : Stage} {c : Config}
    (h : Config.load s.surroundings s.tree o.config = .ok (c.withKey key)) :
    prepare o s = (o.apply c >>= fun c => (Project.load s.tree s.surroundings.cwd o.projectPath).map
      fun project => (c.withKey key, project)) := by
  unfold prepare
  rw [h]
  show (o.apply (c.withKey key) >>= _) = _
  rw [o.apply_withKey]
  cases o.apply c with
  | error e => rfl
  | ok c' => cases Project.load s.tree s.surroundings.cwd o.projectPath <;> rfl

/-- A configuration that is applied is the overridden one. -/
theorem RunRequest.eq_override {o : RunRequest} {c c' : Config} (h : o.apply c = .ok c') :
    c' = o.override c := by
  obtain ⟨-, -, h⟩ := bind_eq_ok_iff.mp h
  exact (Except.ok.inj h).symm

/-- **A run with either key.**  The keys may come from different environments, or from different
    files that are named. -/
theorem run_withKey {o : RunRequest} {config' : Option Path} {s : Stage} {environment' : Variables}
    {c : Config} (hkey : isHeaderText key.toList = true) (hkey' : isHeaderText key'.toList = true)
    (hload : Config.load s.surroundings s.tree o.config = .ok (c.withKey key))
    (hload' : Config.load { s.surroundings with environment := environment' } s.tree config' =
      .ok (c.withKey key')) :
    let r := run o s
    let r' := run { o with config := config' }
      { s with surroundings := { s.surroundings with environment := environment' } }
    r.SameBut r' ∧ (ServiceKind.ofName? (o.override c).service.provider = some .ollama →
      r.exchange = r'.exchange) := by
  intro r r'
  have hprepare := prepare_of_load hload
  have hprepare' := prepare_of_load (o := { o with config := config' })
    (s := { s with surroundings := { s.surroundings with environment := environment' } }) hload'
  have happly : ({ o with config := config' } : RunRequest).apply c = o.apply c := rfl
  have hproject : ({ o with config := config' } : RunRequest).projectPath = o.projectPath := rfl
  rw [happly, hproject] at hprepare'
  -- what is prepared has the same project, and a configuration with either key
  unfold r r' run
  rw [hprepare, hprepare']
  cases hc : o.apply c with
  | error e => exact ⟨⟨rfl, rfl, rfl, .refl _, rfl⟩, fun _ => rfl⟩
  | ok c₁ =>
    obtain rfl := RunRequest.eq_override hc
    cases Project.load s.tree s.surroundings.cwd o.projectPath with
    | error e => exact ⟨⟨rfl, rfl, rfl, .refl _, rfl⟩, fun _ => rfl⟩
    | ok project =>
      let p := documenterFor s.surroundings s.tree (o.override c) project
      let i := generatorFor s.surroundings ((o.override c).withKey key)
      let i' := generatorFor { s.surroundings with environment := environment' }
        ((o.override c).withKey key')
      show (if o.dryRun then listJobs s p else doJobs s p i).SameBut
        (if o.dryRun then listJobs s p else doJobs s p i') ∧
          (_ → (if o.dryRun then listJobs s p else doJobs s p i).exchange =
            (if o.dryRun then listJobs s p else doJobs s p i').exchange)
      cases o.dryRun with
      | true => exact ⟨⟨rfl, rfl, rfl, .refl _, rfl⟩, fun _ => rfl⟩
      | false =>
        have hnames : s.surroundings.names =
          ({ s.surroundings with environment := environment' } : Surroundings).names := rfl
        have hrun := p.run_withKey s.tree s.exchange (o.override c) hkey hkey' hnames
        refine ⟨⟨?result, ?lines, hrun.world.tree, hrun.world.state, hrun.warnings⟩, ?ollama⟩
        case result => exact congrArg (Except.map fun _ => ()) hrun.result
        case lines => exact congrArg (List.map Console.eventLine) hrun.events
        case ollama =>
          intro hollama
          have hsame : i = i' := generatorFor_withKey_of_ollama hollama key key' hnames
          rw [hsame]

/-- All that is the same for a configuration with either key. -/
structure KeyHidden (c : Config) (key key' : String) : Prop where
  debugText : (c.withKey key).debugText = (c.withKey key').debugText
  json : (c.withKey key).toJson = (c.withKey key').toJson
  sectionDebugText :
    (c.service.withKey key).sectionDebugText = (c.service.withKey key').sectionDebugText
  sectionJson : (c.service.withKey key).sectionJson = (c.service.withKey key').sectionJson
  serviceDebugText : (c.service.withKey key).debugText = (c.service.withKey key').debugText
  serviceJson : (c.service.withKey key).toJson = (c.service.withKey key').toJson
  /-- The client of the service, which shows its key to no reader of logs. -/
  clients : ∀ (names : Url.DomainNames) (offered offered' : Option String),
    ResultAlike (fun made made' => made.1.debugText? = made'.1.debugText? ∧ made.2 = made'.2)
      (ServiceClient.create names (c.service.withKey key) offered)
      (ServiceClient.create names (c.service.withKey key') offered')
  /-- Documenting a project: what comes of it, what is written, told and warned of. -/
  documents : ∀ (p : Documenter) (t : FileTree) (x : Exchange) (s s' : Surroundings),
    s.names = s'.names →
    (p.run ⟨t, generatorFor s (c.withKey key), x⟩).Alike SameBut
      (p.run ⟨t, generatorFor s' (c.withKey key'), x⟩)
  /-- Nothing at all is different for an Ollama server. -/
  documents_ollama : ServiceKind.ofName? c.service.provider = some .ollama →
    ∀ (p : Documenter) (t : FileTree) (x : Exchange) (s s' : Surroundings), s.names = s'.names →
      p.run ⟨t, generatorFor s (c.withKey key), x⟩ = p.run ⟨t, generatorFor s' (c.withKey key'), x⟩
  /-- Whole runs that load the configuration with either key, from different environments or from
      different files that are named. -/
  runs : ∀ (o : RunRequest) (config' : Option Path) (s : Stage) (environment' : Variables),
    let o' := { o with config := config' }
    let s' := { s with surroundings := { s.surroundings with environment := environment' } }
    Config.load s.surroundings s.tree o.config = .ok (c.withKey key) →
    Config.load s'.surroundings s'.tree o'.config = .ok (c.withKey key') →
      (run o s).SameBut (run o' s') ∧
        (ServiceKind.ofName? (o.override c).service.provider = some .ollama →
          (run o s).exchange = (run o' s').exchange)

/-- **The key shows in nothing but the authorization of requests.**  `KeyHidden c key key'` holds
    for every configuration `c` and any two keys that can stand in a header (`isHeaderText`), and
    so for every project, tree and server. -/
theorem keyHidden (c : Config) {key key' : String} (hkey : isHeaderText key.toList = true)
    (hkey' : isHeaderText key'.toList = true) : KeyHidden c key key' where
  debugText := rfl
  json := rfl
  sectionDebugText := rfl
  sectionJson := rfl
  serviceDebugText := rfl
  serviceJson := rfl
  clients names offered offered' :=
    (ServiceClient.create_withKey names c.service hkey hkey' offered offered').mono
      fun _ _ h => ⟨h.1.debugText?, h.2⟩
  documents p t x _ _ hnames := p.run_withKey t x c hkey hkey' hnames
  documents_ollama h p t x _ _ hnames := by
    rw [generatorFor_withKey_of_ollama h key key' hnames]
  runs _ _ _ _ hload hload' := run_withKey hkey hkey' hload hload'

end Keys

/-! ### Two keys -/

/-- A stage on which the environment has a key. -/
def keyedStage (key : String) : Stage :=
  ⟨{ cwd := [], environment := [("WEAVEDOC_LLM_API_KEY", key)] }, Documenter.sparseTree, Documenter.busyServer⟩

/-- A request for that project. -/
def sparseRequest : RunRequest where
  project := some ⟨"/p/c".toList⟩
  templates := some ⟨"t".toList⟩

/-- The client with that key. -/
def keyedClient (key : String) : ServiceClient := { Documenter.usualClient with apiKey := some key }

section Keyed

variable {key : String}

/-- The key is loaded from the environment. -/
theorem load_keyed
    (h : Config.Usable (keyedStage key).surroundings Documenter.sparseTree none)
    (hvalues : Config.ofValues (Config.effective (keyedStage key).surroundings
      Documenter.sparseTree { config := none }) = Config.default.withKey key) :
    Config.load (keyedStage key).surroundings Documenter.sparseTree none =
      .ok (Config.default.withKey key) := by
  obtain ⟨c, hload, hvalue⟩ := Config.load_of_usable h
  rw [← funext hvalue, c.ofValues_valueOf] at hvalues
  have hvalidate : (Config.default.withKey key).validate = Config.default.validate := rfl
  rw [hload, hvalues, hvalidate]
  rfl

/-- So the jobs of the run are done by a client that has it. -/
theorem run_keyed
    (hload : Config.load (keyedStage key).surroundings Documenter.sparseTree none =
      .ok (Config.default.withKey key))
    (hcreate : ServiceClient.create .ascii (ServiceConfig.default.withKey key) none =
      .ok (keyedClient key, [])) :
    run sparseRequest (keyedStage key) = doJobs (keyedStage key) Documenter.sparse
      (.ofFactory fun _ => .ok ((keyedClient key).backend, [])) := by
  have hsound : sparseRequest.apply .default = .ok (sparseRequest.override .default) := rfl
  have happly : sparseRequest.apply (Config.default.withKey key) =
      .ok ((sparseRequest.override .default).withKey key) := by
    rw [RunRequest.apply_withKey, hsound]
    rfl
  have hproject : Project.load Documenter.sparseTree [] ⟨"/p/c".toList⟩ =
      .ok Documenter.sparse.project := by
    with_unfolding_all rfl
  have hprepare : prepare sparseRequest (keyedStage key) =
      .ok ((sparseRequest.override .default).withKey key, Documenter.sparse.project) := by
    unfold prepare
    exact bind_eq_ok_iff.mpr ⟨_, hload, bind_eq_ok_iff.mpr ⟨_, happly,
      bind_eq_ok_iff.mpr ⟨_, hproject, rfl⟩⟩⟩
  have hgenerator : generatorFor (keyedStage key).surroundings
      ((sparseRequest.override .default).withKey key) =
        .ofFactory fun _ => .ok ((keyedClient key).backend, []) :=
    generatorFor_of_create hcreate
  unfold run
  rw [hprepare, ← hgenerator]
  rfl

/-- Both requests of the run carry it. -/
theorem authorization_keyed
    (hrun : run sparseRequest (keyedStage key) = doJobs (keyedStage key) Documenter.sparse
      (.ofFactory fun _ => .ok ((keyedClient key).backend, [])))
    (hkey : Exchange.isHeaderText key.toList = true) :
    (run sparseRequest (keyedStage key)).exchange.sent.map Request.authorization =
      List.replicate 2
        (some (String.ofList (Exchange.trimHeader ("Bearer ".toList ++ key.toList)))) := by
  have hreach : (keyedClient key).Reaches Documenter.busyServer (Documenter.usualUrl "health")
      (Documenter.usualUrl "generate") :=
    { Documenter.reaches_usual with key := Exchange.sendable_some hkey }
  obtain ⟨f, -, hworld, -⟩ := Documenter.sparse.exists_trace
    (Documenter.clientWorld (keyedClient key) [] Documenter.sparseTree Documenter.busyServer)
  rw [hrun]
  show (Documenter.sparse.run (Documenter.clientWorld (keyedClient key) [] Documenter.sparseTree
    Documenter.busyServer)).world.state.sent.map _ = _
  rw [hworld, Documenter.sent_worldAfter hreach, Documenter.clientWorld,
    Documenter.startedJobs_sparse]
  -- of the two jobs only the one with a template asks for a document
  have hbare : Documenter.sparse.doJob Documenter.bareJob ⟨Documenter.sparseTree,
      .ofFactory fun _ => .ok ((keyedClient key).backend, []), Documenter.busyServer⟩ =
        ⟨.error Documenter.bareReason, ⟨Documenter.sparseTree,
          .ofFactory fun _ => .ok ((keyedClient key).backend, []), Documenter.busyServer⟩, []⟩ :=
    Documenter.doJob_of_resolve rfl
  rw [Documenter.templated, hbare]
  rfl

end Keyed

/-- Two runs with keys of their own, which send them and are the same in everything else. -/
theorem keyHidden_sparse :
    Exchange.isHeaderText "a".toList = true ∧ Exchange.isHeaderText "b".toList = true ∧
      (run sparseRequest (keyedStage "a")).SameBut (run sparseRequest (keyedStage "b")) ∧
      (run sparseRequest (keyedStage "a")).exchange.sent.map Request.authorization =
        [some "Bearer a", some "Bearer a"] ∧
      (run sparseRequest (keyedStage "b")).exchange.sent.map Request.authorization =
        [some "Bearer b", some "Bearer b"] := by
  have ha : Exchange.isHeaderText "a".toList = true := by decide
  have hb : Exchange.isHeaderText "b".toList = true := by decide
  have hload : Config.load (keyedStage "a").surroundings Documenter.sparseTree none =
      .ok (Config.default.withKey "a") := load_keyed (by decide +kernel) (by decide +kernel)
  have hload' : Config.load (keyedStage "b").surroundings Documenter.sparseTree none =
      .ok (Config.default.withKey "b") := load_keyed (by decide +kernel) (by decide +kernel)
  refine ⟨ha, hb, ?_, ?_, ?_⟩
  · exact ((keyHidden .default ha hb).runs sparseRequest none (keyedStage "a")
      (keyedStage "b").surroundings.environment hload hload').1
  · exact authorization_keyed (run_keyed hload (by with_unfolding_all rfl)) ha
  · exact authorization_keyed (run_keyed hload' (by with_unfolding_all rfl)) hb

end DeclarationDocs
