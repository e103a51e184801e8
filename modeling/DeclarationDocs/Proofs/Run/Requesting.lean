import DeclarationDocs.Proofs.Documenter.Asking
import DeclarationDocs.Proofs.Documenter.Lockstep
import DeclarationDocs.Proofs.Service.Requests

namespace DeclarationDocs

open Http

/-!
# The requests of a run

A run with a configured service sends nothing before a job has found its template.  Then it looks
at the service, and from there on each such job is one request, up to the one that fails.

* `ServiceClient.requestsFor` — a look at the service and a request for every prompt;
* `generatorFor_of_create` — the generator of a service whose client can be made;
* `Documenter.run_of_health` — what the service says when it is looked at does not matter;
* `Documenter.run_requests` — `(p.run w).world.state.sent` is what was sent before, with the
  `requestsFor` of the jobs that were `templated` behind it.
-/

/-- The requests for the texts of prompts: none if there are no prompts, and else one to look at the
    service and then one for each prompt. -/
def ServiceClient.requestsFor (c : ServiceClient) (health generation : Url) :
    List String → List Request
  | [] => []
  | prompt :: prompts =>
    c.healthRequest health :: (prompt :: prompts).map (c.textRequest generation)

/-- If the client of a service can be made, the generator makes its backend with every attempt. -/
theorem generatorFor_of_create {s : Surroundings} {c : Config} {client : ServiceClient}
    {warnings : List Warning}
    (hcreate : ServiceClient.create s.names c.service (s.valueOf? "OPENAI_API_KEY") =
      .ok (client, warnings)) :
    generatorFor s c = .ofFactory fun _ => .ok (client.backend, warnings) := by
  rw [generatorFor, hcreate]
  rfl

/-- An exchange that goes on differently, with another reply to the next request. -/
def Http.Exchange.replying (x : Exchange) (reply : Reply) : Exchange :=
  ⟨x.listening, reply :: x.replies.tail, x.sent⟩

namespace Documenter

variable {p : Documenter} {client : ServiceClient} {health generation : Url} {x : Exchange}
  {t : FileTree} {warnings : List Warning}

/-- The world of a run whose client has not been used. -/
def clientWorld (client : ServiceClient) (warnings : List Warning) (t : FileTree) (x : Exchange) :
    World Exchange :=
  ⟨t, .ofFactory fun _ => .ok (client.backend, warnings), x⟩

/-- The requests that jobs lead to when they are done one after the other. -/
theorem sent_worldAfter (hreach : client.Reaches x health generation) (jobs : List Job) :
    (p.worldAfter jobs (clientWorld client warnings t x)).state.sent =
      x.sent ++ client.requestsFor health generation
        ((p.templated jobs (clientWorld client warnings t x)).map promptFor) := by
  rw [clientWorld, worldAfter_eq_of_templated]
  cases p.templated jobs _ with
  | nil => exact (List.append_nil _).symm
  | cons first found =>
    rw [if_neg (by simp)]
    show (client.backend.stateAfter (client.checkHealth x).state _).sent = _
    rw [ServiceClient.checkHealth_state hreach, ServiceClient.sent_stateAfter (hreach.received _)]
    exact List.append_assoc ..

/-- Two worlds that are the same, or in which the service has not been looked at yet and will say
    different things then. -/
def Aside (client : ServiceClient) (warnings : List Warning) (x : Exchange) (reply : Reply)
    (v v' : World Exchange) : Prop :=
  v' = v ∨ v = clientWorld client warnings v.tree x ∧
    v' = clientWorld client warnings v.tree (x.replying reply)

/-- **One job.**  The first one that finds its template makes the worlds the same. -/
theorem Aside.doJob {reply : Reply} {job : Job} {v v' : World Exchange}
    (hreach : client.Reaches x health generation) (h : Aside client warnings x reply v v') :
    (p.doJob job v').result = (p.doJob job v).result ∧
      Aside client warnings x reply (p.doJob job v).world (p.doJob job v').world := by
  rcases h with rfl | ⟨hv, hv'⟩
  · exact ⟨rfl, .inl rfl⟩
  · have htree : v'.tree = v.tree := by rw [hv']; rfl
    cases hresolve : p.templates.resolve v.tree p.cwd job.category with
    | error e =>
      rw [doJob_of_resolve hresolve, doJob_of_resolve (htree ▸ hresolve)]
      exact ⟨rfl, .inr ⟨hv, hv'⟩⟩
    | ok template =>
      -- the look at the service takes the reply away in which the worlds differ
      have hlook : (client.checkHealth (x.replying reply)).state =
          (client.checkHealth x).state := by
        have hreach' : client.Reaches (x.replying reply) health generation :=
          { hreach with
            health_reaches := hreach.health_reaches
            generation_reaches := hreach.generation_reaches }
        rw [ServiceClient.checkHealth_state hreach, ServiceClient.checkHealth_state hreach']
        rfl
      have hreadied : readied v' = readied v := by
        rw [hv, hv']
        show (⟨_, _, (client.checkHealth (x.replying reply)).state⟩ : World Exchange) = _
        rw [hlook]
        rfl
      have hready : (v'.generator.makeReady v'.state).2.result =
          (v.generator.makeReady v.state).2.result := by
        rw [hv, hv']
        rfl
      obtain ⟨hresult, hworld⟩ := doJob_congr hresolve htree hreadied hready
      exact ⟨hresult, .inl hworld⟩

/-- **What the service says when it is looked at** decides nothing about a run but its warnings. -/
theorem run_of_health (p : Documenter) (hreach : client.Reaches x health generation)
    (reply : Reply) :
    let r := p.run (clientWorld client warnings t x)
    let r' := p.run (clientWorld client warnings t (x.replying reply))
    r'.result = r.result ∧ r'.events = r.events ∧ r'.world.tree = r.world.tree ∧
      r'.world.state.sent = r.world.state.sent := by
  intro r r'
  cases hjobs : p.jobs t with
  | error e =>
    have hr : r = ⟨.error e, clientWorld client warnings t x, [], []⟩ := p.run_of_jobs _ hjobs
    have hr' : r' = ⟨.error e, clientWorld client warnings t (x.replying reply), [], []⟩ :=
      p.run_of_jobs _ hjobs
    rw [hr, hr']
    exact ⟨rfl, rfl, rfl, rfl⟩
  | ok q =>
    have hstart : Aside client warnings x reply (clientWorld client warnings t x)
        (clientWorld client warnings t (x.replying reply)) := .inr ⟨rfl, rfl⟩
    obtain ⟨hresult, hevents, -, hworld⟩ := perform_alike (p := p)
      (R := fun _ => Aside client warnings x reply) (fun _ _ _ _ => Aside.doJob hreach) 0 ⟨0, 0⟩
      (q.toList t p.cwd) hstart
    have hr : r = p.perform 0 ⟨0, 0⟩ (q.toList t p.cwd) (clientWorld client warnings t x) :=
      p.run_eq_perform (clientWorld client warnings t x) hjobs
    have hr' : r' = p.perform 0 ⟨0, 0⟩ (q.toList t p.cwd)
        (clientWorld client warnings t (x.replying reply)) :=
      p.run_eq_perform (clientWorld client warnings t (x.replying reply)) hjobs
    rw [← hr, ← hr'] at hresult hevents hworld
    refine ⟨hresult, hevents, ?_⟩
    rcases hworld with hsame | ⟨hleft, hright⟩
    · rw [hsame]
      exact ⟨rfl, rfl⟩
    · rw [hleft, hright]
      exact ⟨rfl, rfl⟩

/-- What `p.run w` asks of the service of `client`, whose `health` and `generation` URLs are
    given. -/
structure Requests (p : Documenter) (client : ServiceClient) (health generation : Url)
    (w : World Exchange) : Prop where
  /-- The run does the jobs of its queue in order and each of them once, up to the first that fails
      for good: every job but that one is told to be completed or skipped. -/
  jobs : ∀ q, p.jobs w.tree = .ok q →
    ∃ f, p.Traced 0 ⟨0, 0⟩ (q.toList w.tree p.cwd) w f (p.run w)
  skips : p.SkipsUntemplated w
  /-- Each of those that finds its template is one request, with the prompt for the template and
      the job; and there is one before the first of them, to look at the service. -/
  sent : (p.run w).world.state.sent = w.state.sent ++ client.requestsFor health generation
    ((p.templated (startedJobs (p.run w).events) w).map promptFor)
  /-- What the service says when it is looked at changes nothing. -/
  aside : ∀ reply,
    let r := p.run { w with state := w.state.replying reply }
    r.result = (p.run w).result ∧ r.events = (p.run w).events ∧
      r.world.tree = (p.run w).world.tree ∧ r.world.state.sent = (p.run w).world.state.sent

/-- **The requests of a run.**  For every configuration `c` whose client can be made
    (`ServiceClient.create`) and reaches the server (`client.Reaches x health generation`), for
    every documenter and tree, and for whatever the server replies. -/
theorem run_requests (p : Documenter) (t : FileTree) {s : Surroundings} {c : Config}
    (hcreate : ServiceClient.create s.names c.service (s.valueOf? "OPENAI_API_KEY") =
      .ok (client, warnings))
    (hreach : client.Reaches x health generation) :
    p.Requests client health generation ⟨t, generatorFor s c, x⟩ := by
  have hskips : p.SkipsUntemplated ⟨t, generatorFor s c, x⟩ :=
    skipsUntemplated (fatal_generatorFor s c)
  rw [generatorFor_of_create hcreate] at hskips ⊢
  refine ⟨?jobs, hskips, ?sent, fun reply => p.run_of_health hreach reply⟩
  case jobs =>
    intro q hq
    rcases p.run_traced (clientWorld client warnings t x) with ⟨e, hs, -⟩ | ⟨s, f, hs, htraced⟩
    · exact absurd (hs.symm.trans hq) (by simp)
    · obtain rfl := Except.ok.inj (hs.symm.trans hq)
      exact ⟨f, htraced⟩
  case sent =>
    obtain ⟨f, -, hworld, -⟩ := p.exists_trace (clientWorld client warnings t x)
    show (p.run (clientWorld client warnings t x)).world.state.sent = _
    rw [hworld]
    exact sent_worldAfter hreach _

/-! ### A server that is not ready -/

/-- The client of the usual service. -/
def usualClient : ServiceClient :=
  ⟨.tgi, none, "http://localhost:8080", "bigcode/starcoder", ServiceConfig.default.maxNewTokens⟩

/-- The URLs of that client. -/
def usualUrl (path : String) : Url :=
  ⟨"http".toList, [], none, "localhost".toList, some 8080, [path.toList], none, none⟩

/-- By default a client of the first service is made, without warnings. -/
theorem create_usual :
    ServiceClient.create .ascii ServiceConfig.default none = .ok (usualClient, []) := by
  with_unfolding_all rfl

/-- A server that is not ready and then answers once. -/
def busyServer : Exchange where
  listening := some ("localhost".toList, 8080)
  replies := [.answer ⟨503⟩ "", .answer ⟨200⟩ "\x7b\"generated_text\":\"A\"\x7d"]
  sent := []

/-- Its server answers at the usual URLs. -/
theorem reaches_usual : usualClient.Reaches busyServer (usualUrl "health") (usualUrl "generate") where
  health_url := by rw [← toOption_eq_some_iff]; decide +kernel
  health_host := by decide
  health_reaches := by decide
  generation_url := by rw [← toOption_eq_some_iff]; decide +kernel
  generation_host := by decide
  generation_reaches := by decide
  key := by simp [usualClient]

/-- Whatever the generator is, both jobs of the project are started. -/
theorem startedJobs_sparse {σ : Type} (generator : Generator σ) (state : σ) :
    startedJobs (sparse.run ⟨sparseTree, generator, state⟩).events = [bareJob, templatedJob] := by
  rw [run_sparse, perform]
  split
  · rfl
  · split <;> rfl

/-- A server that is not ready is asked once, for the job with a template, and after a look at it;
    the job that is skipped sends nothing. -/
theorem run_requests_sparse :
    ServiceClient.create .ascii ServiceConfig.default none = .ok (usualClient, []) ∧
      usualClient.Reaches busyServer (usualUrl "health") (usualUrl "generate") ∧
      (sparse.run ⟨sparseTree, generatorFor ⟨[], [], none, .ascii⟩ .default, busyServer⟩).world.state.sent =
        [usualClient.healthRequest (usualUrl "health"),
          usualClient.textRequest (usualUrl "generate")
            (documentPrompt "" "enum A\x7b\x7d")] := by
  have hrequests := run_requests sparse sparseTree (s := ⟨[], [], none, .ascii⟩) (c := .default) create_usual
    reaches_usual
  refine ⟨create_usual, reaches_usual, ?_⟩
  have hbare : sparse.doJob bareJob ⟨sparseTree, generatorFor ⟨[], [], none, .ascii⟩ .default, busyServer⟩ =
      ⟨.error bareReason, ⟨sparseTree, generatorFor ⟨[], [], none, .ascii⟩ .default, busyServer⟩, []⟩ :=
    doJob_of_resolve rfl
  rw [hrequests.sent, startedJobs_sparse, templated, hbare]
  rfl

end Documenter

end DeclarationDocs
