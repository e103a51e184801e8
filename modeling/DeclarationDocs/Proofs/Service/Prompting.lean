import DeclarationDocs.Proofs.Json.Printing
import DeclarationDocs.Proofs.Service.Requests

namespace DeclarationDocs

open Http

/-!
# The prompt in a request

The body of a request is the text of a JSON value, so a reader of JSON finds in it what was put
there: the prompt with all its characters, the limit on generated tokens and the model.

* `ServiceKind.Told` — where each kind of server looks for them;
* `ServiceClient.legible_requestJson` — the value of a request can be read back;
* `ServiceClient.request_told` — so `Json.parse (c.requestBody prompt)` is `Told` what was asked.
-/

/-- What the value of a request tells a server: the prompt, the limit on generated tokens, and the
    model, which an inference server is not asked for. -/
def ServiceKind.Told (k : ServiceKind) (model prompt : String) (limit : Nat) (v : Json) : Prop :=
  match k with
  | .tgi =>
    v.get? "inputs" = some (.string prompt) ∧
      (v.get? "parameters").bind (·.get? "max_new_tokens") = some (.ofNat limit)
  | .ollama =>
    v.get? "prompt" = some (.string prompt) ∧
      (v.get? "options").bind (·.get? "num_predict") = some (.ofNat limit) ∧
      v.get? "model" = some (.string model)
  | .openai =>
    (∃ message, v.get? "messages" = some (.array [message]) ∧
      message.get? "content" = some (.string prompt)) ∧
      v.get? "max_tokens" = some (.ofNat limit) ∧
      v.get? "model" = some (.string model)

namespace ServiceClient

open Json (Legible LegibleItems LegibleMembers depthLimit significandBound)

variable {c : ServiceClient}

/-- The temperature is written as it is read. -/
theorem atom_zero : Json.Atom (.number (.float 0)) (Json.numberText (.float 0)) :=
  Json.atom_word (x := '0') (u := ['.', '0']) (by decide) rfl rfl

/-- **The value of a request can be read back.** -/
theorem legible_requestJson (hlimit : c.maxNewTokens < significandBound) (prompt : String) :
    Legible depthLimit (c.requestJson prompt) := by
  have hnumber : Json.Atom (.number (.int c.maxNewTokens))
      (Json.numberText (.int c.maxNewTokens)) := Json.atom_natural hlimit
  unfold requestJson
  cases c.kind <;>
    simp [Legible, LegibleItems, LegibleMembers, Json.ofNat, hnumber, atom_zero, depthLimit]

/-- The value of a request tells the server what it is asked. -/
theorem told_requestJson (c : ServiceClient) (prompt : String) :
    c.kind.Told c.model prompt c.maxNewTokens (c.requestJson prompt) := by
  unfold requestJson
  cases c.kind <;> simp [ServiceKind.Told, Json.get?, List.lookup_cons]

/-- **What is sent tells the server what it is asked**, whatever characters the prompt has:
    `Json.parse` takes `c.requestBody prompt` for an object that has the prompt, `c.maxNewTokens`
    and `c.model` in their places (`c.kind.Told`).  And `c.generate prompt` sends at most one
    request, which has that body. -/
theorem request_told (c : ServiceClient) (prompt : String)
    (hlimit : c.maxNewTokens < significandBound) :
    (∃ ms, Json.parse (c.requestBody prompt).toList = .ok (.object ms) ∧
      c.kind.Told c.model prompt c.maxNewTokens (.object ms)) ∧
    ∀ x : Exchange, ∃ rs : List Request, (c.generate prompt x).state.sent = x.sent ++ rs ∧
      rs.length ≤ 1 ∧ ∀ r ∈ rs, r.body = c.requestBody prompt := by
  constructor
  · obtain ⟨ms, hms⟩ : ∃ ms, c.requestJson prompt = .object ms := by
      unfold requestJson
      cases c.kind <;> exact ⟨_, rfl⟩
    have hread : Json.parse (c.requestBody prompt).toList = .ok (c.requestJson prompt) := by
      rw [requestBody, Json.text, String.toList_ofList]
      exact Json.parse_print (legible_requestJson hlimit prompt)
    have htold := c.told_requestJson prompt
    rw [hms] at hread htold
    exact ⟨ms, hread, htold⟩
  · intro x
    obtain ⟨rs, hsent, hlength, hrs⟩ := x.exists_send_state .post
      (c.apiBase ++ c.kind.generatePath) c.apiKey (some (c.requestBody prompt))
    rw [state_generate]
    exact ⟨rs, hsent, hlength, fun r hr => (hrs r hr).2⟩

/-- A prompt with a quote, a backslash, a control, a line separator and a character of two halves,
    for the greatest limit there is. -/
theorem request_told_odd :
    let c : ServiceClient := ⟨.openai, some "k", "http://localhost", "a\"b", 4294967295⟩
    c.maxNewTokens < significandBound ∧
    (∃ ms, Json.parse (c.requestBody "\"\\\x00\n\u2028😀").toList = .ok (.object ms) ∧
      ServiceKind.openai.Told "a\"b" "\"\\\x00\n\u2028😀" 4294967295 (.object ms)) ∧
    ∀ x : Exchange, ∃ rs : List Request,
      (c.generate "\"\\\x00\n\u2028😀" x).state.sent = x.sent ++ rs ∧
      rs.length ≤ 1 ∧ ∀ r ∈ rs, r.body = c.requestBody "\"\\\x00\n\u2028😀" := by
  intro c
  have hlimit : c.maxNewTokens < significandBound := by decide
  exact ⟨hlimit, c.request_told "\"\\\x00\n\u2028😀" hlimit⟩

end ServiceClient

end DeclarationDocs
