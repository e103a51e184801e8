import DeclarationDocs.Proofs.Json.Printing
import DeclarationDocs.Proofs.Service.Requests
import DeclarationDocs.Proofs.Shape.Decoding
import DeclarationDocs.Proofs.Shape.Fitting

namespace DeclarationDocs

open Http Shape

/-!
# The text in a reply

Each kind of server has its own shape for a reply.  Where a reply has it, the text of the first
candidate is what comes back, whatever it is, however it is written, and whatever else the reply
holds; every other reply is a failure of the service, which ends the run.

* `ServiceKind.Carries` — the lexemes of a reply with a text as its first candidate;
* `ServiceKind.CarriesNothing` — those of a reply without a first candidate, or without its text;
* `Completion.ofReply_text_iff` — what is taken from a reply is what it carries;
* `ServiceClient.generate_verbatim` — so `c.generate prompt x` gives that text, or fails by an
  `.error (.service f)`.
-/

/-- The lexemes of a reply that has the shape of its kind and a text as its first candidate.  An
    inference server gives one candidate or a list of them. -/
def ServiceKind.Carries (k : ServiceKind) (text : String) (ls : List (List Char)) : Prop :=
  match k with
  | .tgi => ∃ details,
      Shape.Spells readable Json.depthLimit
        (.value Completion.candidateShape (.record [.text text, details])) ls ∨
      ∃ more, Shape.Spells readable Json.depthLimit
        (.value (.list Completion.candidateShape) (.list (.record [.text text, details] :: more))) ls
  | .ollama => ∃ counted generated, Shape.Spells passedOver Json.depthLimit
      (.value Completion.ollamaShape (.record [.text text, counted, generated])) ls
  | .openai => ∃ more usage, Shape.Spells passedOver Json.depthLimit
      (.value Completion.openaiShape
        (.record [.list (.record [.record [.present (.text text)]] :: more), usage])) ls

/-- The lexemes of a reply that has the shape of its kind, but no candidate, or a first one without
    a text, whatever the others have. -/
def ServiceKind.CarriesNothing (k : ServiceKind) (ls : List (List Char)) : Prop :=
  match k with
  | .tgi => Shape.Spells readable Json.depthLimit
      (.value (.list Completion.candidateShape) (.list [])) ls
  | .ollama => False
  | .openai => ∃ usage,
      Shape.Spells passedOver Json.depthLimit
        (.value Completion.openaiShape (.record [.list [], usage])) ls ∨
      ∃ more, Shape.Spells passedOver Json.depthLimit
        (.value Completion.openaiShape
          (.record [.list (.record [.record [.absent]] :: more), usage])) ls

namespace Completion

open Json (lexemes)

variable {body : List Char} {text : String} {d : Datum} {ls : List (List Char)} {n : Nat}

/-! ### The shapes of replies -/

theorem plain_candidateShape : candidateShape.Plain := by
  refine .record (List.forall_mem_cons.mpr ⟨.text, List.forall_mem_singleton.mpr ?_⟩)
  exact .optional (.record (List.forall_mem_singleton.mpr .natural)) (by simp)

theorem settled_candidateShape : candidateShape.Settled := by
  refine .record (List.forall_mem_cons.mpr ⟨.text, List.forall_mem_singleton.mpr ?_⟩) (by decide) ?_
  · exact .optional (.record (List.forall_mem_singleton.mpr .natural) (by decide) (by simp))
  · refine List.forall_mem_cons.mpr ⟨by simp, List.forall_mem_singleton.mpr ?_⟩
    exact fun d hd => Option.some.inj hd ▸ .absent

theorem plain_ollamaShape : ollamaShape.Plain := by
  refine .record (List.forall_mem_cons.mpr ⟨.text, List.forall_mem_cons.mpr
    ⟨?_, List.forall_mem_singleton.mpr ?_⟩⟩)
  · exact .optional .natural (by simp)
  · exact .optional .natural (by simp)

theorem settled_ollamaShape : ollamaShape.Settled := by
  refine .record (List.forall_mem_cons.mpr ⟨.text, List.forall_mem_cons.mpr
    ⟨.optional .natural, List.forall_mem_singleton.mpr (.optional .natural)⟩⟩) (by decide) ?_
  refine List.forall_mem_cons.mpr ⟨by simp, List.forall_mem_cons.mpr
    ⟨?_, List.forall_mem_singleton.mpr ?_⟩⟩
  · exact fun d hd => Option.some.inj hd ▸ .absent
  · exact fun d hd => Option.some.inj hd ▸ .absent

theorem plain_openaiShape : openaiShape.Plain := by
  refine .record (List.forall_mem_cons.mpr ⟨?_, List.forall_mem_singleton.mpr ?_⟩)
  · refine .list (.record (List.forall_mem_singleton.mpr ?_))
    exact .record (List.forall_mem_singleton.mpr (.optional .text (by simp)))
  · refine .optional (.record (List.forall_mem_cons.mpr ⟨.natural, ?_⟩)) (by simp)
    exact List.forall_mem_singleton.mpr .natural

theorem settled_openaiShape : openaiShape.Settled := by
  refine .record (List.forall_mem_cons.mpr ⟨?_, List.forall_mem_singleton.mpr ?_⟩) (by decide)
    (by simp)
  · refine .list (.record (List.forall_mem_singleton.mpr ?_) (by decide) (by simp))
    exact .record (List.forall_mem_singleton.mpr (.optional .text)) (by decide) (by simp)
  · refine .optional (.record (List.forall_mem_cons.mpr ⟨.natural, ?_⟩) (by decide) (by simp))
    exact List.forall_mem_singleton.mpr .natural

/-! ### What fits them -/

/-- A candidate is a text, and details that nobody looks at. -/
theorem exists_of_fits_candidateShape (h : candidateShape.Fits d) :
    ∃ text details, d = .record [.text text, details] := by
  cases h with
  | record h =>
    obtain ⟨a, as, ha, has, rfl⟩ := List.forall₂_cons_left_iff.mp h
    obtain ⟨b, bs, -, hbs, rfl⟩ := List.forall₂_cons_left_iff.mp has
    obtain rfl := List.forall₂_nil_left_iff.mp hbs
    cases ha with
    | text => exact ⟨_, _, rfl⟩

/-- An answer is a text and two counts. -/
theorem exists_of_fits_ollamaShape (h : ollamaShape.Fits d) :
    ∃ text counted generated, d = .record [.text text, counted, generated] := by
  cases h with
  | record h =>
    obtain ⟨a, as, ha, has, rfl⟩ := List.forall₂_cons_left_iff.mp h
    obtain ⟨b, bs, -, hbs, rfl⟩ := List.forall₂_cons_left_iff.mp has
    obtain ⟨c, cs, -, hcs, rfl⟩ := List.forall₂_cons_left_iff.mp hbs
    obtain rfl := List.forall₂_nil_left_iff.mp hcs
    cases ha with
    | text => exact ⟨_, _, _, rfl⟩

/-- A choice has a message, and the message a text or none. -/
theorem exists_of_fits_openaiShape (h : openaiShape.Fits d) : ∃ choices usage,
    d = .record [.list choices, usage] ∧ ∀ choice ∈ choices,
      choice = .record [.record [.absent]] ∨
      ∃ text, choice = .record [.record [.present (.text text)]] := by
  cases h with
  | record h =>
    obtain ⟨a, as, ha, has, rfl⟩ := List.forall₂_cons_left_iff.mp h
    obtain ⟨b, bs, -, hbs, rfl⟩ := List.forall₂_cons_left_iff.mp has
    obtain rfl := List.forall₂_nil_left_iff.mp hbs
    cases ha with
    | @list _ choices hchoices =>
      refine ⟨choices, b, rfl, fun choice hchoice => ?_⟩
      cases hchoices choice hchoice with
      | record hmessage =>
        obtain ⟨m, ms, hm, hms, rfl⟩ := List.forall₂_cons_left_iff.mp hmessage
        obtain rfl := List.forall₂_nil_left_iff.mp hms
        cases hm with
        | record hcontent =>
          obtain ⟨t, ts, ht, hts, rfl⟩ := List.forall₂_cons_left_iff.mp hcontent
          obtain rfl := List.forall₂_nil_left_iff.mp hts
          cases ht with
          | absent => exact Or.inl rfl
          | present ht =>
            cases ht with
            | text => exact Or.inr ⟨_, rfl⟩

/-! ### Inference servers -/

/-- A record begins with a bracket. -/
theorem exists_bracket {name : String} {fs : List Field} {Other : Nat → List (List Char) → Prop}
    (h : Shape.Spells Other n (.value (.record name fs) d) ls) :
    ∃ x rs, ls = [x] :: rs ∧ x ≠ '"' := by
  cases h with
  | array _ _ _ => exact ⟨'[', _, rfl, by decide⟩
  | object _ _ _ => exact ⟨'\x7b', _, rfl, by decide⟩

/-- A candidate is no list of candidates: written as an array it begins with its text, and a list
    with a bracket. -/
theorem not_spells_list {d' : Datum} {Other : Nat → List (List Char) → Prop}
    (h : Shape.Spells Other n (.value candidateShape d) ls)
    (hlist : Shape.Spells Other n (.value (.list candidateShape) d') ls) : False := by
  cases hlist with
  | list _ hitems =>
    cases h with
    | array _ hfields hmore =>
      cases hfields with
      | noField => cases hmore
      | @field _ _ _ _ _ _ _ rs htext _ =>
        cases htext with
        | @text _ _ l hkey =>
          have hhead : l.head? = some '"' := hkey.head
          generalize hls : Json.lead true ++ ([l] ++ rs) = ts at hitems
          cases hitems with
          | noItem =>
            obtain ⟨rfl, -⟩ : l = [']'] ∧ rs = [] := by simpa [Json.lead] using hls
            exact absurd hhead (by decide)
          | item hd _ =>
            obtain ⟨x, rs', rfl, hx⟩ := exists_bracket hd
            obtain ⟨rfl, -⟩ : l = [x] ∧ _ := by simpa [Json.lead] using hls
            exact hx (by simpa using hhead)

theorem height_candidateShape : candidateShape.height ≤ 8 := by decide

theorem height_candidates : (Shape.list candidateShape).height ≤ 8 := by decide

/-- Of a list the first candidate is taken.  The list is tried second, but it is never taken for one
    candidate. -/
theorem ofTgi_of_list {ds : List Datum} (h : Shape.Spells readable Json.depthLimit
      (.value (.list candidateShape) (.list ds)) (lexemes body)) :
    ofTgi body = ds.head?.elim (.error .noCandidates) fun d => .ok (ofCandidate d) := by
  obtain ⟨v, hv⟩ := exists_parse_of_spells (.list plain_candidateShape) h
  have hds := (decode_eq_ok_iff (.list plain_candidateShape) height_candidates hv).mpr h
  cases hone : candidateShape.decode v with
  | error e => cases ds <;> simp [ofTgi, hv, hone, hds, Datum.asList]
  | ok d =>
    have hspells := (decode_eq_ok_iff plain_candidateShape height_candidateShape hv).mp hone
    exact (not_spells_list hspells h).elim

/-- **What an inference server's reply gives is what it carries.** -/
theorem ofTgi_text_iff :
    (∃ t, ofTgi body = .ok t ∧ t.text = text) ↔ ServiceKind.tgi.Carries text (lexemes body) := by
  constructor
  · rintro ⟨t, ht, rfl⟩
    unfold ofTgi at ht
    split at ht
    · cases ht
    rename_i v hv
    split at ht
    · -- the candidate stands alone
      rename_i d hd
      obtain rfl : ofCandidate d = t := by simpa using ht
      have hspells := (decode_eq_ok_iff plain_candidateShape height_candidateShape hv).mp hd
      obtain ⟨text, details, rfl⟩ := exists_of_fits_candidateShape
        (hspells.fits settled_candidateShape)
      exact ⟨details, Or.inl hspells⟩
    · -- a list, of which the first candidate counts
      split at ht
      · cases ht
      rename_i d hd
      have hspells := (decode_eq_ok_iff (.list plain_candidateShape) height_candidates hv).mp hd
      cases hspells.fits (.list settled_candidateShape) with
      | @list _ ds hds =>
        cases ds with
        | nil => cases ht
        | cons d ds =>
          obtain rfl : ofCandidate d = t := by simpa [Datum.asList] using ht
          obtain ⟨text, details, rfl⟩ := exists_of_fits_candidateShape (hds d (by simp))
          exact ⟨details, Or.inr ⟨ds, hspells⟩⟩
  · rintro ⟨details, h | ⟨more, h⟩⟩
    · obtain ⟨v, hv⟩ := exists_parse_of_spells plain_candidateShape h
      have hd := (decode_eq_ok_iff plain_candidateShape height_candidateShape hv).mpr h
      exact ⟨ofCandidate (.record [.text text, details]), by simp [ofTgi, hv, hd], rfl⟩
    · exact ⟨ofCandidate (.record [.text text, details]), ofTgi_of_list h, rfl⟩

/-- A list without candidates gives nothing. -/
theorem ofTgi_of_nothing (h : ServiceKind.tgi.CarriesNothing (lexemes body)) :
    ofTgi body = .error .noCandidates :=
  ofTgi_of_list h

/-! ### Servers whose replies are read as they come -/

/-- **What an Ollama server's reply gives is what it carries.** -/
theorem ofOllama_text_iff :
    (∃ t, ofOllama body = .ok t ∧ t.text = text)
      ↔ ServiceKind.ollama.Carries text (lexemes body) := by
  constructor
  · rintro ⟨t, ht, rfl⟩
    unfold ofOllama at ht
    split at ht
    · cases ht
    rename_i d hd
    have hspells := (read_eq_ok_iff plain_ollamaShape).mp hd
    obtain ⟨text, counted, generated, rfl⟩ := exists_of_fits_ollamaShape
      (hspells.fits settled_ollamaShape)
    obtain rfl := Except.ok.inj ht
    exact ⟨counted, generated, hspells⟩
  · rintro ⟨counted, generated, h⟩
    have hd := (read_eq_ok_iff plain_ollamaShape).mpr h
    have ht : ofOllama body = .ok ⟨text, counted.asOption.elim 0 Datum.asNatural,
        generated.asOption.elim 0 Datum.asNatural⟩ := by
      rw [ofOllama, hd]
      rfl
    exact ⟨_, ht, rfl⟩

/-- **What an OpenAI server's reply gives is what it carries.** -/
theorem ofOpenai_text_iff :
    (∃ t, ofOpenai body = .ok t ∧ t.text = text)
      ↔ ServiceKind.openai.Carries text (lexemes body) := by
  constructor
  · rintro ⟨t, ht, rfl⟩
    unfold ofOpenai at ht
    split at ht
    · cases ht
    rename_i d hd
    have hspells := (read_eq_ok_iff plain_openaiShape).mp hd
    obtain ⟨choices, usage, rfl, hchoices⟩ := exists_of_fits_openaiShape
      (hspells.fits settled_openaiShape)
    cases choices with
    | nil => cases ht
    | cons choice more =>
      rcases hchoices choice (by simp) with rfl | ⟨text, rfl⟩
      · cases ht
      · obtain rfl := Except.ok.inj ht
        exact ⟨more, usage, hspells⟩
  · rintro ⟨more, usage, h⟩
    have hd := (read_eq_ok_iff plain_openaiShape).mpr h
    have ht : ofOpenai body = .ok ⟨text, usage.asOption.elim 0 fun u => (u.field 0).asNatural,
        usage.asOption.elim 0 fun u => (u.field 1).asNatural⟩ := by
      rw [ofOpenai, hd]
      rfl
    exact ⟨_, ht, rfl⟩

/-- Without a first choice, or a text in it, there is nothing, whatever the other choices have. -/
theorem ofOpenai_of_nothing (h : ServiceKind.openai.CarriesNothing (lexemes body)) :
    ofOpenai body = .error .noContent := by
  obtain ⟨usage, h | ⟨more, h⟩⟩ := h
  · rw [ofOpenai, (read_eq_ok_iff plain_openaiShape).mpr h]
    rfl
  · rw [ofOpenai, (read_eq_ok_iff plain_openaiShape).mpr h]
    rfl

/-! ### All kinds -/

/-- **What is taken from a reply is what it carries.** -/
theorem ofReply_text_iff (k : ServiceKind) :
    (∃ t, ofReply k body = .ok t ∧ t.text = text) ↔ k.Carries text (lexemes body) := by
  cases k with
  | tgi => exact ofTgi_text_iff
  | ollama => exact ofOllama_text_iff
  | openai => exact ofOpenai_text_iff

/-- From a reply that carries nothing, nothing is taken. -/
theorem exists_ofReply_of_nothing {k : ServiceKind} (h : k.CarriesNothing (lexemes body)) :
    ∃ e, ofReply k body = .error e := by
  cases k with
  | tgi => exact ⟨_, ofTgi_of_nothing h⟩
  | ollama => exact h.elim
  | openai => exact ⟨_, ofOpenai_of_nothing h⟩

end Completion

/-! ### Clients -/

namespace ServiceClient

open Json (lexemes)

variable {c : ServiceClient} {prompt : String} {x : Exchange} {a : Http.Answer}

/-- A client makes of an answer what its decoder does. -/
theorem generate_result (ha : (x.send .post (c.apiBase ++ c.kind.generatePath) c.apiKey
      (some (c.requestBody prompt))).1 = .ok a) :
    (c.generate prompt x).result = ((c.decodeAnswer a).map c.sign).mapError Failure.service := by
  unfold generate
  simp only [ha]
  cases c.decodeAnswer a <;> rfl

/-- The codes of success are those from 200 to 299. -/
theorem isSuccess_iff (s : Status) : s.isSuccess = true ↔ 200 ≤ s.code ∧ s.code ≤ 299 := by
  simp only [Status.isSuccess, Bool.and_eq_true, decide_eq_true_eq]
  omega

/-- A text is decoded just when the status says success and the body carries it. -/
theorem decodeAnswer_text_iff {text : String} :
    (∃ t, c.decodeAnswer a = .ok t ∧ t.text = text)
      ↔ (200 ≤ a.status.code ∧ a.status.code ≤ 299) ∧ c.kind.Carries text (lexemes a.body.toList) := by
  rw [← isSuccess_iff, ← Completion.ofReply_text_iff]
  unfold decodeAnswer
  cases a.status.isSuccess <;> simp

/-- **The first candidate comes back as it is, and every other reply is a failure of the
    service.**  If the request of `c.generate prompt x` has the reply `a`, the answer is `text`
    just when `a.status` is between 200 and 299 and the `lexemes` of `a.body` carry the text, in
    whatever spelling (`c.kind.Carries`).  Where they carry none, and whatever they carry with
    another status, the result is an `.error (.service f)`, which is not recoverable. -/
theorem generate_verbatim (c : ServiceClient) (prompt : String)
    (ha : (x.send .post (c.apiBase ++ c.kind.generatePath) c.apiKey
      (some (c.requestBody prompt))).1 = .ok a) :
    (∀ text, (∃ g, (c.generate prompt x).result = .ok g ∧ g.content = text) ↔
      (200 ≤ a.status.code ∧ a.status.code ≤ 299) ∧
        c.kind.Carries text (lexemes a.body.toList)) ∧
    (¬ (200 ≤ a.status.code ∧ a.status.code ≤ 299) ∨ c.kind.CarriesNothing (lexemes a.body.toList) ∨
        (∀ text, ¬ c.kind.Carries text (lexemes a.body.toList)) →
      ∃ f, (c.generate prompt x).result = .error (.service f)) ∧
    ∀ e, (c.generate prompt x).result = .error e →
      (∃ f, e = .service f) ∧ e.isRecoverable = false := by
  have hresult := generate_result ha
  have htext : ∀ text, (∃ g, (c.generate prompt x).result = .ok g ∧ g.content = text) ↔
      (200 ≤ a.status.code ∧ a.status.code ≤ 299) ∧
        c.kind.Carries text (lexemes a.body.toList) := by
    intro text
    rw [← decodeAnswer_text_iff, hresult]
    cases c.decodeAnswer a <;> simp [Except.map, Except.mapError, sign]
  have herror : ∀ e, (c.generate prompt x).result = .error e → ∃ f, e = .service f := by
    intro e he
    rw [hresult] at he
    obtain ⟨f, -, hf⟩ := mapError_eq_error_iff.mp he
    exact ⟨f, hf.symm⟩
  refine ⟨htext, fun hnone => ?_, fun e he => ?_⟩
  · cases hr : (c.generate prompt x).result with
    | error e =>
      obtain ⟨f, rfl⟩ := herror e hr
      exact ⟨f, rfl⟩
    | ok g =>
      obtain ⟨hstatus, hcarries⟩ := (htext g.content).mp ⟨g, hr, rfl⟩
      rcases hnone with hnot | hnothing | hnot
      · exact absurd hstatus hnot
      · obtain ⟨t, ht, -⟩ := (Completion.ofReply_text_iff c.kind).mpr hcarries
        obtain ⟨f, hf⟩ := Completion.exists_ofReply_of_nothing hnothing
        rw [ht] at hf
        cases hf
      · exact absurd hcarries (hnot _)
  · obtain ⟨f, rfl⟩ := herror e he
    exact ⟨⟨f, rfl⟩, rfl⟩

/-- Two candidates, the first one with another member in front and an escape in its text. -/
def pairBody : String :=
  "[\x7b\"seed\": 7, \"generated_text\":\"\\u0041\"\x7d,\n \x7b\"generated_text\":\"B\"\x7d]"

/-- The lexemes of that body. -/
theorem lexemes_pairBody : lexemes pairBody.toList =
    ["[", "\x7b", "\"seed\"", ":", "7", ",", "\"generated_text\"", ":", "\"\\u0041\"", "\x7d", ",",
      "\x7b", "\"generated_text\"", ":", "\"B\"", "\x7d", "]"].map String.toList := by
  decide +kernel

/-- The first candidate is the text that it carries. -/
theorem carries_pairBody : ServiceKind.tgi.Carries "A" (lexemes pairBody.toList) := by
  have hfield : Json.Key "generated_text" "\"generated_text\"".toList := Json.key_quoted _
  have hseed : Json.Key "seed" "\"seed\"".toList := Json.key_quoted _
  have hseven : Json.Atom (.number (.int 7)) "7".toList := Json.atom_natural (n := 7) (by decide)
  have hB : Json.Key "B" "\"B\"".toList := Json.key_quoted _
  have hescape : Json.HexEscape "0041".toList 65 :=
    ⟨'0', '0', '4', '1', 0, 0, 4, 1, rfl, rfl, rfl, rfl, rfl, rfl⟩
  have hA : Json.Key "A" "\"\\u0041\"".toList :=
    ⟨_, _, rfl, .unicode (.one hescape (by decide) (by decide)) .quote, rfl⟩
  have hfirst : Shape.Spells readable 127 (.value Completion.candidateShape
      (.record [.text "A", .absent]))
      ("\x7b".toList :: ("\"seed\"".toList :: ":".toList :: (["7".toList] ++ (",".toList ::
        "\"generated_text\"".toList :: ":".toList :: (["\"\\u0041\"".toList] ++ ["\x7d".toList]))))) :=
    .object (by decide) (.unknown hseed rfl ⟨_, .atom hseven⟩
      (.known hfield rfl rfl (.text hA) .noMember)) rfl
  have hsecond : Shape.Spells readable 127 (.value Completion.candidateShape
      (.record [.text "B", .absent]))
      ("\x7b".toList :: ("\"generated_text\"".toList :: ":".toList ::
        (["\"B\"".toList] ++ ["\x7d".toList]))) :=
    .object (by decide) (.known hfield rfl rfl (.text hB) .noMember) rfl
  rw [lexemes_pairBody]
  exact ⟨.absent, Or.inr ⟨_, .list (by decide) (.item hfirst (.item hsecond .noItem))⟩⟩

/-- The text of the first of them is what comes back. -/
theorem generate_verbatim_pair :
    let c : ServiceClient := ⟨.tgi, none, "http://localhost:8080", "m", 16⟩
    let x : Exchange := ⟨some ("localhost".toList, 8080), [.answer ⟨200⟩ pairBody], []⟩
    (x.send .post (c.apiBase ++ c.kind.generatePath) c.apiKey (some (c.requestBody "p"))).1
      = .ok ⟨⟨200⟩, pairBody⟩ ∧
    ∃ g, (c.generate "p" x).result = .ok g ∧ g.content = "A" := by
  intro c x
  have ha : (x.send .post (c.apiBase ++ c.kind.generatePath) c.apiKey
      (some (c.requestBody "p"))).1 = .ok ⟨⟨200⟩, pairBody⟩ := by
    rw [← toOption_eq_some_iff]
    decide +kernel
  exact ⟨ha, ((c.generate_verbatim "p" ha).1 _).mpr ⟨by decide, carries_pairBody⟩⟩

end ServiceClient

end DeclarationDocs
