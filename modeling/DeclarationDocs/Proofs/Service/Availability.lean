import DeclarationDocs.Proofs.Service.Answering

namespace DeclarationDocs

open Http Shape

/-!
# Models that a server has

A look at an Ollama server tells whether it has the model that will be asked for.  The names that it
reports are compared with the name of the model and with its stem, the name without `:latest`, and a
name that merely begins with the stem is enough.  So another model may be taken for it, and the
first request fails.

* `Untagged`, `StandsFor` — which reported names stand for a model;
* `stem`, `stem_eq` — what is left of the name of a model;
* `prefix_iff_tagged` — how a name goes on that begins with a base name;
* `ServiceClient.Hears` — what a client is told; `ServiceClient.checkHealth_of_hears` — what it
  makes of it;
* `ServiceClient.checkHealth_available` — `c.checkHealth x` is `.ok true` just when a reported name
  is `c.model` or begins with `stem c.model`.
-/

/-! ### Taking a text out of another -/

namespace Text

variable {old new s w : List Char} {c : Char}

/-- Where the old text does not occur, nothing is replaced. -/
theorem replaceFrom_eq_self (h : ¬ old <:+: s) : replaceFrom old new 0 s = s := by
  induction s with
  | nil => rfl
  | cons c r ih =>
    have hhere : ¬ old <+: c :: r := fun hp => h hp.isInfix
    have hlater : ¬ old <:+: r := fun hi => h (List.infix_cons hi)
    rw [replaceFrom, if_neg (by simpa [List.isPrefixOf_iff_prefix] using hhere), ih hlater]

/-- What was replaced is passed over. -/
theorem replaceFrom_length (s : List Char) : replaceFrom old new s.length s = [] := by
  induction s with
  | nil => rfl
  | cons c r ih => exact ih

/-- A text that begins with a character of its own is taken off the end of one in which it does not
    occur before. -/
theorem replaceFrom_append_self (hc : c ∉ w) (h : ¬ c :: w <:+: s) :
    replaceFrom (c :: w) [] 0 (s ++ c :: w) = s := by
  induction s with
  | nil =>
    rw [List.nil_append, replaceFrom, if_pos (by simp [List.isPrefixOf_iff_prefix])]
    exact replaceFrom_length w
  | cons x r ih =>
    have hlater : ¬ c :: w <:+: r := fun hi => h (List.infix_cons hi)
    -- an occurrence that reaches into the end would have its first character twice
    have hhere : ¬ c :: w <+: x :: (r ++ c :: w) := by
      rintro ⟨t, ht⟩
      have ht : (c :: w) ++ t = (x :: r) ++ (c :: w) := ht
      rcases List.append_eq_append_iff.mp ht with ⟨mid, hmid, -⟩ | ⟨mid, hmid, hend⟩
      · exact h ⟨[], mid, hmid.symm⟩
      · cases mid with
        | nil => exact h ⟨[], [], by simpa using hmid⟩
        | cons y mid =>
          obtain ⟨rfl, hw⟩ := List.cons.inj hmid
          obtain ⟨rfl, -⟩ := List.cons.inj hend
          exact hc (hw ▸ by simp)
    rw [List.cons_append, replaceFrom,
      if_neg (by simpa [List.isPrefixOf_iff_prefix] using hhere), ih hlater]

end Text

/-! ### Names of models -/

/-- The name has no tag: behind each of its colons there is a slash, as behind a host's port. -/
def Untagged (name : String) : Prop :=
  ∀ before after, name.toList = before ++ ':' :: after → '/' ∈ after

/-- The name stands for the model: it is the name of the model, or, if the model has no tag or the
    tag `latest`, its base name alone or with any tag. -/
def StandsFor (name model : String) : Prop :=
  name = model ∨ ∃ base, Untagged base ∧ (model = base ∨ model = base ++ ":latest") ∧
    (name = base ∨ ∃ tag, name = base ++ ":" ++ tag)

variable {base base' model name : String} {names names' : List String}

/-- A name without a colon has no tag. -/
theorem untagged_of_notMem (h : ':' ∉ name.toList) : Untagged name := by
  intro before after hname
  exact absurd (hname ▸ by simp) h

/-- A name with `:latest` at the end has one. -/
theorem not_untagged_latest : ¬ Untagged (base ++ ":latest") := by
  intro h
  have hslash := h base.toList "latest".toList (by simp)
  exact absurd hslash (by decide)

/-- A model has one base name. -/
theorem base_unique (h : Untagged base) (h' : Untagged base')
    (hmodel : model = base ∨ model = base ++ ":latest")
    (hmodel' : model = base' ∨ model = base' ++ ":latest") : base = base' := by
  rcases hmodel with rfl | rfl <;> rcases hmodel' with heq | heq
  · exact heq
  · exact absurd (heq ▸ h) not_untagged_latest
  · exact absurd (heq ▸ h') not_untagged_latest
  · exact String.append_left_inj _ |>.mp heq

/-- The name of a model as the check looks for it: without `:latest`, wherever that stands. -/
def stem (model : String) : String := Text.replaceAll model ":latest" ""

/-- The stem of a model is its base name, unless that has a `:latest` in it as well. -/
theorem stem_eq (hbase : ¬ ":latest".toList <:+: base.toList)
    (hmodel : model = base ∨ model = base ++ ":latest") : stem model = base := by
  have hreplace : stem model =
      String.ofList (Text.replaceFrom ":latest".toList [] 0 model.toList) := rfl
  rw [hreplace]
  rcases hmodel with rfl | rfl
  · rw [Text.replaceFrom_eq_self hbase, String.ofList_toList]
  · rw [String.toList_append]
    exact (congrArg _ (Text.replaceFrom_append_self (by decide) hbase)).trans String.ofList_toList

/-- A name that begins with another one is that name or goes on behind it. -/
theorem prefix_iff : base.toList <+: name.toList ↔
    name = base ∨ ∃ y more, name.toList = base.toList ++ y :: more := by
  constructor
  · rintro ⟨rest, hrest⟩
    cases rest with
    | nil => exact .inl (String.toList_inj.mp (by simpa using hrest.symm))
    | cons y more => exact .inr ⟨y, more, hrest.symm⟩
  · rintro (rfl | ⟨y, more, hname⟩)
    · exact List.prefix_rfl
    · exact ⟨y :: more, hname.symm⟩

/-- What goes on behind a base name with a colon is a tag. -/
theorem tagged_iff : (∃ tag, name = base ++ ":" ++ tag) ↔
    ∃ more, name.toList = base.toList ++ ':' :: more := by
  constructor
  · rintro ⟨tag, rfl⟩
    exact ⟨tag.toList, by simp⟩
  · rintro ⟨more, hname⟩
    exact ⟨String.ofList more, String.toList_inj.mp (by simp [hname])⟩

/-- A name that begins with a base name is that name, alone or with a tag, or goes on in another
    way. -/
theorem prefix_iff_tagged : base.toList <+: name.toList ↔
    (name = base ∨ ∃ tag, name = base ++ ":" ++ tag) ∨
      ∃ y more, y ≠ ':' ∧ name.toList = base.toList ++ y :: more := by
  rw [prefix_iff, tagged_iff, or_assoc]
  apply or_congr_right
  constructor
  · rintro ⟨y, more, hname⟩
    by_cases hy : y = ':'
    · exact .inl ⟨more, hy ▸ hname⟩
    · exact .inr ⟨y, more, hy, hname⟩
  · rintro (⟨more, hname⟩ | ⟨y, more, -, hname⟩)
    · exact ⟨':', more, hname⟩
    · exact ⟨y, more, hname⟩

/-- The names that stand for a model without a tag, or with the tag `latest`. -/
theorem standsFor_iff (h : Untagged base) (hmodel : model = base ∨ model = base ++ ":latest") :
    StandsFor name model ↔ name = base ∨ ∃ tag, name = base ++ ":" ++ tag := by
  constructor
  · rintro (rfl | ⟨base', h', hmodel', hname⟩)
    · -- the model's own name is its base name or has the tag latest
      refine hmodel.imp_right fun hlatest => ⟨"latest", ?_⟩
      rw [hlatest, String.append_assoc]
      rfl
    · obtain rfl := base_unique h h' hmodel hmodel'
      exact hname
  · exact fun hname => .inr ⟨base, h, hmodel, hname⟩

/-- Only its own name stands for a model with another tag. -/
theorem standsFor_iff_eq (h : ¬ Untagged model) (hlatest : ¬ ":latest".toList <:+: model.toList) :
    StandsFor name model ↔ name = model := by
  refine ⟨?_, .inl⟩
  rintro (rfl | ⟨base, hbase, rfl | rfl, -⟩)
  · rfl
  · exact absurd hbase h
  · exact absurd ⟨base.toList, [], by simp⟩ hlatest

/-! ### Clients -/

/-- The lexemes of a reply that names models. -/
def Reports (names : List String) (ls : List (List Char)) : Prop :=
  Shape.Spells passedOver Json.depthLimit
    (.value ServiceClient.tagsShape (.record [.list (names.map fun n => .record [.text n])])) ls

namespace ServiceClient

open Json (lexemes)

variable {c : ServiceClient} {x : Exchange} {a : Http.Answer}

theorem plain_tagsShape : tagsShape.Plain :=
  .record (List.forall_mem_singleton.mpr (.list (.record (List.forall_mem_singleton.mpr .text))))

/-- **Looking for a model.** -/
theorem hasModel_iff : c.hasModel names = true ↔
    ∃ n ∈ names, n = c.model ∨ (stem c.model).toList <+: n.toList := by
  simp only [hasModel, List.any_eq_true, Bool.or_eq_true, beq_iff_eq, List.isPrefixOf_iff_prefix,
    stem]

/-- The order of the names does not matter. -/
theorem hasModel_perm (h : names.Perm names') : c.hasModel names = c.hasModel names' := by
  rw [Bool.eq_iff_iff, hasModel_iff, hasModel_iff]
  simp only [h.mem_iff]

/-- A model that is found by a base name. -/
theorem hasModel_iff_begins (hstem : stem c.model = base)
    (hmodel : base.toList <+: c.model.toList) :
    c.hasModel names = true ↔ ∃ n ∈ names, base.toList <+: n.toList := by
  rw [hasModel_iff, hstem]
  constructor
  · rintro ⟨n, hn, rfl | hprefix⟩
    · exact ⟨_, hn, hmodel⟩
    · exact ⟨n, hn, hprefix⟩
  · rintro ⟨n, hn, hprefix⟩
    exact ⟨n, hn, .inr hprefix⟩

/-- What a client makes of a reply that names models. -/
theorem judgeHealth_of_reports {body : String} (hkind : c.kind = .ollama)
    (h : Reports names (lexemes body.toList)) :
    c.judgeHealth body =
      if c.hasModel names then (true, []) else (false, [.modelMissing c.model]) := by
  have hread := (read_eq_ok_iff plain_tagsShape).mpr h
  -- reading the fields of the records gives the names back
  have hnames : (names.map fun n => Datum.record [.text n]).map (fun m => (m.field 0).asText) =
      names := by
    rw [List.map_map]
    exact List.map_id names
  unfold judgeHealth
  simp only [hkind, hread]
  exact congrArg (fun ns => if c.hasModel ns then _ else _) hnames

/-- The server that the client asks names these models. -/
def Hears (c : ServiceClient) (x : Exchange) (names : List String) : Prop :=
  ∃ a, (x.send .get (c.apiBase ++ c.kind.healthPath) c.apiKey none).1 = .ok a ∧
    (200 ≤ a.status.code ∧ a.status.code ≤ 299) ∧ Reports names (lexemes a.body.toList)

/-- A client that hears of models looks for its own among them. -/
theorem checkHealth_of_hears (hkind : c.kind = .ollama) (h : c.Hears x names) :
    (c.checkHealth x).result = .ok (c.hasModel names) ∧
      (c.checkHealth x).warnings =
        if c.hasModel names then [] else [.modelMissing c.model] := by
  obtain ⟨a, ha, hstatus, hnames⟩ := h
  unfold checkHealth
  simp only [ha, (isSuccess_iff a.status).mpr hstatus, if_true, judgeHealth_of_reports hkind hnames]
  cases c.hasModel names <;> exact ⟨rfl, rfl⟩

/-- **The model that is asked for.**  If `c.Hears x names`, the check finds `c.model` just when
    some `n ∈ names` is that name or begins with its `stem`.  For a model that is `Untagged` or
    has the tag `latest` that is a name that `StandsFor` it, or one that goes on behind the base
    name with no colon; for a model with another tag, a name that `StandsFor` it, or one that goes
    on behind it.  The order of `names` does not matter. -/
theorem checkHealth_available (hkind : c.kind = .ollama) (h : c.Hears x names) :
    ((c.checkHealth x).result = .ok true ∧ (c.checkHealth x).warnings = [] ∨
      (c.checkHealth x).result = .ok false ∧
        (c.checkHealth x).warnings = [.modelMissing c.model]) ∧
    ((c.checkHealth x).result = .ok true ↔
      ∃ n ∈ names, n = c.model ∨ (stem c.model).toList <+: n.toList) ∧
    (∀ base, Untagged base → ¬ ":latest".toList <:+: base.toList →
      c.model = base ∨ c.model = base ++ ":latest" →
      ((c.checkHealth x).result = .ok true ↔ ∃ n ∈ names, StandsFor n c.model ∨
        ∃ y more, y ≠ ':' ∧ n.toList = base.toList ++ y :: more)) ∧
    (¬ Untagged c.model → ¬ ":latest".toList <:+: c.model.toList →
      ((c.checkHealth x).result = .ok true ↔ ∃ n ∈ names, StandsFor n c.model ∨
        ∃ y more, n.toList = c.model.toList ++ y :: more)) ∧
    ∀ x' names', c.Hears x' names' → names.Perm names' →
      (c.checkHealth x').result = (c.checkHealth x).result := by
  obtain ⟨hresult, hwarnings⟩ := checkHealth_of_hears hkind h
  rw [hresult, hwarnings]
  simp only [Except.ok.injEq]
  refine ⟨?_, hasModel_iff, fun base hbase hlatest hmodel => ?_, fun htag hlatest => ?_,
    fun x' names' h' hperm => ?_⟩
  · cases c.hasModel names <;> simp
  · have hprefix : base.toList <+: c.model.toList := by
      rcases hmodel with heq | heq
      · exact heq ▸ List.prefix_rfl
      · exact ⟨":latest".toList, by simp [heq]⟩
    rw [hasModel_iff_begins (stem_eq hlatest hmodel) hprefix]
    simp only [prefix_iff_tagged, standsFor_iff hbase hmodel]
  · rw [hasModel_iff_begins (stem_eq hlatest (.inl rfl)) List.prefix_rfl]
    simp only [prefix_iff, standsFor_iff_eq htag hlatest]
  · rw [(checkHealth_of_hears hkind h').1, hasModel_perm hperm]

/-- The reply of a server with two models. -/
def twoModels : String :=
  "\x7b\"models\":[\x7b\"name\":\"mistral:7b\"\x7d,\x7b\"name\":\"llama3.1:8b\"\x7d]\x7d"

/-- A server that has it for every request. -/
def twoModelsServer : Exchange :=
  ⟨some ("localhost".toList, 11434), [.answer ⟨200⟩ twoModels], []⟩

/-- A client for a model of that server. -/
def clientFor (model : String) : ServiceClient :=
  ⟨.ollama, none, "http://localhost:11434", model, 16⟩

/-- The client hears of two models. -/
theorem hears_twoModels (model : String) :
    (clientFor model).Hears twoModelsServer ["mistral:7b", "llama3.1:8b"] := by
  have ha : (twoModelsServer.send .get "http://localhost:11434/api/tags" none none).1 =
      .ok ⟨⟨200⟩, twoModels⟩ := by
    rw [← toOption_eq_some_iff]
    decide +kernel
  have hread : tagsShape.read twoModels.toList =
      .ok (.record [.list [.record [.text "mistral:7b"], .record [.text "llama3.1:8b"]]]) := by
    with_unfolding_all rfl
  exact ⟨_, ha, by decide, (read_eq_ok_iff plain_tagsShape).mp hread⟩

/-- One of them, with a tag of its own, stands for the model that is asked for with the tag
    `latest`. -/
theorem checkHealth_available_tagged :
    (clientFor "llama3.1:latest").kind = .ollama ∧
    (clientFor "llama3.1:latest").Hears twoModelsServer ["mistral:7b", "llama3.1:8b"] ∧
    Untagged "llama3.1" ∧ ¬ ":latest".toList <:+: "llama3.1".toList ∧
    StandsFor "llama3.1:8b" "llama3.1:latest" ∧
    ((clientFor "llama3.1:latest").checkHealth twoModelsServer).result = .ok true := by
  have hears := hears_twoModels "llama3.1:latest"
  have hcolon : ':' ∉ "llama3.1".toList := by decide
  have huntagged : Untagged "llama3.1" := untagged_of_notMem hcolon
  have hlatest : ¬ ":latest".toList <:+: "llama3.1".toList := fun hoccurs =>
    hcolon (hoccurs.mem (by decide))
  have hstands : StandsFor "llama3.1:8b" "llama3.1:latest" :=
    (standsFor_iff huntagged (.inr rfl)).mpr (.inr (tagged_iff.mpr ⟨"8b".toList, by simp⟩))
  obtain ⟨-, -, hbase, -⟩ := checkHealth_available rfl hears
  exact ⟨rfl, hears, huntagged, hlatest, hstands,
    (hbase "llama3.1" huntagged hlatest (.inr rfl)).mpr ⟨_, by simp, .inl hstands⟩⟩

/-- None of them stands for the model that is asked for, but the name of one begins in the same
    way. -/
theorem checkHealth_mistaken :
    (clientFor "llama3").Hears twoModelsServer ["mistral:7b", "llama3.1:8b"] ∧
    (∀ n ∈ ["mistral:7b", "llama3.1:8b"], ¬ StandsFor n "llama3") ∧
    ((clientFor "llama3").checkHealth twoModelsServer).result = .ok true ∧
    ((clientFor "llama3").checkHealth twoModelsServer).warnings = [] := by
  have hears := hears_twoModels "llama3"
  have huntagged : Untagged "llama3" := untagged_of_notMem (by decide)
  have hfound : (clientFor "llama3").hasModel ["mistral:7b", "llama3.1:8b"] = true :=
    hasModel_iff.mpr ⟨"llama3.1:8b", by simp, .inr (by decide)⟩
  obtain ⟨hresult, hwarnings⟩ := checkHealth_of_hears rfl hears
  rw [hfound] at hresult hwarnings
  refine ⟨hears, ?_, hresult, hwarnings⟩
  simp only [standsFor_iff huntagged (.inl rfl), tagged_iff]
  simp

end ServiceClient

end DeclarationDocs
