import DeclarationDocs.Proofs.Results
import DeclarationDocs.Proofs.Settings.Merging
import DeclarationDocs.Proofs.Shape.Fitting
import DeclarationDocs.Settings.Load

namespace DeclarationDocs

/-!
# The settings by name

A configuration has eight settings, each of which is a plain value of a section.  A layer is well
typed if what it says of them can be read; what else is in it does not matter.  The configuration in
a layer that is well typed has each setting as the layer says, or its default if the layer says
nothing.

* `ConfigKey`, `Config.valueOf`, `Setting.choice?` — a setting, in a configuration and in a layer;
* `Setting.WellTyped` — a layer that can be read;
* `Setting.extractAt_record` — a record, field by field;
* `Setting.WellTyped.ofSetting` — the configuration in a layer.
-/

/-! ### The names -/

/-- The settings of a configuration. -/
inductive ConfigKey where
  | provider
  | model
  | apiBase
  | apiKey
  | timeoutSecs
  | maxNewTokens
  | templatesDir
  | outputDir
deriving DecidableEq, Repr

namespace ConfigKey

/-- All settings. -/
def all : List ConfigKey :=
  [provider, model, apiBase, apiKey, timeoutSecs, maxNewTokens, templatesDir, outputDir]

theorem mem_all (k : ConfigKey) : k ∈ all := by
  cases k <;> decide

/-- The section that a setting is in. -/
def sectionName : ConfigKey → String
  | templatesDir => "templates"
  | outputDir => "output"
  | _ => "llm"

/-- The name of a setting in its section. -/
def name : ConfigKey → String
  | provider => "provider"
  | model => "model"
  | apiBase => "api_base"
  | apiKey => "api_key"
  | timeoutSecs => "timeout_secs"
  | maxNewTokens => "max_new_tokens"
  | templatesDir => "dir"
  | outputDir => "dir"

/-- What the value of a setting has to look like. -/
def shape : ConfigKey → Shape
  | provider => .text
  | model => .optional .text
  | apiBase => .optional .text
  | apiKey => .optional .text
  | timeoutSecs => .natural 64
  | maxNewTokens => .natural 32
  | templatesDir => .optional .path
  | outputDir => .path

/-- The setting of a name in a section. -/
def ofNames? (sectionName name : String) : Option ConfigKey :=
  all.find? fun k => k.sectionName == sectionName && k.name == name

/-- The settings of a section. -/
def inSection (sectionName : String) : List ConfigKey :=
  all.filter fun k => k.sectionName == sectionName

/-- The keys in a section are those with its name. -/
theorem sectionName_of_mem_inSection {a : String} {k : ConfigKey} (h : k ∈ inSection a) :
    k.sectionName = a := by
  simpa using (List.mem_filter.mp h).2

/-- A key is found by the names of its section and its own. -/
theorem ofNames?_self (k : ConfigKey) : ofNames? k.sectionName k.name = some k := by
  cases k <;> decide

end ConfigKey

/-- A text that may be missing, as a value. -/
def Datum.ofTextOption (s : Option String) : Datum := s.elim .absent fun s => .present (.text s)

/-- What a configuration says of a setting. -/
def Config.valueOf (c : Config) : ConfigKey → Datum
  | .provider => .text c.service.provider
  | .model => .ofTextOption c.service.model
  | .apiBase => .ofTextOption c.service.apiBase
  | .apiKey => .ofTextOption c.service.apiKey
  | .timeoutSecs => .natural c.service.timeoutSecs
  | .maxNewTokens => .natural c.service.maxNewTokens
  | .templatesDir => .ofTextOption (c.templatesDir.map Path.text)
  | .outputDir => .text c.outputDir.text

/-- The configuration of which something is said of every setting. -/
def Config.ofValues (f : ConfigKey → Datum) : Config where
  service :=
    { provider := (f .provider).asText
      model := (f .model).asTextOption
      apiBase := (f .apiBase).asTextOption
      apiKey := (f .apiKey).asTextOption
      timeoutSecs := (f .timeoutSecs).asNatural
      maxNewTokens := (f .maxNewTokens).asNatural }
  templatesDir := (f .templatesDir).asTextOption.map Path.ofString
  outputDir := Path.ofString (f .outputDir).asText

/-- An optional text is read back from its datum. -/
theorem asTextOption_ofTextOption (s : Option String) :
    (Datum.ofTextOption s).asTextOption = s := by
  cases s <;> rfl

theorem Path.text_ofString (s : String) : (Path.ofString s).text = s := String.ofList_toList

theorem Path.ofString_text (p : Path) : Path.ofString p.text = p := by
  unfold ofString text
  rw [String.toList_ofList]

/-- What a configuration says of its settings is all that it is. -/
theorem Config.ofValues_valueOf (c : Config) : ofValues c.valueOf = c := by
  obtain ⟨⟨provider, model, timeoutSecs, apiKey, apiBase, maxNewTokens⟩, templatesDir, outputDir⟩ := c
  unfold ofValues valueOf
  simp only [asTextOption_ofTextOption, Datum.asText, Datum.asNatural, Path.ofString_text]
  cases templatesDir with
  | none => rfl
  | some dir => simp only [Option.map_some, Path.ofString_text]

namespace Setting

/-! ### Plain values -/

/-- The shapes of values without parts. -/
inductive Single : Shape → Prop where
  | text : Single .text
  | path : Single .path
  | natural (bits : Nat) : Single (.natural bits)
  | optional {s : Shape} (h : Single s) : Single (.optional s)

/-- What a key holds is no record and no list. -/
theorem single_shape (k : ConfigKey) : Single k.shape := by
  cases k with
  | provider => exact .text
  | model => exact .optional .text
  | apiBase => exact .optional .text
  | apiKey => exact .optional .text
  | timeoutSecs => exact .natural 64
  | maxNewTokens => exact .natural 32
  | templatesDir => exact .optional .path
  | outputDir => exact .path

variable {s : Shape} {keys keys' : List String} {v : Setting} {d : Datum}

/-- Whether a number is in range depends neither on its key nor on its source. -/
theorem naturalOf_congr {bits : Nat} {w : Setting} {i : Int} (h : naturalOf bits keys v i = .ok d) :
    naturalOf bits keys' w i = .ok d := by
  unfold naturalOf at h ⊢
  split at h
  · rename_i hfits
    rw [if_pos hfits]
    exact h
  · simp at h

/-- A number in range fits its shape. -/
theorem fits_naturalOf {bits : Nat} {i : Int} (h : naturalOf bits keys v i = .ok d) :
    (Shape.natural bits).Fits d := by
  unfold naturalOf at h
  split at h
  · rename_i hbounds
    obtain rfl := Except.ok.inj h
    exact .natural (by omega)
  · simp at h

theorem not_isTable_scalar (o : Origin) (x : Scalar) : ¬ (scalar o x).IsTable := by
  rintro ⟨o', ms, h⟩
  cases h

/-- Where text is wanted, a text is all that is read. -/
theorem eq_text_of_extractAt (hs : s = .text ∨ s = .path) (h : extractAt keys s v = .ok d) :
    ∃ o t, v = scalar o (.text t) ∧ d = .text t := by
  rcases hs with rfl | rfl <;> cases v with
  | list o vs => cases h
  | table o ms => cases h
  | scalar o x =>
    cases x with
    | text t => exact ⟨o, t, rfl, (Except.ok.inj h).symm⟩
    | _ => cases h

/-- A plain value is read in one way wherever it stands, and it is no table. -/
theorem Single.extractAt (hs : Single s) (h : extractAt keys s v = .ok d) (keys' : List String) :
    Setting.extractAt keys' s v = .ok d ∧ s.Fits d ∧ ¬ v.IsTable := by
  induction hs generalizing d with
  | text =>
    obtain ⟨o, t, rfl, rfl⟩ := eq_text_of_extractAt (.inl rfl) h
    exact ⟨h, .text, not_isTable_scalar _ _⟩
  | path =>
    obtain ⟨o, t, rfl, rfl⟩ := eq_text_of_extractAt (.inr rfl) h
    exact ⟨h, .path, not_isTable_scalar _ _⟩
  | natural bits =>
    cases v with
    | list o vs => cases h
    | table o ms => cases h
    | scalar o x =>
      cases x with
      | signed i => exact ⟨naturalOf_congr h, fits_naturalOf h, not_isTable_scalar _ _⟩
      | unsigned n => exact ⟨naturalOf_congr h, fits_naturalOf h, not_isTable_scalar _ _⟩
      | _ => cases h
  | @optional s hs ih =>
    have hpresent (h : (Setting.extractAt keys s v).map Datum.present = .ok d) :
        (Setting.extractAt keys' s v).map Datum.present = .ok d ∧ s.optional.Fits d ∧
          ¬ v.IsTable := by
      obtain ⟨d', hd', rfl⟩ := map_eq_ok_iff.mp h
      obtain ⟨hd, hfits, htable⟩ := ih hd'
      rw [hd]
      exact ⟨rfl, .present hfits, htable⟩
    cases v with
    | list o vs => exact hpresent h
    | table o ms => exact hpresent h
    | scalar o x =>
      cases x with
      | absent =>
        obtain rfl := Except.ok.inj h
        exact ⟨h, .absent, not_isTable_scalar _ _⟩
      | _ => exact hpresent h

/-- A number that is small enough is read as it is. -/
theorem extract_unsigned {bits n : Nat} (h : n < Nat.pow 2 bits) (o : Origin) :
    (scalar o (.unsigned n)).extract (.natural bits) = .ok (.natural n) := by
  show naturalOf bits [] (scalar o (.unsigned n)) n = _
  unfold naturalOf
  rw [if_pos ⟨by omega, by exact_mod_cast h⟩]
  rfl

/-! ### Records -/

section Records

variable {o : Origin} {ms : List (String × Setting)} {fields : List Shape.Field}
  {g : String → Datum}

/-- Each field is extracted from the last member with its name, if there is one. -/
theorem extractMembers_eq (keys : List String) (ms : List (String × Setting))
    (fields : List Shape.Field) :
    extractMembers keys ms fields = fields.filterMap fun f =>
      (ms.lookup f.1).map fun v => (f.1, Setting.extractAt (keys ++ [f.1]) f.2.1 v) := by
  induction fields with
  | nil => rfl
  | cons f fields ih =>
    obtain ⟨k, s, d⟩ := f
    rw [extractMembers, ih, List.filterMap_cons]
    cases ms.lookup k <;> rfl

/-- If every field is extracted, all values are there. -/
theorem values_of_ok {rs : Results} (h : ∀ r ∈ rs, r.2 = .ok (g r.1)) :
    values rs = .ok ((rs.map Prod.fst).map fun k => (k, g k)) := by
  induction rs with
  | nil => rfl
  | cons r rs ih =>
    obtain ⟨k, result⟩ := r
    obtain ⟨hr, hrs⟩ := List.forall_mem_cons.mp h
    obtain rfl : result = .ok (g k) := hr
    rw [values, ih hrs]
    rfl

/-- **A record.**  If every field that is there can be read, the order in which they are read does
    not matter. -/
theorem extractAt_record (name : String)
    (h : ∀ f ∈ fields, ∀ v, ms.lookup f.1 = some v →
      Setting.extractAt (keys ++ [f.1]) f.2.1 v = .ok (g f.1)) :
    Setting.extractAt keys (.record name fields) (.table o ms) = .ok (.record
      (fields.map fun f => ((ms.lookup f.1).map fun _ => g f.1).getD (f.2.2.getD .absent))) := by
  show (values (alphabetical (extractMembers keys ms fields))).map (complete fields) = _
  -- what is read is the same in any order, and is found again by its key
  have hperm : (alphabetical (extractMembers keys ms fields)).Perm
      (extractMembers keys ms fields) := List.mergeSort_perm _ _
  have hmem (r : String × Except SettingFault Datum) :
      r ∈ alphabetical (extractMembers keys ms fields) ↔ ∃ f ∈ fields,
        ∃ v, ms.lookup f.1 = some v ∧ (f.1, Setting.extractAt (keys ++ [f.1]) f.2.1 v) = r := by
    rw [hperm.mem_iff, extractMembers_eq, List.mem_filterMap]
    simp only [Option.map_eq_some_iff]
  have hvalues : values (alphabetical (extractMembers keys ms fields)) =
      .ok (((alphabetical (extractMembers keys ms fields)).map Prod.fst).map fun k => (k, g k)) := by
    refine values_of_ok fun r hr => ?_
    obtain ⟨f, hf, v, hv, rfl⟩ := (hmem r).mp hr
    exact h f hf v hv
  rw [hvalues]
  show Except.ok (complete fields _) = _
  unfold complete
  congr 2
  refine List.map_congr_left fun f hf => ?_
  rw [lookup_map_keys]
  cases hv : ms.lookup f.1 with
  | some v =>
    have hread : f.1 ∈ (alphabetical (extractMembers keys ms fields)).map Prod.fst :=
      List.mem_map.mpr ⟨_, (hmem _).mpr ⟨f, hf, v, hv, rfl⟩, rfl⟩
    rw [if_pos hread]
    rfl
  | none =>
    have hunread : f.1 ∉ (alphabetical (extractMembers keys ms fields)).map Prod.fst := by
      intro hread
      obtain ⟨r, hr, hname⟩ := List.mem_map.mp hread
      obtain ⟨f', -, v, hv', rfl⟩ := (hmem r).mp hr
      have hname : f'.1 = f.1 := hname
      rw [hname, hv] at hv'
      simp at hv'
    rw [if_neg hunread]
    rfl

end Records

/-! ### Layers -/

/-- What a layer says of a setting; nothing if it does not mention it. -/
def choice? (v : Setting) (k : ConfigKey) : Option Datum :=
  (v.at? k.sectionName k.name).bind fun w => (w.extract k.shape).toOption

/-- A layer in which the sections are tables, and what is said of the settings can be read. -/
structure WellTyped (v : Setting) : Prop where
  sections : ∀ k : ConfigKey, ∀ w, v.members.lookup k.sectionName = some w → w.IsTable
  values : ∀ k : ConfigKey, ∀ w, v.at? k.sectionName k.name = some w →
    ∃ d, w.extract k.shape = .ok d

instance : DecidablePred IsTable
  | table o ms => .isTrue ⟨o, ms, rfl⟩
  | scalar o x => .isFalse (not_isTable_scalar o x)
  | list o vs => .isFalse fun ⟨_, _, h⟩ => by cases h

/-- Whether a layer is well typed can be found out setting by setting. -/
theorem wellTyped_iff : v.WellTyped ↔ ∀ k ∈ ConfigKey.all,
    (v.members.lookup k.sectionName).all (fun w => decide w.IsTable) = true ∧
      (v.at? k.sectionName k.name).all (fun w => (w.extract k.shape).toOption.isSome) = true := by
  simp only [Option.all_eq_true, decide_eq_true_eq, Option.isSome_iff_exists, toOption_eq_some_iff]
  constructor
  · exact fun h k _ => ⟨fun w => h.sections k w, fun w => h.values k w⟩
  · exact fun h => ⟨fun k => (h k k.mem_all).1, fun k => (h k k.mem_all).2⟩

instance : Decidable v.WellTyped := decidable_of_iff _ wellTyped_iff.symm

/-- A setting as a layer says, or else its default. -/
def valueOr (v : Setting) (k : ConfigKey) : Datum :=
  (v.choice? k).getD (Config.default.valueOf k)

/-- A setting as a field of its section. -/
def fieldOf (k : ConfigKey) : Shape.Field := (k.name, k.shape, some (Config.default.valueOf k))

/-- What is extracted at the place of a key is its choice. -/
theorem choice?_of_extract {k : ConfigKey} {w : Setting} (hat : v.at? k.sectionName k.name = some w)
    (hd : w.extract k.shape = .ok d) : v.choice? k = some d := by
  unfold choice?
  rw [hat, Option.bind_some, hd]
  rfl

/-- Where nothing is at its place a key has no choice. -/
theorem choice?_of_not_at {k : ConfigKey} (hat : v.at? k.sectionName k.name = none) :
    v.choice? k = none := by
  rw [choice?, hat]
  rfl

/-- Every default fits the shape of its key. -/
theorem fits_default (k : ConfigKey) : k.shape.Fits (Config.default.valueOf k) := by
  cases k with
  | provider => exact .text
  | model => exact .absent
  | apiBase => exact .absent
  | apiKey => exact .absent
  | timeoutSecs => exact .natural (by decide)
  | maxNewTokens => exact .natural (by decide)
  | templatesDir => exact .absent
  | outputDir => exact .path

namespace WellTyped

/-- In well-typed settings whatever is at the place of a key is extracted. -/
theorem extract_at (h : v.WellTyped) {k : ConfigKey} {w : Setting}
    (hat : v.at? k.sectionName k.name = some w) :
    ∃ d, v.choice? k = some d ∧ k.shape.Fits d ∧ ¬ w.IsTable ∧
      ∀ keys, Setting.extractAt keys k.shape w = .ok d := by
  obtain ⟨d, hd⟩ := h.values k w hat
  have hread := (single_shape k).extractAt hd
  exact ⟨d, choice?_of_extract hat hd, (hread []).2.1, (hread []).2.2, fun keys => (hread keys).1⟩

/-- The value of a key, chosen or by default, fits its shape. -/
theorem fits_valueOr (h : v.WellTyped) (k : ConfigKey) : k.shape.Fits (v.valueOr k) := by
  unfold valueOr
  cases hat : v.at? k.sectionName k.name with
  | none =>
    rw [choice?_of_not_at hat]
    exact fits_default k
  | some w =>
    obtain ⟨d, hd, hfits, -⟩ := h.extract_at hat
    rw [hd]
    exact hfits

/-- A section of a layer, whose settings are listed. -/
theorem extractAt_section (h : v.WellTyped) {a : String} {w : Setting}
    (hw : v.members.lookup a = some w) (name : String) {ks : List ConfigKey} (hne : ks ≠ [])
    (hks : ∀ k ∈ ks, k.sectionName = a) :
    Setting.extractAt keys (.record name (ks.map fieldOf)) w = .ok (.record (ks.map v.valueOr)) := by
  have hat (k : ConfigKey) (hk : k ∈ ks) :
      v.at? k.sectionName k.name = w.members.lookup k.name := by
    rw [at?, hks k hk, hw]
    rfl
  -- a section that has a setting is a table
  obtain ⟨k₀, hk₀⟩ := List.exists_mem_of_ne_nil ks hne
  obtain ⟨o, ms, rfl⟩ := h.sections k₀ w (hks k₀ hk₀ ▸ hw)
  rw [extractAt_record (g := fun name =>
    ((ConfigKey.ofNames? a name).bind v.choice?).getD .absent) name ?read]
  case read =>
    intro f hf u hu
    obtain ⟨k, hk, rfl⟩ := List.mem_map.mp hf
    have hself : ConfigKey.ofNames? a k.name = some k := hks k hk ▸ k.ofNames?_self
    obtain ⟨d, hd, -, -, hread⟩ := h.extract_at ((hat k hk).trans hu)
    show Setting.extractAt _ k.shape u =
      .ok (((ConfigKey.ofNames? a k.name).bind v.choice?).getD .absent)
    rw [hself, Option.bind_some, hd]
    exact hread _
  rw [List.map_map]
  congr 2
  refine List.map_congr_left fun k hk => ?_
  have hself : ConfigKey.ofNames? a k.name = some k := hks k hk ▸ k.ofNames?_self
  show ((ms.lookup k.name).map fun _ =>
    ((ConfigKey.ofNames? a k.name).bind v.choice?).getD .absent).getD (Config.default.valueOf k) = _
  rw [hself, Option.bind_some, valueOr]
  have hat' : v.at? k.sectionName k.name = ms.lookup k.name := hat k hk
  cases hu : ms.lookup k.name with
  | none =>
    rw [choice?_of_not_at (hat'.trans hu)]
    rfl
  | some u =>
    obtain ⟨d, hd, -⟩ := h.extract_at (hat'.trans hu)
    rw [hd]
    rfl

/-- A section that is not there has its defaults. -/
theorem valueOr_of_missing {k : ConfigKey} (h : v.members.lookup k.sectionName = none) :
    v.valueOr k = Config.default.valueOf k := by
  rw [valueOr, choice?, at?, h]
  rfl

end WellTyped

/-- The sections of a configuration, with the names of their records. -/
def sectionRecords : List (String × String) :=
  [("llm", "LlmConfig"), ("templates", "TemplatesConfig"), ("output", "OutputConfig")]

/-- A configuration is a record of sections, which are records of their settings. -/
theorem shape_eq : Config.shape = .record "Config" (sectionRecords.map fun a =>
    (a.1, Config.section_ a.2 ((ConfigKey.inSection a.1).map fieldOf))) := by
  rfl

/-- **The whole configuration** in a layer that is well typed. -/
theorem WellTyped.extract (h : v.WellTyped) (htable : v.IsTable) :
    v.extract Config.shape = .ok (.record (sectionRecords.map fun a =>
      .record ((ConfigKey.inSection a.1).map v.valueOr))) := by
  obtain ⟨o, ms, rfl⟩ := htable
  rw [Setting.extract, shape_eq, extractAt_record (g := fun a =>
    .record ((ConfigKey.inSection a).map (table o ms).valueOr)) _ ?read, List.map_map]
  case read =>
    intro f hf w hw
    obtain ⟨a, ha, rfl⟩ := List.mem_map.mp hf
    have hne : ∀ a ∈ sectionRecords, ConfigKey.inSection a.1 ≠ [] := by decide
    exact h.extractAt_section hw a.2 (hne a ha) fun _ => ConfigKey.sectionName_of_mem_inSection
  congr 2
  refine List.map_congr_left fun a _ => ?_
  show ((ms.lookup a.1).map fun _ => _).getD (Datum.record (((ConfigKey.inSection a.1).map fieldOf).map
    fun f => f.2.2.getD .absent)) = _
  cases ha : ms.lookup a.1 with
  | some w => rfl
  | none =>
    show Datum.record _ = _
    rw [List.map_map]
    congr 1
    refine List.map_congr_left fun k hk => (valueOr_of_missing ?_).symm
    rw [ConfigKey.sectionName_of_mem_inSection hk]
    exact ha

end Setting

/-! ### Configurations -/

section Data

variable {d : Datum} {s : Shape}

/-- What fits a text is one. -/
theorem eq_text_of_fits (h : Shape.text.Fits d) : d = .text d.asText := by
  cases h
  rfl

/-- What fits a path is a text. -/
theorem eq_path_of_fits (h : Shape.path.Fits d) : d = .text d.asText := by
  cases h
  rfl

/-- What fits a natural number is one. -/
theorem eq_natural_of_fits {bits : Nat} (h : (Shape.natural bits).Fits d) :
    d = .natural d.asNatural := by
  cases h
  rfl

/-- What fits an optional text is one. -/
theorem eq_ofTextOption_of_fits (h : s.optional.Fits d) (hs : ∀ d, s.Fits d → d = .text d.asText) :
    d = .ofTextOption d.asTextOption := by
  cases h with
  | absent => rfl
  | present h =>
    rw [hs _ h]
    rfl

end Data

/-- **The configuration of a layer** that is well typed has every setting as the layer says, or its
    default. -/
theorem Setting.WellTyped.ofSetting {v : Setting} (h : v.WellTyped) (htable : v.IsTable) :
    ∃ c, Config.ofSetting v = .ok c ∧ ∀ k, c.valueOf k = v.valueOr k := by
  refine ⟨_, by rw [Config.ofSetting, h.extract htable], fun k => ?_⟩
  have hfits := h.fits_valueOr k
  cases k with
  | provider => exact (eq_text_of_fits hfits).symm
  | model => exact (eq_ofTextOption_of_fits hfits fun _ => eq_text_of_fits).symm
  | apiBase => exact (eq_ofTextOption_of_fits hfits fun _ => eq_text_of_fits).symm
  | apiKey => exact (eq_ofTextOption_of_fits hfits fun _ => eq_text_of_fits).symm
  | timeoutSecs => exact (eq_natural_of_fits hfits).symm
  | maxNewTokens => exact (eq_natural_of_fits hfits).symm
  | templatesDir =>
    rw [eq_ofTextOption_of_fits hfits fun _ => eq_path_of_fits]
    show Datum.ofTextOption (((v.valueOr .templatesDir).asTextOption.map Path.ofString).map
      Path.text) = _
    have hid : Path.text ∘ Path.ofString = id := funext Path.text_ofString
    rw [Option.map_map, hid, Option.map_id]
    rfl
  | outputDir =>
    show Datum.text (Path.ofString (v.valueOr .outputDir).asText).text = _
    rw [Path.text_ofString]
    exact (eq_path_of_fits hfits).symm

end DeclarationDocs
