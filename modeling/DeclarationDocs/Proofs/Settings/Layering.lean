import DeclarationDocs.Proofs.Settings.Extracting
import DeclarationDocs.Proofs.Settings.Naming
import DeclarationDocs.Proofs.Toml.Distinct
import DeclarationDocs.Run

namespace DeclarationDocs

/-!
# The layers of the configuration

The configuration of a run has each setting from the highest layer that says something of it: the
options of the run, a variable of the environment, the file that is named or else the file of the
project, the file of the user, or the defaults.

* `Setting.Layer`, `Setting.choice?_foldl` — layers over one another;
* `Config.levels s t o k` — what the layers say of the setting `k`, and `Config.effective s t o k` —
  what counts;
* `Config.Usable s t o.config` — layers that can be read;
* `Config.Layered`, `Config.load_layered` — the configuration that is loaded has
  `c.valueOf k = effective s t o k` for every `k`.
-/

namespace Setting

/-! ### Layers over one another -/

/-- A layer that can be put over others and be read. -/
structure Layer (v : Setting) : Prop where
  keyed : v.Keyed
  typed : v.WellTyped

section Stack

variable {old new : Setting}

/-- What the upper layer says counts. -/
theorem Layer.at?_merge (hold : old.Layer) (hnew : new.Layer) (k : ConfigKey) :
    (old.merge new).at? k.sectionName k.name =
      (new.at? k.sectionName k.name).or (old.at? k.sectionName k.name) := by
  refine Setting.at?_merge hold.keyed.isTable hnew.keyed (hold.typed.sections k)
    (hnew.typed.sections k) fun w hw => ?_
  obtain ⟨d, -, -, hplain, -⟩ := hnew.typed.extract_at hw
  exact hplain

/-- Two layers merge into one. -/
theorem Layer.merge (hold : old.Layer) (hnew : new.Layer) : (old.merge new).Layer where
  keyed := hold.keyed.merge hnew.keyed
  typed := {
    sections := fun k => isTable_section_merge hold.keyed.isTable hnew.keyed
      (hold.typed.sections k) (hnew.typed.sections k)
    values := by
      intro k w hw
      rw [hold.at?_merge hnew] at hw
      rcases Option.or_eq_some_iff.mp hw with hw | ⟨-, hw⟩
      · exact hnew.typed.values k w hw
      · exact hold.typed.values k w hw }

/-- The choice of the newer layer counts, and else that of the older one. -/
theorem Layer.choice?_merge (hold : old.Layer) (hnew : new.Layer) (k : ConfigKey) :
    (old.merge new).choice? k = (new.choice? k).or (old.choice? k) := by
  have hat := hold.at?_merge hnew k
  -- a key that is there has a value that can be read, so the layer says something of it
  cases hw : new.at? k.sectionName k.name with
  | none =>
    rw [choice?_of_not_at hw, Option.none_or, choice?, hat, hw, Option.none_or, choice?]
  | some w =>
    obtain ⟨d, hd, -⟩ := hnew.typed.extract_at hw
    rw [hd, Option.some_or, choice?, hat, hw, Option.some_or, ← hd, choice?, hw]

/-- **A stack of layers.**  By induction on the layers: the last one that says something counts. -/
theorem layer_foldl {base : Setting} (hbase : base.Layer) {ls : List Setting}
    (hls : ∀ l ∈ ls, l.Layer) :
    (ls.foldl Setting.merge base).Layer ∧ ∀ k, (ls.foldl Setting.merge base).choice? k =
      (ls.reverse.findSome? (·.choice? k)).or (base.choice? k) := by
  induction ls generalizing base with
  | nil => exact ⟨hbase, fun _ => rfl⟩
  | cons l ls ih =>
    obtain ⟨hl, hls⟩ := List.forall_mem_cons.mp hls
    obtain ⟨hlayer, hchoice⟩ := ih (hbase.merge hl) hls
    refine ⟨hlayer, fun k => ?_⟩
    rw [List.foldl_cons, hchoice k, hbase.choice?_merge hl, List.reverse_cons,
      List.findSome?_append, Option.or_assoc]
    congr 1
    rw [List.findSome?_singleton]

end Stack

/-- A table without members says nothing. -/
theorem layer_empty (o : Origin) : (table o []).Layer where
  keyed := ⟨⟨_, _, rfl⟩, distinctKeys_nil, fun _ _ h => absurd h (by simp [members])⟩
  typed := ⟨fun _ _ h => absurd h (by simp [members]), fun _ _ h => absurd h (by simp [at?, members])⟩

/-! ### The defaults -/

theorem keyed_defaults : defaults.Keyed where
  isTable := ⟨_, _, rfl⟩
  keys := by
    show List.Nodup ["llm", "templates", "output"]
    decide
  below := by
    intro k w hw
    have hmem := mem_of_lookup hw
    rcases List.mem_cons.mp hmem with h | hmem
    · obtain ⟨-, rfl⟩ := Prod.mk.inj h
      show List.Nodup ["provider", "model", "api_base", "timeout_secs", "max_new_tokens"]
      decide
    rcases List.mem_cons.mp hmem with h | hmem
    · obtain ⟨-, rfl⟩ := Prod.mk.inj h
      exact distinctKeys_nil.cons rfl _
    · obtain ⟨-, rfl⟩ := Prod.mk.inj (List.mem_singleton.mp hmem)
      exact distinctKeys_nil.cons rfl _

/-- The defaults say what they are, or nothing of a setting that has none. -/
theorem at?_defaults (k : ConfigKey) :
    defaults.at? k.sectionName k.name = none ∨ ∃ w, defaults.at? k.sectionName k.name = some w ∧
      w.extract k.shape = .ok (Config.default.valueOf k) := by
  cases k with
  | apiKey => exact .inl rfl
  | timeoutSecs => exact .inr ⟨_, rfl, extract_unsigned (by decide) .builtIn⟩
  | maxNewTokens => exact .inr ⟨_, rfl, extract_unsigned (by decide) .builtIn⟩
  | _ => exact .inr ⟨_, rfl, rfl⟩

theorem wellTyped_defaults : defaults.WellTyped where
  sections := by
    intro k w hw
    cases k <;> exact ⟨_, _, (Option.some.inj hw).symm⟩
  values := by
    intro k w hw
    rcases at?_defaults k with h | ⟨w', h, hd⟩
    · rw [h] at hw
      cases hw
    · obtain rfl := Option.some.inj (h.symm.trans hw)
      exact ⟨_, hd⟩

/-- The defaults are a layer. -/
theorem layer_defaults : defaults.Layer := ⟨keyed_defaults, wellTyped_defaults⟩

/-- What lies over the defaults counts, and else the defaults. -/
theorem getD_or_defaults (d? : Option Datum) (k : ConfigKey) :
    (d?.or (defaults.choice? k)).getD (Config.default.valueOf k) =
      d?.getD (Config.default.valueOf k) := by
  cases d? with
  | some d => rfl
  | none =>
    rw [Option.none_or]
    rcases at?_defaults k with h | ⟨w, h, hd⟩
    · rw [choice?_of_not_at h]
    · rw [choice?_of_extract h hd]
      rfl

/-! ### Files and variables -/

/-- Members become settings one by one. -/
theorem ofTomlMembers_eq_map (o : Origin) (ms : List (String × Toml)) :
    ofTomlMembers o ms = ms.map fun m => (m.1, ofToml o m.2) := by
  induction ms with
  | nil => rfl
  | cons m ms ih => rw [ofTomlMembers, ih]; rfl

/-- Distinct keys stay distinct. -/
theorem distinctKeys_ofTomlMembers {ms : List (String × Toml)} (h : DistinctKeys ms) (o : Origin) :
    DistinctKeys (ofTomlMembers o ms) := by
  unfold DistinctKeys at h ⊢
  rw [ofTomlMembers_eq_map, List.map_map]
  exact h

/-- The settings of a table with distinct keys have distinct keys. -/
theorem distinctKeys_ofToml {v : Toml} (h : v.Distinct) (o : Origin) :
    DistinctKeys (ofToml o v).members := by
  cases h with
  | table hkeys _ => exact distinctKeys_ofTomlMembers hkeys o
  | _ => exact distinctKeys_nil

/-- The layer in a file has every key once, because its document has. -/
theorem keyed_readLayer {s : Surroundings} {t : FileTree} {p : Path} {v : Setting}
    (h : readLayer s t p = .ok v) : v.Keyed := by
  unfold readLayer at h
  simp only at h
  split at h
  · cases h
  · split at h
    · cases h
    · rename_i ms hparse
      obtain rfl := Except.ok.inj h
      cases Toml.distinct_parse hparse with
      | table hkeys hbelow =>
        refine ⟨⟨_, _, rfl⟩, distinctKeys_ofTomlMembers hkeys _, fun k w hw => ?_⟩
        have hmem := mem_of_lookup hw
        rw [members, ofTomlMembers_eq_map] at hmem
        obtain ⟨m, hm, hpair⟩ := List.mem_map.mp hmem
        obtain ⟨-, rfl⟩ := Prod.mk.inj hpair
        exact distinctKeys_ofToml (hbelow m hm) _

/-- What an environment says of a setting: what the last of its variables says that sets it. -/
theorem choice?_ofVariables {vs : Variables}
    (h : ∀ x ∈ vs, ∀ v, variableLayer? x = some v → v.WellTyped) :
    (ofVariables vs).Layer ∧ ∀ k, (ofVariables vs).choice? k =
      vs.reverse.findSome? fun x => (variableLayer? x).bind (·.choice? k) := by
  have hls : ∀ l ∈ vs.filterMap variableLayer?, l.Layer := by
    intro l hl
    obtain ⟨x, hx, hlayer⟩ := List.mem_filterMap.mp hl
    exact ⟨keyed_variableLayer hlayer, h x hx l hlayer⟩
  obtain ⟨hlayer, hchoice⟩ := layer_foldl (layer_empty .environment) hls
  rw [ofVariables_eq_foldl]
  refine ⟨hlayer, fun k => ?_⟩
  have hempty : (table .environment []).choice? k = none := rfl
  rw [hchoice k, hempty, Option.or_none, ← List.filterMap_reverse, findSome?_filterMap]

end Setting

/-! ### What counts -/

/-- What the options of a run say of a setting; they say something of four of them. -/
def RunRequest.choice? (o : RunRequest) : ConfigKey → Option Datum
  | .provider => o.provider.map .text
  | .model => o.model.map fun m => .present (.text m)
  | .templatesDir => o.templates.map fun p => .present (.text p.text)
  | .outputDir => o.output.map fun p => .text p.text
  | _ => none

/-- A request that only names a file says nothing itself. -/
theorem RunRequest.choice?_of_config (named : Option Path) (k : ConfigKey) :
    RunRequest.choice? { config := named } k = none := by
  cases k <;> rfl

/-- The options go over the configuration. -/
theorem RunRequest.valueOf_override (o : RunRequest) (c : Config) (k : ConfigKey) :
    (o.override c).valueOf k = (o.choice? k).getD (c.valueOf k) := by
  obtain ⟨-, -, output, templates, provider, model, -⟩ := o
  cases k with
  | provider => cases provider <;> rfl
  | model => cases model <;> rfl
  | templatesDir => cases templates <;> rfl
  | outputDir => cases output <;> rfl
  | _ => rfl

/-- The layer in a file, if it is there and can be read. -/
def fileLayer? (s : Surroundings) (t : FileTree) (p : Path) : Option Setting :=
  if t.isFile s.cwd p then (readLayer s t p).toOption else none

namespace Config

/-- The file that is a layer besides the one of the user: the one that is named, or else the one of
    the project. -/
def chosenFile (named : Option Path) : Path := named.getD projectFile

/-- What each layer says of a setting, the highest first. -/
def levels (s : Surroundings) (t : FileTree) (o : RunRequest) (k : ConfigKey) :
    List (Option Datum) :=
  [o.choice? k,
   s.environment.reverse.findSome? fun x => (Setting.variableLayer? x).bind (·.choice? k),
   (fileLayer? s t (chosenFile o.config)).bind (·.choice? k),
   (userFile? s).bind fun p => (fileLayer? s t p).bind (·.choice? k)]

/-- What counts for a setting: the highest layer that says something of it, or its default. -/
def effective (s : Surroundings) (t : FileTree) (o : RunRequest) (k : ConfigKey) : Datum :=
  ((levels s t o k).findSome? id).getD (default.valueOf k)

/-- The files that may be layers, the lowest first. -/
def candidates (s : Surroundings) (named : Option Path) : List Path :=
  (userFile? s).toList ++ [chosenFile named]

/-- Layers that can be used: a file that is named is there, and every file and every variable can be
    read and is well typed. -/
structure Usable (s : Surroundings) (t : FileTree) (named : Option Path) : Prop where
  there : ∀ p, named = some p → t.isFile s.cwd p = true
  files : ∀ p ∈ candidates s named, t.isFile s.cwd p = true →
    ∃ v, readLayer s t p = .ok v ∧ v.WellTyped
  environment : ∀ x ∈ s.environment, ∀ v, Setting.variableLayer? x = some v → v.WellTyped

/-- Whether a configuration is `Usable` can be computed. -/
theorem usable_iff {s : Surroundings} {t : FileTree} {named : Option Path} : Usable s t named ↔
    (∀ p ∈ named, t.isFile s.cwd p = true) ∧
      (∀ p ∈ candidates s named, t.isFile s.cwd p = true →
        (readLayer s t p).toOption.any (fun v => decide v.WellTyped) = true) ∧
      ∀ x ∈ s.environment,
        (Setting.variableLayer? x).all (fun v => decide v.WellTyped) = true := by
  simp only [Option.any_eq_true, Option.all_eq_true, decide_eq_true_eq, toOption_eq_some_iff,
    Option.mem_def]
  exact ⟨fun h => ⟨h.there, h.files, h.environment⟩, fun h => ⟨h.1, h.2.1, h.2.2⟩⟩

instance (s : Surroundings) (t : FileTree) (named : Option Path) : Decidable (Usable s t named) :=
  decidable_of_iff _ usable_iff.symm

section Load

variable {s : Surroundings} {t : FileTree} {o : RunRequest} {named : Option Path}

/-- The files that are read are the candidates that are there. -/
theorem layerFiles_of_usable (h : Usable s t named) :
    layerFiles s t named = .ok ((candidates s named).filter (t.isFile s.cwd)) := by
  unfold layerFiles candidates
  cases named with
  | none => rw [List.filter_append]; rfl
  | some p =>
    have hp := h.there p rfl
    rw [List.filter_append]
    show (if _ then _ else _) = Except.ok (_ ++ [p].filter _)
    rw [if_pos hp, List.filter_cons_of_pos hp]
    rfl

/-- The files that are there are read into their layers. -/
theorem map_readLayer (ps : List Path)
    (h : ∀ p ∈ ps, t.isFile s.cwd p = true → ∃ v, readLayer s t p = .ok v ∧ v.WellTyped) :
    (ps.filter (t.isFile s.cwd)).map (readLayer s t) =
        (ps.filterMap (fileLayer? s t)).map .ok ∧
      ∀ l ∈ ps.filterMap (fileLayer? s t), l.Layer := by
  induction ps with
  | nil => exact ⟨rfl, by simp⟩
  | cons p ps ih =>
    obtain ⟨hp, hps⟩ := List.forall_mem_cons.mp h
    obtain ⟨hmap, hlayers⟩ := ih hps
    by_cases hfile : t.isFile s.cwd p = true
    · obtain ⟨v, hread, htyped⟩ := hp hfile
      have hlayer : fileLayer? s t p = some v := by
        rw [fileLayer?, if_pos hfile, hread]
        rfl
      rw [List.filter_cons_of_pos hfile, List.filterMap_cons_some hlayer, List.map_cons, hmap, hread]
      exact ⟨rfl, List.forall_mem_cons.mpr ⟨⟨Setting.keyed_readLayer hread, htyped⟩, hlayers⟩⟩
    · have hlayer : fileLayer? s t p = none := by rw [fileLayer?, if_neg hfile]
      rw [List.filter_cons_of_neg hfile, List.filterMap_cons_none hlayer]
      exact ⟨hmap, hlayers⟩

/-- Layers that were read are merged from the first one to the last one. -/
theorem mergeLayers_map_ok (base : Setting) (ls : List Setting) :
    mergeLayers base (ls.map .ok) = .ok (ls.foldl Setting.merge base) := by
  unfold mergeLayers
  induction ls generalizing base with
  | nil => rfl
  | cons l ls ih => exact ih (base.merge l)

/-- The chosen file comes before the one of the user. -/
theorem findSome?_candidates (s : Surroundings) (named : Option Path) (f : Path → Option Datum) :
    (candidates s named).reverse.findSome? f =
      (f (chosenFile named)).or ((userFile? s).bind f) := by
  rw [candidates, List.reverse_append, List.reverse_singleton, List.singleton_append,
    List.findSome?_cons]
  cases f (chosenFile named) with
  | some d => rfl
  | none =>
    cases userFile? s with
    | none => rfl
    | some p => exact List.findSome?_singleton

/-- The effective value is the first choice among flags, variables and the two files, or the
    default. -/
theorem effective_eq_or (s : Surroundings) (t : FileTree) (o : RunRequest) (k : ConfigKey) :
    effective s t o k = ((o.choice? k).or (Option.or
      (s.environment.reverse.findSome? fun x => (Setting.variableLayer? x).bind (·.choice? k))
      (((fileLayer? s t (chosenFile o.config)).bind (·.choice? k)).or
        ((userFile? s).bind fun p => (fileLayer? s t p).bind (·.choice? k))))).getD
          (default.valueOf k) := by
  have hcons (d? : Option Datum) (ds : List (Option Datum)) :
      (d? :: ds).findSome? id = d?.or (ds.findSome? id) := by
    cases d? <;> rfl
  rw [effective, levels, hcons, hcons, hcons, hcons, List.findSome?_nil, Option.or_none]

/-- The configuration that the layers come to, before it is judged. -/
def stack (s : Surroundings) (t : FileTree) (named : Option Path) : Except Failure Config := do
  let files ← layerFiles s t named
  let merged ← (mergeLayers Setting.defaults (files.map (readLayer s t))).mapError
    fun fs => .config (.unreadable fs)
  ofSetting (merged.merge (Setting.ofVariables s.environment))

/-- What the layers come to is loaded, if it makes sense. -/
theorem load_eq_stack (s : Surroundings) (t : FileTree) (named : Option Path) :
    load s t named = (stack s t named >>= fun c => c.validate.map fun _ => c) := by
  unfold load stack
  cases layerFiles s t named with
  | error e => rfl
  | ok files =>
    simp only [bind, Except.bind]
    cases mergeLayers Setting.defaults (files.map (readLayer s t)) with
    | error fs => rfl
    | ok merged =>
      simp only [Except.mapError]
      cases ofSetting (merged.merge (Setting.ofVariables s.environment)) with
      | error e => rfl
      | ok c => cases hc : c.validate <;> simp only [hc, Except.map]

/-- Layers that can be used come to what counts. -/
theorem stack_of_usable (h : Usable s t named) : ∃ c : Config,
    stack s t named = .ok c ∧ ∀ k, c.valueOf k = effective s t { config := named } k := by
  obtain ⟨hmap, hlayers⟩ := map_readLayer (candidates s named) h.files
  obtain ⟨hmerged, hchoice⟩ := Setting.layer_foldl Setting.layer_defaults hlayers
  obtain ⟨hvariables, hset⟩ := Setting.choice?_ofVariables h.environment
  -- the variables lie over the files, and those over the defaults
  have hlayer := hmerged.merge hvariables
  obtain ⟨c, hc, hvalue⟩ := hlayer.typed.ofSetting hlayer.keyed.isTable
  refine ⟨c, ?stack, fun k => ?value⟩
  case stack =>
    have hread : mergeLayers Setting.defaults
        (((candidates s named).filter (t.isFile s.cwd)).map (readLayer s t)) = .ok _ :=
      hmap ▸ mergeLayers_map_ok _ _
    simp only [stack, layerFiles_of_usable h, hread, hc, bind, Except.bind, Except.mapError]
  case value =>
    rw [hvalue, Setting.valueOr, hmerged.choice?_merge hvariables, hset, hchoice,
      ← List.filterMap_reverse, findSome?_filterMap, findSome?_candidates, ← Option.or_assoc,
      Setting.getD_or_defaults, effective_eq_or, RunRequest.choice?_of_config, Option.none_or]

/-- **Loading** merges the layers that can be used, and answers with what counts if that makes
    sense. -/
theorem load_of_usable (h : Usable s t named) : ∃ c : Config,
    load s t named = (c.validate.map fun _ => c) ∧
      ∀ k, c.valueOf k = effective s t { config := named } k := by
  obtain ⟨c, hstack, hvalue⟩ := stack_of_usable h
  exact ⟨c, by rw [load_eq_stack, hstack]; rfl, hvalue⟩

theorem effective_of_override {c : Config}
    (h : ∀ k, c.valueOf k = effective s t { config := o.config } k) (k : ConfigKey) :
    (o.override c).valueOf k = effective s t o k := by
  rw [RunRequest.valueOf_override, h, effective_eq_or, effective_eq_or,
    RunRequest.choice?_of_config, Option.none_or]
  cases o.choice? k <;> rfl

/-- The options go over what is loaded, and are refused only if the whole makes no sense. -/
theorem apply_eq (o : RunRequest) (c : Config) :
    o.apply c = (o.override c).validate.map fun _ => o.override c := by
  unfold RunRequest.apply
  cases (o.override c).validate <;> rfl

/-- A run works with what counts, if it works at all. -/
theorem valueOf_of_usable {c : Config} (h : Usable s t o.config)
    (hc : (load s t o.config >>= o.apply) = .ok c) (k : ConfigKey) :
    c.valueOf k = effective s t o k := by
  obtain ⟨c₀, hload, hvalue⟩ := load_of_usable h
  obtain ⟨c₁, hc₁, happly⟩ := bind_eq_ok_iff.mp hc
  rw [hload] at hc₁
  obtain ⟨-, -, rfl⟩ := map_eq_ok_iff.mp hc₁
  rw [apply_eq] at happly
  obtain ⟨-, -, rfl⟩ := map_eq_ok_iff.mp happly
  exact effective_of_override hvalue k

/-- A named file and the one of the user are all that is looked at. -/
theorem load_congr {p : Path} {t' : FileTree}
    (h : ∀ q ∈ candidates s (some p), t'.isFile s.cwd q = t.isFile s.cwd q ∧
      t'.readText s.cwd q = t.readText s.cwd q) :
    load s t' (some p) = load s t (some p) := by
  have hnamed (t : FileTree) : layerFiles s t (some p) =
      if t.isFile s.cwd p then .ok ((userFile? s).toList.filter (t.isFile s.cwd) ++ [p])
      else .error (.config (.fileNotFound p)) := rfl
  have hfilter : (userFile? s).toList.filter (t'.isFile s.cwd) =
      (userFile? s).toList.filter (t.isFile s.cwd) :=
    List.filter_congr fun q hq => (h q (List.mem_append_left _ hq)).1
  have hread : ((userFile? s).toList.filter (t.isFile s.cwd) ++ [p]).map (readLayer s t') =
      ((userFile? s).toList.filter (t.isFile s.cwd) ++ [p]).map (readLayer s t) := by
    refine List.map_congr_left fun q hq => ?_
    have hcandidate : q ∈ candidates s (some p) := by
      rcases List.mem_append.mp hq with hq | hq
      · exact List.mem_append_left _ (List.mem_of_mem_filter hq)
      · exact List.mem_append_right _ hq
    rw [readLayer, (h q hcandidate).2, readLayer]
  unfold load
  rw [hnamed, hnamed, hfilter, (h p (List.mem_append_right _ (List.mem_singleton_self p))).1]
  cases t.isFile s.cwd p with
  | false => rfl
  | true =>
    simp only [if_true, bind, Except.bind, hread]

end Load

/-- What holds of the layers of the run that `o` asks for, with the settings that are
    `effective`. -/
structure Layered (s : Surroundings) (t : FileTree) (o : RunRequest) : Prop where
  /-- What is loaded has each setting from the highest layer that sets it, and so it has under the
      options; it is refused only if it makes no sense. -/
  values : ∃ c c' : Config,
    load s t o.config = (c.validate.map fun _ => c) ∧ o.apply c = (c'.validate.map fun _ => c') ∧
      (∀ k, c.valueOf k = effective s t { config := o.config } k) ∧
      ∀ k, c'.valueOf k = effective s t o k
  /-- No setting depends on what is said of others: it is the same in any two runs whose layers say
      the same of it. -/
  independent : ∀ (s' : Surroundings) (t' : FileTree) (o' : RunRequest), Usable s' t' o'.config →
    ∀ k, levels s t o k = levels s' t' o' k → ∀ c c', (load s t o.config >>= o.apply) = .ok c →
      (load s' t' o'.config >>= o'.apply) = .ok c' → c.valueOf k = c'.valueOf k
  /-- If a file is named, the one of the project has no influence at all. -/
  elsewhere : ∀ p, o.config = some p → ∀ t' : FileTree,
    (∀ q ∈ (userFile? s).toList ++ [p], t'.isFile s.cwd q = t.isFile s.cwd q ∧
      t'.readText s.cwd q = t.readText s.cwd q) →
    load s t' o.config = load s t o.config
  /-- A variable sets the key of the section that its name stands for, and nothing else. -/
  names : ∀ (a b : List Char) (text : String), Setting.NamePart a → '_' ∉ a →
    Setting.NamePart b → ∃ v,
      Setting.variableLayer? (String.ofList ("WEAVEDOC_".toList ++ (a ++ '_' :: b)), text) = some v ∧
      ∀ sectionName key, v.at? sectionName key =
        if sectionName = String.ofList (Text.lowerAscii a) ∧
            key = String.ofList (Text.lowerAscii b) then some (Setting.ofVariableText text)
        else none

/-- **The layers of a run.**  `Layered s t o` holds for all files, variables and options that can
    be used (`Usable s t o.config`). -/
theorem load_layered {s : Surroundings} {t : FileTree} {o : RunRequest}
    (h : Usable s t o.config) : Layered s t o where
  values := by
    obtain ⟨c, hload, hvalue⟩ := load_of_usable h
    refine ⟨c, o.override c, hload, apply_eq o c, hvalue, effective_of_override hvalue⟩
  independent := by
    intro s' t' o' h' k hlevels c c' hc hc'
    rw [valueOf_of_usable h hc, valueOf_of_usable h' hc', effective, hlevels]
    rfl
  elsewhere := by
    intro p hp t' hsame
    rw [hp]
    exact load_congr hsame
  names := by
    intro a b text ha hunderscore hb
    have hname := Setting.keysOf?_name ha hunderscore hb
    refine ⟨_, ?_, fun sectionName key => Setting.at?_nest _ _ sectionName key _⟩
    rw [Setting.variableLayer?]
    exact congrArg (Option.map _) hname

/-! ### Five layers -/

/-- A tree with a file of the user and a file of the project, which agree on nothing. -/
def stackedTree : FileTree :=
  ⟨[(["x".toList], .directory),
    (["x".toList, "weavedoc".toList], .directory),
    (["x".toList, "weavedoc".toList, "config.toml".toList],
      .file (.text "[llm]\nmodel = \"u\"\ntimeout_secs = 1\n")),
    ([".weavedoc.toml".toList], .file (.text "llm.model = \"p\""))]⟩

/-- Variables for a key and for a directory. -/
def stackedSurroundings : Surroundings where
  cwd := []
  environment :=
    [("XDG_CONFIG_HOME", "/x"), ("WEAVEDOC_LLM_API_KEY", "k"), ("WEAVEDOC_OUTPUT_DIR", "e")]

/-- What counts there, with a service. -/
def stackedConfig (provider : String) : Config :=
  ⟨⟨provider, some "p", 1, some "k", none, 1024⟩, none, ⟨"e".toList⟩⟩

/-- Every layer has its part in what counts: the limit on time comes from the user, the model from
    the project, the key and the directory from the environment, and the service from the
    options. -/
theorem load_layered_stacked :
    Usable stackedSurroundings stackedTree none ∧
      load stackedSurroundings stackedTree none = .ok (stackedConfig "tgi") ∧
      RunRequest.apply { provider := some "ollama" } (stackedConfig "tgi") =
        .ok (stackedConfig "ollama") := by
  have h : Usable stackedSurroundings stackedTree none := by decide +kernel
  obtain ⟨c, c', hload, happly, hvalue, hvalue'⟩ :=
    (load_layered (o := { provider := some "ollama" }) h).values
  have hc : c = stackedConfig "tgi" := by
    rw [← c.ofValues_valueOf, funext hvalue]
    decide +kernel
  have hc' : c' = stackedConfig "ollama" := by
    rw [← c'.ofValues_valueOf, funext hvalue']
    decide +kernel
  subst hc hc'
  exact ⟨h, hload, happly⟩

end Config

end DeclarationDocs
