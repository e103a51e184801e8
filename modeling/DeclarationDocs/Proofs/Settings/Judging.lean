import DeclarationDocs.Proofs.Path.Segments
import DeclarationDocs.Proofs.Settings.Layering

namespace DeclarationDocs

/-!
# Which configurations are refused

A configuration makes no sense if it leaves no time for an answer, asks for no text, or names no
service.  It is judged twice: when the layers have come together, and again when the options lie
over them.  Of what is judged, the options can only name another service.  So a configuration that
is refused the first time would be refused the second time as well, but for one case: the layers
name no service, and the options name one.

* `Config.Senseless`, `Config.validate_eq_ok_iff` — what makes no sense;
* `Failure.isRefusal` — the failures that say so;
* `RefusedUnder o c` — the layers come to `c`, and that is refused alone or under the options `o`;
* `Config.Judged`, `Config.load_judged` — which runs are refused.
-/

/-! ### What makes no sense -/

/-- A text of white space only. -/
def Text.IsBlank (s : String) : Prop := ∀ c ∈ s.toList, Text.isWhiteSpace c = true

instance (s : String) : Decidable (Text.IsBlank s) :=
  List.decidableBAll (fun c => Text.isWhiteSpace c = true) s.toList

/-- Nothing is left of a text of white space, and of no other. -/
theorem Text.isEmpty_trim_iff {s : String} : (Text.trim s).isEmpty = true ↔ Text.IsBlank s := by
  have hsplit := List.takeWhile_append_dropWhile (p := Text.isWhiteSpace) (l := s.toList)
  have hempty : (Text.trim s).isEmpty = true ↔ Text.trimChars s.toList = [] := by
    rw [Text.trim, String.isEmpty_iff, String.ofList_eq_empty_iff]
  rw [hempty]
  constructor
  · intro h c hc
    have hrest : ∀ c ∈ s.toList.dropWhile Text.isWhiteSpace, Text.isWhiteSpace c = true :=
      forall_of_dropEndWhile_eq_nil h
    rw [← hsplit] at hc
    rcases List.mem_append.mp hc with hc | hc
    · exact List.mem_takeWhile_imp hc
    · exact hrest c hc
  · intro h
    have hrest : s.toList.dropWhile Text.isWhiteSpace = [] := List.dropWhile_eq_nil_iff.mpr h
    rw [Text.trimChars, hrest]
    rfl

namespace Config

/-- A configuration that leaves no time, asks for no text, or names no service. -/
def Senseless (c : Config) : Prop :=
  c.service.timeoutSecs = 0 ∨ c.service.maxNewTokens = 0 ∨ Text.IsBlank c.service.provider

instance : DecidablePred Senseless := fun c =>
  inferInstanceAs (Decidable (c.service.timeoutSecs = 0 ∨ _))

end Config

/-- The failures that refuse a configuration for what it says. -/
def Failure.isRefusal : Failure → Bool
  | config .zeroTimeout => true
  | config .zeroTokens => true
  | config .blankProvider => true
  | _ => false

namespace Config

variable {c c' : Config} {s : Surroundings} {t : FileTree} {o : RunRequest} {named : Option Path}
  {e : Failure}

theorem validate_eq_ok_iff : c.validate = .ok () ↔ ¬ c.Senseless := by
  unfold validate Senseless
  rw [← Text.isEmpty_trim_iff]
  split_ifs with htime htokens hprovider <;> simp_all

theorem isRefusal_of_validate (h : c.validate = .error e) : e.isRefusal = true := by
  unfold validate at h
  split_ifs at h <;> cases h <;> rfl

/-- A run is refused for what a configuration and its options come to, or because the configuration
    names no service, even if the options name one. -/
def RefusedUnder (o : RunRequest) (c : Config) : Prop :=
  (o.override c).Senseless ∨ Text.IsBlank c.service.provider

/-- The options neither give time nor ask for text, so the two judgements differ in the service
    alone. -/
theorem senseless_or_iff : c.Senseless ∨ (o.override c).Senseless ↔ RefusedUnder o c := by
  have htime : (o.override c).service.timeoutSecs = c.service.timeoutSecs := rfl
  have htokens : (o.override c).service.maxNewTokens = c.service.maxNewTokens := rfl
  unfold RefusedUnder Senseless
  rw [htime, htokens]
  tauto

/-- What makes sense under the options is refused only if these name the service that is missing. -/
theorem exists_provider_of_refusedUnder (h : RefusedUnder o c)
    (hsense : ¬ (o.override c).Senseless) :
    Text.IsBlank c.service.provider ∧ ∃ name, o.provider = some name ∧ ¬ Text.IsBlank name := by
  have hblank : Text.IsBlank c.service.provider := h.resolve_left hsense
  have hnamed : ¬ Text.IsBlank (o.provider.getD c.service.provider) :=
    fun hname => hsense (.inr (.inr hname))
  cases hname : o.provider with
  | none =>
    rw [hname] at hnamed
    exact absurd hblank hnamed
  | some name =>
    rw [hname] at hnamed
    exact ⟨hblank, name, rfl, hnamed⟩

/-! ### The two judgements -/

/-- What has come through both judgements makes sense both times. -/
theorem judge_eq_ok_iff : ((c.validate.map fun _ => c) >>= o.apply) = .ok c' ↔
    ¬ RefusedUnder o c ∧ o.override c = c' := by
  rw [← senseless_or_iff, not_or, ← validate_eq_ok_iff, ← validate_eq_ok_iff, bind_eq_ok_iff]
  simp only [map_eq_ok_iff, apply_eq]
  constructor
  · rintro ⟨c₁, ⟨⟨⟩, hfirst, rfl⟩, ⟨⟩, hsecond, rfl⟩
    exact ⟨⟨hfirst, hsecond⟩, rfl⟩
  · rintro ⟨⟨hfirst, hsecond⟩, rfl⟩
    exact ⟨c, ⟨(), hfirst, rfl⟩, (), hsecond, rfl⟩

/-- Whichever judgement fails, it is a refusal. -/
theorem isRefusal_of_judge (h : ((c.validate.map fun _ => c) >>= o.apply) = .error e) :
    e.isRefusal = true := by
  rcases bind_eq_error_iff.mp h with hfirst | ⟨c₁, -, hsecond⟩
  · exact isRefusal_of_validate (map_eq_error_iff.mp hfirst)
  · rw [apply_eq] at hsecond
    exact isRefusal_of_validate (map_eq_error_iff.mp hsecond)

theorem judge_eq_error_iff :
    (∃ e, ((c.validate.map fun _ => c) >>= o.apply) = .error e) ↔ RefusedUnder o c := by
  have hok : ((c.validate.map fun _ => c) >>= o.apply) = .ok (o.override c) ↔
      ¬ RefusedUnder o c ∧ o.override c = o.override c := judge_eq_ok_iff
  cases hjudge : (c.validate.map fun _ => c) >>= o.apply with
  | error e =>
    rw [hjudge] at hok
    simpa using hok
  | ok c' =>
    obtain ⟨hsense, -⟩ := judge_eq_ok_iff.mp hjudge
    simpa using hsense

/-- What cannot be read is no refusal. -/
theorem isRefusal_of_stack (h : stack s t named = .error e) : e.isRefusal = false := by
  rcases bind_eq_error_iff.mp h with hfiles | ⟨files, -, h⟩
  · -- the file that is named is not there
    unfold layerFiles at hfiles
    simp only at hfiles
    split at hfiles
    · split_ifs at hfiles
      obtain rfl := Except.error.inj hfiles
      rfl
    · cases hfiles
  rcases bind_eq_error_iff.mp h with hmerged | ⟨merged, -, h⟩
  · obtain ⟨fs, -, rfl⟩ := mapError_eq_error_iff.mp hmerged
    rfl
  · unfold ofSetting at h
    split at h
    · cases h
    · obtain rfl := Except.error.inj h
      rfl

/-- The configuration of a run: the layers come together, and what they come to is judged, alone and
    under the options. -/
theorem load_apply_eq (s : Surroundings) (t : FileTree) (o : RunRequest) :
    (load s t o.config >>= o.apply) =
      (stack s t o.config >>= fun c => (c.validate.map fun _ => c) >>= o.apply) := by
  rw [load_eq_stack]
  cases stack s t o.config <;> rfl

/-- Which runs are refused: those for which `stack s t o.config` is `RefusedUnder o`. -/
structure Judged (s : Surroundings) (t : FileTree) (o : RunRequest) : Prop where
  /-- A run is refused if the layers come to a configuration that makes no sense under the options,
      or that names no service itself. -/
  refused : (∃ e, e.isRefusal = true ∧ (load s t o.config >>= o.apply) = .error e) ↔
    ∃ c, stack s t o.config = .ok c ∧ RefusedUnder o c
  /-- It goes on, with the options over the layers, in all other cases in which the layers come to a
      configuration. -/
  accepted : ∀ c', (load s t o.config >>= o.apply) = .ok c' ↔
    ∃ c, stack s t o.config = .ok c ∧ ¬ RefusedUnder o c ∧ o.override c = c'
  /-- Only options that name the service that the layers leave out are refused although they make
      sense. -/
  late : ∀ c, RefusedUnder o c → ¬ (o.override c).Senseless →
    Text.IsBlank c.service.provider ∧ ∃ name, o.provider = some name ∧ ¬ Text.IsBlank name
  /-- Layers that can be used do come to one.  It has each setting from the highest layer that sets
      it, whatever the lower ones say. -/
  effective : Usable s t o.config →
    stack s t o.config = .ok (ofValues (effective s t { config := o.config })) ∧
      o.override (ofValues (effective s t { config := o.config })) = ofValues (effective s t o)

/-- **Which runs are refused**: `Judged s t o` holds of all files, variables and options. -/
theorem load_judged (s : Surroundings) (t : FileTree) (o : RunRequest) : Judged s t o where
  refused := by
    rw [load_apply_eq]
    constructor
    · rintro ⟨e, he, h⟩
      rcases bind_eq_error_iff.mp h with hstack | ⟨c, hc, hjudge⟩
      · rw [isRefusal_of_stack hstack] at he
        cases he
      · exact ⟨c, hc, judge_eq_error_iff.mp ⟨e, hjudge⟩⟩
    · rintro ⟨c, hc, hrefused⟩
      obtain ⟨e, he⟩ := judge_eq_error_iff.mpr hrefused
      exact ⟨e, isRefusal_of_judge he, bind_eq_error_iff.mpr (.inr ⟨c, hc, he⟩)⟩
  accepted := by
    intro c'
    rw [load_apply_eq, bind_eq_ok_iff]
    simp only [judge_eq_ok_iff]
  late := fun _ h hsense => exists_provider_of_refusedUnder h hsense
  effective := by
    intro h
    obtain ⟨c, hstack, hvalue⟩ := stack_of_usable h
    have hc : ofValues (effective s t { config := o.config }) = c := by
      rw [← funext hvalue, ofValues_valueOf]
    rw [hc]
    exact ⟨hstack, by rw [← funext (effective_of_override hvalue), ofValues_valueOf]⟩

/-! ### A service that is named too late -/

/-- A tree with a file that names no service. -/
def namelessTree : FileTree := ⟨[(["c".toList], .file (.text "llm.provider = \"\""))]⟩

/-- A run with that file and with a service. -/
def namingRequest : RunRequest := { config := some ⟨"c".toList⟩, provider := some "tgi" }

/-- What is refused there makes sense: the options name a service. -/
theorem load_nameless_refused :
    Usable ⟨[], [], none, .ascii⟩ namelessTree namingRequest.config ∧
      ¬ (ofValues (effective ⟨[], [], none, .ascii⟩ namelessTree namingRequest)).Senseless ∧
      (load ⟨[], [], none, .ascii⟩ namelessTree namingRequest.config >>= namingRequest.apply) =
        .error (.config .blankProvider) := by
  have h : Usable ⟨[], [], none, .ascii⟩ namelessTree namingRequest.config := by decide +kernel
  obtain ⟨c, hload, hvalue⟩ := load_of_usable h
  have hc : c = { Config.default with service := { ServiceConfig.default with provider := "" } } := by
    rw [← c.ofValues_valueOf, funext hvalue]
    decide +kernel
  have hblank : c.validate = .error (.config .blankProvider) := by
    rw [hc]
    rfl
  refine ⟨h, by decide +kernel, ?_⟩
  rw [hload, hblank]
  rfl

end Config

end DeclarationDocs
