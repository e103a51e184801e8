import DeclarationDocs.Proofs.Documenter.Effect
import DeclarationDocs.Proofs.Generator

namespace DeclarationDocs

/-!
# Why a job fails

There are three ways in which a job can go: its template cannot be read, its backend cannot be
made, or the backend is there and is asked.  Only in the last one is anything written, or anything
but an attempt noted in the generator.

* `Documenter.Course`, `Documenter.course_doJob` — the three ways of a job;
* `Documenter.Cause`, `Documenter.cause_of_doJob` — what a job that fails has failed over;
* `Documenter.recoverable_doJob_iff` — a job is skipped if `resolve` or its generator says so;
  `Documenter.resolve_of_doJob` — the generator does not if it `FailsWithin Failure.Fatal`;
* `Documenter.untouched_of_doJob` — a job that leaves no backend has changed nothing;
* `Documenter.backend?_of_doJob` — a job that fails over its backend leaves none.
-/

variable {σ : Type}

/-! ### The ways of a job -/

namespace Documenter

variable {p : Documenter} {job : Job} {w : World σ} {r : JobReport σ} {e : Failure}
  {making asking : Failure → Prop}

/-- The document of the job could not be written. -/
def Undelivered (p : Documenter) (job : Job) (e : Failure) : Prop :=
  ∃ t text f, (writeDocument t p.cwd job.outputDir job.outputFileName text).2 = .error f ∧ e = .io f

/-- The three ways in which a job can go: without a template nothing is done, without a backend
    only an attempt is noted, and with both a failure is one of the backend or of writing. -/
inductive Course (p : Documenter) (job : Job) (w : World σ) (r : JobReport σ) : Prop
  | untemplated (e : Failure)
      (hresolve : p.templates.resolve w.tree p.cwd job.category = .error e)
      (hr : r = ⟨.error e, w, []⟩)
  | unmade (template : String) (e : Failure)
      (hresolve : p.templates.resolve w.tree p.cwd job.category = .ok template)
      (hnone : w.generator.backend? = none)
      (hmake : w.generator.make w.generator.attempts = .error e)
      (hr : r = ⟨.error e,
        { w with generator := { w.generator with attempts := w.generator.attempts + 1 } }, []⟩)
  | asked (template : String) (b : Backend σ)
      (hresolve : p.templates.resolve w.tree p.cwd job.category = .ok template)
      (huses : w.generator.Uses b)
      (hgenerator : r.world.generator = (w.generator.handle w.state).1)
      (hbackend : r.world.generator.backend? = some b)
      (hr : ∀ e, r.result = .error e →
        (∃ prompt s, (b.generate prompt s).result = .error e) ∨ p.Undelivered job e)

/-- Delivering a text fails only because the document cannot be written. -/
theorem deliver_eq_error {text : String} {warnings : List Warning}
    (h : (p.deliver job text w warnings).result = .error e) : p.Undelivered job e := by
  unfold deliver at h
  obtain ⟨f, hf, he⟩ := mapError_eq_error_iff.mp h
  exact ⟨w.tree, text, f, hf, he.symm⟩

/-- **The ways of a job.** -/
theorem course_doJob (p : Documenter) (job : Job) (w : World σ) :
    p.Course job w (p.doJob job w) := by
  cases hresolve : p.templates.resolve w.tree p.cwd job.category with
  | error e => exact .untemplated e hresolve (doJob_of_resolve hresolve)
  | ok template =>
    have hready : (w.generator.makeReady w.state).2.result =
        (w.generator.handle w.state).2.result.map fun _ => () := rfl
    cases hhandle : (w.generator.handle w.state).2.result with
    | error e =>
      obtain ⟨hnone, hmake, hpair⟩ := Generator.handle_eq_error hhandle
      rw [hhandle] at hready
      refine .unmade template e hresolve hnone hmake ?_
      rw [doJob_of_makeReady hresolve hready]
      simp only [readied, Generator.makeReady, hpair]
    | ok b =>
      obtain ⟨hbackend, huses⟩ := Generator.handle_eq_ok hhandle
      rw [hhandle] at hready
      -- from here on the generator has its backend and stays as it is
      obtain ⟨hgenerator, hresult⟩ := Generator.generate_of_some job.rawText template
        (readied w).state (show (readied w).generator.backend? = some b from hbackend)
      have hstill := congrArg Generator.backend? hgenerator
      cases hg : (request job template w).2.result with
      | error e =>
        rw [doJob_of_generate hresolve hready hg]
        refine .asked template b hresolve huses hgenerator (hstill.trans hbackend) ?_
        intro e' he'
        obtain rfl := Except.error.inj he'
        exact .inl ⟨_, _, map_eq_error_iff.mp (hresult.symm.trans hg)⟩
      | ok text =>
        rw [doJob_of_deliver hresolve hready hg]
        exact .asked template b hresolve huses hgenerator (hstill.trans hbackend)
          fun e he => .inr (deliver_eq_error he)

/-- What a job can fail over: reading its template, making or asking the backend, or writing its
    document. -/
inductive Cause (p : Documenter) (job : Job) (w : World σ) (e : Failure) : Prop
  | template (h : p.templates.resolve w.tree p.cwd job.category = .error e)
  | making (n : Nat) (h : w.generator.make n = .error e)
  | asking (b : Backend σ) (huses : w.generator.Uses b) (prompt : String) (s : σ)
      (h : (b.generate prompt s).result = .error e)
  | writing (h : p.Undelivered job e)

/-- A job that fails has failed over one of these. -/
theorem cause_of_doJob (hr : (p.doJob job w).result = .error e) : p.Cause job w e := by
  cases p.course_doJob job w with
  | untemplated e' hresolve hr' =>
    rw [hr'] at hr
    obtain rfl := Except.error.inj hr
    exact .template hresolve
  | unmade template e' hresolve hnone hmake hr' =>
    rw [hr'] at hr
    obtain rfl := Except.error.inj hr
    exact .making _ hmake
  | asked template b hresolve huses hgenerator hbackend hr' =>
    obtain ⟨prompt, s, hasked⟩ | hwriting := hr' e hr
    · exact .asking b huses prompt s hasked
    · exact .writing hwriting

/-- The job has its template, and its generator answers `e`: its backend cannot be made, or it gives
    no text. -/
inductive Refused (p : Documenter) (job : Job) (w : World σ) (e : Failure) : Prop
  | making (template : String)
      (hresolve : p.templates.resolve w.tree p.cwd job.category = .ok template)
      (hready : (w.generator.makeReady w.state).2.result = .error e)
  | asking (template : String)
      (hresolve : p.templates.resolve w.tree p.cwd job.category = .ok template)
      (hready : (w.generator.makeReady w.state).2.result = .ok ())
      (hrequest : (request job template w).2.result = .error e)

/-- **What a job is passed over for.**  Its failure is recoverable if `resolve` answered it, or if
    its generator did, which has failures of its own; a document that is not written ends the
    run. -/
theorem recoverable_doJob_iff :
    (p.doJob job w).result = .error e ∧ e.isRecoverable = true ↔
      (p.templates.resolve w.tree p.cwd job.category = .error e ∨ p.Refused job w e) ∧
        e.isRecoverable = true := by
  refine and_congr_left fun he => ⟨fun hr => ?_, ?_⟩
  · cases hresolve : p.templates.resolve w.tree p.cwd job.category with
    | error e' =>
      rw [doJob_of_resolve hresolve] at hr
      exact .inl (congrArg Except.error (Except.error.inj hr))
    | ok template =>
      cases hready : (w.generator.makeReady w.state).2.result with
      | error e' =>
        rw [doJob_of_makeReady hresolve hready] at hr
        exact .inr (.making template hresolve (Except.error.inj hr ▸ hready))
      | ok _ =>
        cases hrequest : (request job template w).2.result with
        | error e' =>
          rw [doJob_of_generate hresolve hready hrequest] at hr
          exact .inr (.asking template hresolve hready (Except.error.inj hr ▸ hrequest))
        | ok text =>
          rw [doJob_of_deliver hresolve hready hrequest] at hr
          obtain ⟨-, -, f, -, rfl⟩ := deliver_eq_error hr
          exact absurd he (by simp [Failure.isRecoverable])
  · rintro (hresolve | ⟨template, hresolve, hready⟩ | ⟨template, hresolve, hready, hrequest⟩)
    · rw [doJob_of_resolve hresolve]
    · rw [doJob_of_makeReady hresolve hready]
    · rw [doJob_of_generate hresolve hready hrequest]

/-- A job leaves a generator that fails as before. -/
theorem failsWithin_doJob (h : w.generator.FailsWithin making asking) :
    (p.doJob job w).world.generator.FailsWithin making asking := by
  cases p.course_doJob job w with
  | untemplated e hresolve hr =>
    rw [hr]
    exact h
  | unmade template e hresolve hnone hmake hr =>
    rw [hr]
    exact ⟨h.making, h.asking⟩
  | asked template b hresolve huses hgenerator hbackend hr =>
    rw [hgenerator]
    exact h.handle

/-- If the generator fails for good only, a job is passed over only for want of a template. -/
theorem resolve_of_doJob (h : w.generator.FailsWithin Failure.Fatal Failure.Fatal)
    (hr : (p.doJob job w).result = .error e) (he : e.isRecoverable = true) :
    p.templates.resolve w.tree p.cwd job.category = .error e := by
  have hfatal : ¬ e.Fatal := by simp [Failure.Fatal, he]
  cases cause_of_doJob hr with
  | template h => exact h
  | making n hmake => exact absurd (h.making n e hmake) hfatal
  | asking b huses prompt s hasked => exact absurd (h.asking b huses prompt s e hasked) hfatal
  | writing hwriting =>
    obtain ⟨t, text, f, -, rfl⟩ := hwriting
    exact absurd he (by simp [Failure.isRecoverable])

/-- A job after which there is still no backend has changed no file and sent nothing. -/
theorem untouched_of_doJob (h : (p.doJob job w).world.generator.backend? = none) :
    w.generator.backend? = none ∧ (p.doJob job w).world.tree = w.tree ∧
      (p.doJob job w).world.state = w.state := by
  cases p.course_doJob job w with
  | untemplated e hresolve hr =>
    rw [hr] at h ⊢
    exact ⟨h, rfl, rfl⟩
  | unmade template e hresolve hnone hmake hr =>
    rw [hr]
    exact ⟨hnone, rfl, rfl⟩
  | asked template b hresolve huses hgenerator hbackend hr =>
    rw [hbackend] at h
    exact absurd h (by simp)

/-- A failure that comes neither of the template, nor of asking, nor of the files comes of making
    the backend; then there is none. -/
theorem backend?_of_doJob (h : w.generator.FailsWithin making asking)
    (hr : (p.doJob job w).result = .error e) (hasking : ¬ asking e)
    (htemplate : p.templates.resolve w.tree p.cwd job.category ≠ .error e) (hio : ∀ f, e ≠ .io f) :
    (p.doJob job w).world.generator.backend? = none := by
  cases p.course_doJob job w with
  | untemplated e' hresolve hr' =>
    rw [hr'] at hr
    obtain rfl := Except.error.inj hr
    exact absurd hresolve htemplate
  | unmade template e' hresolve hnone hmake hr' =>
    rw [hr']
    exact hnone
  | asked template b hresolve huses hgenerator hbackend hr' =>
    obtain ⟨prompt, s, hasked⟩ | ⟨t, text, f, -, he⟩ := hr' e hr
    · exact absurd (h.asking b huses prompt s e hasked) hasking
    · exact absurd he (hio f)

end Documenter

end DeclarationDocs
