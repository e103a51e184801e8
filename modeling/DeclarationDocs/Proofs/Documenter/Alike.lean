import DeclarationDocs.Proofs.Documenter.Effect
import DeclarationDocs.Proofs.Generator.Alike

namespace DeclarationDocs

/-!
# Runs that cannot be told apart

A run uses its generator and looks at nothing that the generator hides.  So two runs over the same
files whose generators cannot be told apart tell the same, write the same, and leave their
generators in related states.

* `World.Alike`, `JobReport.Alike`, `RunReport.Alike` — what is the same, and what is related;
* `Documenter.doJob_alike` — one job;
* `Documenter.runFrom_alike`, `Documenter.run_alike` — `(p.run w).Alike R (p.run w')` for a whole
  run, if `w.Alike R w'`.
-/

variable {σ : Type} {R : σ → σ → Prop}

/-- Two worlds with the same files, in which the generators cannot be told apart. -/
structure World.Alike (R : σ → σ → Prop) (w w' : World σ) : Prop where
  tree : w.tree = w'.tree
  generator : w.generator.Alike R w'.generator
  state : R w.state w'.state

/-- Two reports of a job that say the same. -/
structure JobReport.Alike (R : σ → σ → Prop) (r r' : JobReport σ) : Prop where
  result : r.result = r'.result
  world : r.world.Alike R r'.world
  warnings : r.warnings = r'.warnings

/-- Two reports of a run that say the same. -/
structure RunReport.Alike (R : σ → σ → Prop) (r r' : RunReport σ) : Prop where
  result : r.result = r'.result
  world : r.world.Alike R r'.world
  events : r.events = r'.events
  warnings : r.warnings = r'.warnings

/-- Reports stay alike when the same has happened before them. -/
theorem RunReport.Alike.after {r r' : RunReport σ} (h : r.Alike R r') (events : List Event)
    {warnings warnings' : List Warning} (hwarnings : warnings = warnings') :
    (r.after events warnings).Alike R (r'.after events warnings') where
  result := h.result
  world := h.world
  events := congrArg (events ++ ·) h.events
  warnings := by
    show warnings ++ r.warnings = warnings' ++ r'.warnings
    rw [hwarnings, h.warnings]

namespace Documenter

variable {p : Documenter} {w w' : World σ}

/-! ### One job -/

/-- Writing a text reads the files only. -/
theorem deliver_alike (p : Documenter) (job : Job) (text : String) (h : w.Alike R w')
    {warnings warnings' : List Warning} (hwarnings : warnings = warnings') :
    (p.deliver job text w warnings).Alike R (p.deliver job text w' warnings') := by
  unfold deliver
  rw [h.tree]
  exact ⟨rfl, ⟨rfl, h.generator, h.state⟩, hwarnings⟩

/-- **One job.**  Both worlds find the same template, so both ask for the same text, and what they
    are given or denied is the same. -/
theorem doJob_alike (p : Documenter) (job : Job) (h : w.Alike R w') :
    (p.doJob job w).Alike R (p.doJob job w') := by
  cases hresolve : p.templates.resolve w.tree p.cwd job.category with
  | error e =>
    rw [doJob_of_resolve hresolve, doJob_of_resolve (h.tree ▸ hresolve)]
    exact ⟨rfl, h, rfl⟩
  | ok template =>
    have hresolve' : p.templates.resolve w'.tree p.cwd job.category = .ok template :=
      h.tree ▸ hresolve
    obtain ⟨hgenerator, hready⟩ := h.generator.makeReady h.state
    have hreadied : (readied w).Alike R (readied w') := ⟨h.tree, hgenerator, hready.state⟩
    obtain ⟨hasked, hrequest⟩ :=
      hreadied.generator.generate job.rawText template hreadied.state
    have hrequested : (requested job template w).Alike R (requested job template w') :=
      ⟨h.tree, hasked, hrequest.state⟩
    have hwarnings :
        (w.generator.makeReady w.state).2.warnings ++ (request job template w).2.warnings =
          (w'.generator.makeReady w'.state).2.warnings ++ (request job template w').2.warnings :=
      congrArg₂ (· ++ ·) hready.warnings hrequest.warnings
    cases hr : (w.generator.makeReady w.state).2.result with
    | error e =>
      rw [doJob_of_makeReady hresolve hr,
        doJob_of_makeReady hresolve' (hready.result.eq.symm.trans hr)]
      exact ⟨rfl, hreadied, hready.warnings⟩
    | ok _ =>
      have hr' := hready.result.eq.symm.trans hr
      cases hg : (request job template w).2.result with
      | error e =>
        rw [doJob_of_generate hresolve hr hg,
          doJob_of_generate hresolve' hr' (hrequest.result.eq.symm.trans hg)]
        exact ⟨rfl, hrequested, hwarnings⟩
      | ok text =>
        rw [doJob_of_deliver hresolve hr hg,
          doJob_of_deliver hresolve' hr' (hrequest.result.eq.symm.trans hg)]
        exact p.deliver_alike job text hrequested hwarnings

/-! ### Runs -/

/-- **The jobs that are left.**  By induction along the queue: as the files are the same, both runs
    are given the same next job, and as it comes to the same, both go on or stop together. -/
theorem runFrom_alike (p : Documenter) (index : Nat) (stats : Tally) (s : JobQueue) (w : World σ) :
    ∀ w', w.Alike R w' → (p.runFrom index stats s w).Alike R (p.runFrom index stats s w') := by
  induction index, stats, s, w using Documenter.runFrom.induct p with
  | case1 index stats s w hnext =>
    intro w' h
    rw [runFrom_of_none hnext, runFrom_of_none (h.tree ▸ hnext)]
    exact ⟨rfl, h, rfl, rfl⟩
  | case2 index stats s w e rest hnext =>
    intro w' h
    rw [runFrom_of_error hnext, runFrom_of_error (h.tree ▸ hnext)]
    exact ⟨rfl, h, rfl, rfl⟩
  | case3 index stats s w job rest hnext r path hr ih =>
    intro w' h
    have hjob := p.doJob_alike job h
    rw [runFrom_of_completed hnext hr,
      runFrom_of_completed (h.tree ▸ hnext) (hjob.result.symm.trans hr)]
    exact (ih _ hjob.world).after _ hjob.warnings
  | case4 index stats s w job rest hnext r e hr he ih =>
    intro w' h
    have hjob := p.doJob_alike job h
    rw [runFrom_of_skipped hnext hr he,
      runFrom_of_skipped (h.tree ▸ hnext) (hjob.result.symm.trans hr) he]
    exact (ih _ hjob.world).after _ (congrArg (· ++ _) hjob.warnings)
  | case5 index stats s w job rest hnext r e hr he =>
    intro w' h
    have hjob := p.doJob_alike job h
    have he : e.isRecoverable = false := by simpa using he
    rw [runFrom_of_failed hnext hr he,
      runFrom_of_failed (h.tree ▸ hnext) (hjob.result.symm.trans hr) he]
    exact ⟨rfl, hjob.world, rfl, hjob.warnings⟩

/-- **A whole run.** -/
theorem run_alike (p : Documenter) (h : w.Alike R w') : (p.run w).Alike R (p.run w') := by
  unfold run
  rw [← h.tree]
  cases p.jobs w.tree with
  | error e => exact ⟨rfl, h, rfl, rfl⟩
  | ok s => exact p.runFrom_alike 0 ⟨0, 0⟩ s w w' h

end Documenter

end DeclarationDocs
