import DeclarationDocs.Proofs.Documenter.Performing

namespace DeclarationDocs

/-!
# Two runs side by side

Two runs over the same jobs report the same if job by job they come to the same result, whatever
else is different in their worlds.

* `Documenter.doJob_congr` — a job goes the same way in two worlds that have the same files and
  leave the same once the backend is there;
* `Documenter.perform_alike` — a relation of worlds that every job keeps is kept by the whole loop.
-/

variable {σ : Type}

namespace Documenter

variable {p : Documenter} {job : Job} {v v' : World σ}

/-- Once the backend is there, a job depends on what it finds then. -/
theorem doJob_congr {template : String}
    (hresolve : p.templates.resolve v.tree p.cwd job.category = .ok template)
    (htree : v'.tree = v.tree) (hreadied : readied v' = readied v)
    (hready : (v'.generator.makeReady v'.state).2.result =
      (v.generator.makeReady v.state).2.result) :
    (p.doJob job v').result = (p.doJob job v).result ∧
      (p.doJob job v').world = (p.doJob job v).world := by
  have hresolve' : p.templates.resolve v'.tree p.cwd job.category = .ok template := by
    rw [htree, hresolve]
  have hrequest : request job template v' = request job template v := by
    unfold request
    rw [hreadied]
  cases hr : (v.generator.makeReady v.state).2.result with
  | error e =>
    rw [doJob_of_makeReady hresolve hr, doJob_of_makeReady hresolve' (hready.trans hr)]
    exact ⟨rfl, hreadied⟩
  | ok _ =>
    have hrequested : requested job template v' = requested job template v := by
      unfold requested
      rw [htree, hrequest]
    cases hg : (request job template v).2.result with
    | error e =>
      rw [doJob_of_generate hresolve hr hg,
        doJob_of_generate hresolve' (hready.trans hr) (hrequest ▸ hg)]
      exact ⟨rfl, hrequested⟩
    | ok text =>
      rw [doJob_of_deliver hresolve hr hg,
        doJob_of_deliver hresolve' (hready.trans hr) (hrequest ▸ hg), hrequested]
      exact ⟨rfl, rfl⟩

/-- **Side by side.**  By induction on the list, of which the relation may know what is left: as the
    results are the same, both loops go on or stop together. -/
theorem perform_alike {R : List (Except Failure Job) → World σ → World σ → Prop}
    (hstep : ∀ job items v v', R (.ok job :: items) v v' →
      (p.doJob job v').result = (p.doJob job v).result ∧
        R items (p.doJob job v).world (p.doJob job v').world)
    (index : Nat) (stats : Tally) (items : List (Except Failure Job)) (h : R items v v') :
    (p.perform index stats items v').result = (p.perform index stats items v).result ∧
      (p.perform index stats items v').events = (p.perform index stats items v).events ∧
      ∃ rest, R rest (p.perform index stats items v).world
        (p.perform index stats items v').world := by
  induction items generalizing index stats v v' with
  | nil => exact ⟨rfl, rfl, [], h⟩
  | cons item items ih =>
    cases item with
    | error e => exact ⟨rfl, rfl, .error e :: items, h⟩
    | ok job =>
      obtain ⟨hresult, hworld⟩ := hstep job items v v' h
      cases hr : (p.doJob job v).result with
      | ok path =>
        obtain ⟨hresult', hevents, hrest⟩ :=
          ih (index + 1) { stats with generated := stats.generated + 1 } hworld
        rw [perform_of_completed hr, perform_of_completed (hresult.trans hr)]
        exact ⟨hresult', congrArg (_ ++ ·) hevents, hrest⟩
      | error e =>
        cases he : e.isRecoverable with
        | true =>
          obtain ⟨hresult', hevents, hrest⟩ :=
            ih (index + 1) { stats with skipped := stats.skipped + 1 } hworld
          rw [perform_of_skipped hr he, perform_of_skipped (hresult.trans hr) he]
          exact ⟨hresult', congrArg (_ ++ ·) hevents, hrest⟩
        | false =>
          rw [perform_of_failed hr he, perform_of_failed (hresult.trans hr) he]
          exact ⟨rfl, rfl, items, hworld⟩

end Documenter

end DeclarationDocs
