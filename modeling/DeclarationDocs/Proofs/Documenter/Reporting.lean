import DeclarationDocs.Proofs.Documenter.Containment
import DeclarationDocs.Proofs.Documenter.Failing
import DeclarationDocs.Proofs.Documenter.Performing
import DeclarationDocs.Proofs.TemplateFolder

namespace DeclarationDocs

open FileTree

/-!
# What a run reports

A run tells of each job when it starts and when it is done or passed over; of the job that ends
the run it tells the start alone.

* `Documenter.worldAfter` — the world once some jobs have been done;
* `Documenter.Trace` — the events of jobs that are done one after the other, and the failure that
  ended them;
* `Documenter.Trace.end_of_started` — what is told of a job is how the job went;
* `Documenter.Verdict` — how the result goes with the events and with what the queue holds;
* `Documenter.SkipsRecoverable`, `Documenter.SkipsUntemplated` — which jobs are skipped, by any
  generator and by one that fails for good only;
* `Documenter.run_traced`, `Documenter.run_reported` — a whole run;
* `Documenter.not_skipsUntemplated_refusing` — a backend may have jobs skipped that have a template.
-/

variable {σ : Type}

/-- The jobs that are reported as started, in order. -/
def startedJobs (events : List Event) : List Job :=
  events.filterMap fun
    | .started _ job => some job
    | _ => none

/-- The jobs that are reported as skipped, in order. -/
def skippedJobs (events : List Event) : List Job :=
  events.filterMap fun
    | .skipped _ job _ => some job
    | _ => none

namespace Documenter

/-! ### Worlds -/

/-- The world once jobs have been done one after the other. -/
def worldAfter (p : Documenter) (jobs : List Job) (w : World σ) : World σ :=
  jobs.foldl (fun w job => (p.doJob job w).world) w

/-- What every job preserves is preserved. -/
theorem worldAfter_preserves {p : Documenter} {P : World σ → Prop}
    (hstep : ∀ job w, P w → P (p.doJob job w).world) (jobs : List Job) {w : World σ} (h : P w) :
    P (p.worldAfter jobs w) := by
  induction jobs generalizing w with
  | nil => exact h
  | cons job jobs ih => exact ih (hstep job w h)

/-- The world after jobs and further jobs is that after the further ones in the first world. -/
theorem worldAfter_append (p : Documenter) (before jobs : List Job) (w : World σ) :
    p.worldAfter (before ++ jobs) w = p.worldAfter jobs (p.worldAfter before w) :=
  List.foldl_append

/-- Jobs keep the failures of a generator within what they are. -/
theorem failsWithin_worldAfter {p : Documenter} {w : World σ} {making asking : Failure → Prop}
    (h : w.generator.FailsWithin making asking) (jobs : List Job) :
    (p.worldAfter jobs w).generator.FailsWithin making asking :=
  worldAfter_preserves (P := fun w => w.generator.FailsWithin making asking)
    (fun _ _ => failsWithin_doJob) jobs h

/-! ### Events -/

/-- The events that jobs leave when they are done one after the other, the first with the given
    index and in the given world: a start, and an end unless the job fails for good.  Then there
    is nothing more, and the failure is given. -/
inductive Trace (p : Documenter) : Nat → World σ → List Event → Option Failure → Prop
  | nil {index w} : Trace p index w [] none
  | completed {index w job path events f} (hr : (p.doJob job w).result = .ok path)
      (h : Trace p (index + 1) (p.doJob job w).world events f) :
      Trace p index w (.started index job :: .completed index job path :: events) f
  | skipped {index w job e events f} (hr : (p.doJob job w).result = .error e)
      (he : e.isRecoverable = true) (h : Trace p (index + 1) (p.doJob job w).world events f) :
      Trace p index w (.started index job :: .skipped index job e :: events) f
  | failed {index w job e} (hr : (p.doJob job w).result = .error e)
      (he : e.isRecoverable = false) : Trace p index w [.started index job] (some e)

/-- What is told of a job with the given index and result: its end, or, if it is the last one, that
    it failed for good. -/
inductive Told (events : List Event) (f : Option Failure) (index : Nat) (job : Job) (last : Prop) :
    Except Failure Path → Prop
  | completed {path} (h : .completed index job path ∈ events) : Told events f index job last (.ok path)
  | skipped {e} (he : e.isRecoverable = true) (h : .skipped index job e ∈ events) :
      Told events f index job last (.error e)
  | failed {e} (he : e.isRecoverable = false) (hf : f = some e) (h : last) :
      Told events f index job last (.error e)

/-- Events in front change nothing about what is told behind them. -/
theorem Told.after {events : List Event} {f : Option Failure} {index : Nat} {job : Job}
    {last last' : Prop} {result : Except Failure Path} (h : Told events f index job last result)
    (before : List Event) (hlast : last → last') :
    Told (before ++ events) f index job last' result := by
  cases h with
  | completed h => exact .completed (List.mem_append_right before h)
  | skipped he h => exact .skipped he (List.mem_append_right before h)
  | failed he hf h => exact .failed he hf (hlast h)

namespace Trace

variable {p : Documenter} {index n : Nat} {w : World σ} {events : List Event} {f : Option Failure}
  {job : Job} {e : Failure}

/-- As long as no job fails for good, each is completed or skipped. -/
theorem length_startedJobs (h : p.Trace index w events none) :
    (completedJobs events).length + (skippedJobs events).length =
      (startedJobs events).length := by
  generalize hf : (none : Option Failure) = f at h
  induction h with
  | nil => rfl
  | failed => exact absurd hf (by simp)
  | completed hr h ih =>
    show _ + 1 + _ = _ + 1
    rw [Nat.add_right_comm]
    exact congrArg (· + 1) (ih hf)
  | skipped hr he h ih => exact congrArg (· + 1) (ih hf)

/-- Only jobs that were started are completed. -/
theorem completedJobs_subset (h : p.Trace index w events f) :
    completedJobs events ⊆ startedJobs events := by
  induction h with
  | nil => exact List.Subset.refl _
  | failed => exact List.nil_subset _
  | @completed index w job path events f hr h ih => exact List.cons_subset_cons job ih
  | @skipped index w job e events f hr he h ih => exact List.subset_cons_of_subset job ih

/-- **The end of a job.**  By induction along the events: a job is done in the world that those
    before it have left, and what is told of it is how it went. -/
theorem end_of_started (h : p.Trace index w events f) (hjob : (startedJobs events)[n]? = some job) :
    Told events f (index + n) job (n + 1 = (startedJobs events).length)
      (p.doJob job (p.worldAfter ((startedJobs events).take n) w)).result := by
  induction h generalizing n with
  | nil => exact absurd hjob (by simp [startedJobs])
  | @failed index w first e hr he =>
    cases n with
    | zero =>
      obtain rfl := Option.some.inj hjob
      exact hr ▸ .failed he rfl rfl
    | succ n => exact absurd hjob (by simp [startedJobs])
  | @completed index w first path events f hr h ih =>
    cases n with
    | zero =>
      obtain rfl := Option.some.inj hjob
      exact hr ▸ .completed (by simp)
    | succ n =>
      rw [← Nat.add_assoc, Nat.add_right_comm]
      exact (ih hjob).after [.started index first, .completed index first path] (congrArg (· + 1))
  | @skipped index w first e events f hr he h ih =>
    cases n with
    | zero =>
      obtain rfl := Option.some.inj hjob
      exact hr ▸ .skipped he (by simp)
    | succ n =>
      rw [← Nat.add_assoc, Nat.add_right_comm]
      exact (ih hjob).after [.started index first, .skipped index first e] (congrArg (· + 1))

/-- A job that is told to be skipped was started with its index, and it could be passed over. -/
theorem of_skipped (h : p.Trace index w events f) (hskip : .skipped n job e ∈ events) :
    ∃ m, n = index + m ∧ (startedJobs events)[m]? = some job ∧
      (p.doJob job (p.worldAfter ((startedJobs events).take m) w)).result = .error e ∧
      e.isRecoverable = true := by
  induction h with
  | nil => exact absurd hskip (by simp)
  | failed hr he => exact absurd hskip (by simp)
  | completed hr h ih =>
    obtain ⟨m, rfl, hm⟩ := ih (by simpa using hskip)
    exact ⟨m + 1, Nat.add_right_comm .., hm⟩
  | skipped hr he h ih =>
    simp only [List.mem_cons, reduceCtorEq, false_or] at hskip
    rcases hskip with hfirst | hrest
    · obtain ⟨rfl, rfl, rfl⟩ := Event.skipped.inj hfirst
      exact ⟨0, rfl, rfl, hr, he⟩
    · obtain ⟨m, rfl, hm⟩ := ih hrest
      exact ⟨m + 1, Nat.add_right_comm .., hm⟩

/-- The job that failed for good is the last one. -/
theorem of_failed (h : p.Trace index w events (some e)) :
    ∃ before job, startedJobs events = before ++ [job] ∧
      (p.doJob job (p.worldAfter before w)).result = .error e := by
  generalize hf : some e = f at h
  induction h with
  | nil => exact absurd hf (by simp)
  | @failed index w job e' hr he =>
    obtain rfl := Option.some.inj hf
    exact ⟨[], job, rfl, hr⟩
  | @completed index w first path events f hr h ih =>
    obtain ⟨before, job, hstarted, hfailed⟩ := ih hf
    exact ⟨first :: before, job, congrArg (first :: ·) hstarted, hfailed⟩
  | @skipped index w first e events f hr he h ih =>
    obtain ⟨before, job, hstarted, hfailed⟩ := ih hf
    exact ⟨first :: before, job, congrArg (first :: ·) hstarted, hfailed⟩

end Trace

/-! ### Results -/

/-- How the result of a loop over `items` goes with its events: it counts them if all jobs were
    started; it is what could not be read if that comes next; and else it is the failure of the
    last job. -/
inductive Verdict (stats : Tally) (items : List (Except Failure Job)) (events : List Event) :
    Option Failure → Except Failure Tally → Prop
  | done {stats'} (h : items = (startedJobs events).map .ok)
      (hgenerated : stats'.generated = stats.generated + (completedJobs events).length)
      (hskipped : stats'.skipped = stats.skipped + (skippedJobs events).length) :
      Verdict stats items events none (.ok stats')
  | unread {e rest} (h : items = (startedJobs events).map .ok ++ .error e :: rest) :
      Verdict stats items events none (.error e)
  | failed {e rest} (h : items = (startedJobs events).map .ok ++ rest) :
      Verdict stats items events (some e) (.error e)

namespace Verdict

variable {stats : Tally} {items : List (Except Failure Job)} {events : List Event}
  {f : Option Failure} {result : Except Failure Tally} {index : Nat} {job : Job}

/-- One more completed job in front. -/
theorem after_completed {path : Path}
    (h : Verdict { stats with generated := stats.generated + 1 } items events f result) :
    Verdict stats (.ok job :: items) (.started index job :: .completed index job path :: events)
      f result := by
  cases h with
  | done h hgenerated hskipped =>
    refine .done (congrArg _ h) ?_ hskipped
    rw [hgenerated]
    exact Nat.add_right_comm ..
  | unread h => exact .unread (congrArg _ h)
  | failed h => exact .failed (congrArg _ h)

/-- One more skipped job in front. -/
theorem after_skipped {e : Failure}
    (h : Verdict { stats with skipped := stats.skipped + 1 } items events f result) :
    Verdict stats (.ok job :: items) (.started index job :: .skipped index job e :: events)
      f result := by
  cases h with
  | done h hgenerated hskipped =>
    refine .done (congrArg _ h) hgenerated ?_
    rw [hskipped]
    exact Nat.add_right_comm ..
  | unread h => exact .unread (congrArg _ h)
  | failed h => exact .failed (congrArg _ h)

/-- The jobs that were started are the first ones. -/
theorem isPrefix_startedJobs (h : Verdict stats items events f result) :
    (startedJobs events).map .ok <+: items := by
  cases h with
  | done h => exact h ▸ List.prefix_rfl
  | unread h => exact h ▸ List.prefix_append ..
  | failed h => exact h ▸ List.prefix_append ..

end Verdict

variable (p : Documenter)

/-- What is known of the report of a loop over jobs: its events, its world and its result. -/
structure Traced (index : Nat) (stats : Tally) (items : List (Except Failure Job)) (w : World σ)
    (f : Option Failure) (r : RunReport σ) : Prop where
  trace : p.Trace index w r.events f
  world : r.world = p.worldAfter (startedJobs r.events) w
  verdict : Verdict stats items r.events f r.result

/-- **The loop over jobs.**  By induction on the list: each job adds its events in front of what is
    reported of those behind it, from the world that it leaves. -/
theorem perform_traced (index : Nat) (stats : Tally) (items : List (Except Failure Job))
    (w : World σ) : ∃ f, p.Traced index stats items w f (p.perform index stats items w) := by
  induction items generalizing index stats w with
  | nil => exact ⟨none, .nil, rfl, .done rfl rfl rfl⟩
  | cons item items ih =>
    cases item with
    | error e => exact ⟨none, .nil, rfl, .unread rfl⟩
    | ok job =>
      cases hr : (p.doJob job w).result with
      | ok path =>
        obtain ⟨f, htraced⟩ := ih (index + 1) { stats with generated := stats.generated + 1 }
          (p.doJob job w).world
        rw [perform_of_completed hr]
        exact ⟨f, .completed hr htraced.trace, htraced.world, htraced.verdict.after_completed⟩
      | error e =>
        cases he : e.isRecoverable with
        | true =>
          obtain ⟨f, htraced⟩ := ih (index + 1) { stats with skipped := stats.skipped + 1 }
            (p.doJob job w).world
          rw [perform_of_skipped hr he]
          exact ⟨f, .skipped hr he htraced.trace, htraced.world, htraced.verdict.after_skipped⟩
        | false =>
          rw [perform_of_failed hr he]
          exact ⟨some e, .failed hr he, rfl, .failed rfl⟩

/-! ### A whole run -/

/-- A run is the loop over what its queue holds, if there is a queue; else nothing is told. -/
theorem run_traced (w : World σ) :
    (∃ e, p.jobs w.tree = .error e ∧ p.run w = ⟨.error e, w, [], []⟩) ∨
      ∃ s f, p.jobs w.tree = .ok s ∧
        p.Traced 0 ⟨0, 0⟩ (s.toList w.tree p.cwd) w f (p.run w) := by
  cases hs : p.jobs w.tree with
  | error e => exact .inl ⟨e, rfl, p.run_of_jobs w hs⟩
  | ok s =>
    obtain ⟨f, htraced⟩ := p.perform_traced 0 ⟨0, 0⟩ (s.toList w.tree p.cwd) w
    rw [← p.run_eq_perform w hs] at htraced
    exact .inr ⟨s, f, rfl, htraced⟩

/-- However a run ends, its events are a trace, and its world is what its jobs have left. -/
theorem exists_trace (w : World σ) :
    ∃ f, p.Trace 0 w (p.run w).events f ∧
      (p.run w).world = p.worldAfter (startedJobs (p.run w).events) w ∧
      ∀ e, f = some e → (p.run w).result = .error e := by
  rcases p.run_traced w with ⟨e, -, hrun⟩ | ⟨s, f, -, htraced⟩
  · rw [hrun]
    exact ⟨none, .nil, rfl, by simp⟩
  · refine ⟨f, htraced.trace, htraced.world, ?_⟩
    rintro e rfl
    have hverdict := htraced.verdict
    generalize (p.run w).result = result at hverdict
    cases hverdict with
    | failed h => rfl

/-- The world in which the job of a run with the given index is done. -/
def worldAt (w : World σ) (n : Nat) : World σ :=
  p.worldAfter ((startedJobs (p.run w).events).take n) w

/-- What could not be read: the file list of the project, or the source of the jobs that would
    have come next. -/
def Unread (w : World σ) (e : Failure) : Prop :=
  p.jobs w.tree = .error e ∨
    ∃ s rest, p.jobs w.tree = .ok s ∧
      s.toList w.tree p.cwd = (startedJobs (p.run w).events).map .ok ++ .error e :: rest

/-- What a run tells, and how its result goes with it. -/
structure Reported (w : World σ) : Prop where
  /-- Every job of the queue has its start and its end, and the ends are counted. -/
  finished : ∀ stats, (p.run w).result = .ok stats →
    p.Trace 0 w (p.run w).events none ∧
      stats.generated = (completedJobs (p.run w).events).length ∧
      stats.skipped = (skippedJobs (p.run w).events).length ∧
      ∃ s, p.jobs w.tree = .ok s ∧
        stats.generated + stats.skipped = (s.toList w.tree p.cwd).length
  /-- Every job has its end and something could not be read, or the last job has failed. -/
  stopped : ∀ e, (p.run w).result = .error e →
    p.Trace 0 w (p.run w).events none ∧ p.Unread w e ∨
      p.Trace 0 w (p.run w).events (some e) ∧
        ∃ before job, startedJobs (p.run w).events = before ++ [job] ∧
          p.Cause job (p.worldAfter before w) e
  skipped : ∀ n job e, .skipped n job e ∈ (p.run w).events ↔
    (startedJobs (p.run w).events)[n]? = some job ∧
      (p.doJob job (p.worldAt w n)).result = .error e ∧ e.isRecoverable = true
  failed : ∀ n job e, (startedJobs (p.run w).events)[n]? = some job →
    (p.doJob job (p.worldAt w n)).result = .error e → e.isRecoverable = false →
      (p.run w).result = .error e ∧ n + 1 = (startedJobs (p.run w).events).length

/-- The jobs that are skipped are those whose `resolve` answers that there is no template, and those
    whose generator answers such a failure of its own when it is made or asked. -/
def SkipsRecoverable (w : World σ) : Prop :=
  ∀ n job e, .skipped n job e ∈ (p.run w).events ↔
    (startedJobs (p.run w).events)[n]? = some job ∧
      (p.templates.resolve (p.worldAt w n).tree p.cwd job.category = .error e ∧
          e = .templateNotFound job.category (p.templates.fileFor job.category) ∨
        p.Refused job (p.worldAt w n) e ∧ e.isRecoverable = true)

/-- The jobs that are skipped are those that have no template when their turn comes. -/
def SkipsUntemplated (w : World σ) : Prop :=
  ∀ n job e, .skipped n job e ∈ (p.run w).events ↔
    (startedJobs (p.run w).events)[n]? = some job ∧
      p.templates.resolve (p.worldAt w n).tree p.cwd job.category = .error e ∧
      e = .templateNotFound job.category (p.templates.fileFor job.category)

/-- What is told of the jobs of a run, one by one. -/
theorem skipped_run_iff (w : World σ) (n : Nat) (job : Job) (e : Failure) :
    .skipped n job e ∈ (p.run w).events ↔
      (startedJobs (p.run w).events)[n]? = some job ∧
        (p.doJob job (p.worldAt w n)).result = .error e ∧ e.isRecoverable = true := by
  obtain ⟨f, htrace, -, -⟩ := p.exists_trace w
  constructor
  · intro hskip
    obtain ⟨m, hm, hjob, hresult, he⟩ := htrace.of_skipped hskip
    obtain rfl : n = m := by rw [hm, Nat.zero_add]
    exact ⟨hjob, hresult, he⟩
  · intro ⟨hjob, hresult, he⟩
    have htold := htrace.end_of_started hjob
    rw [Nat.zero_add] at htold
    generalize hr : (p.doJob job _).result = result at htold
    obtain rfl : result = .error e := hr.symm.trans hresult
    cases htold with
    | skipped he' h => exact h
    | failed he' hf hlast => exact absurd he (by simp [he'])

/-- Whatever the generator is, only recoverable failures are skipped, and all of them. -/
theorem skipsRecoverable (w : World σ) : p.SkipsRecoverable w := by
  intro n job e
  rw [p.skipped_run_iff, recoverable_doJob_iff, or_and_right]
  refine and_congr_right fun _ => or_congr_left (and_congr_right fun hresolve => ?_)
  constructor
  · exact TemplateFolder.eq_templateNotFound_of_resolve hresolve
  · rintro rfl
    rfl

/-- If the generator fails for good only, a job is skipped just when it has no template. -/
theorem skipsUntemplated {p : Documenter} {w : World σ}
    (h : w.generator.FailsWithin Failure.Fatal Failure.Fatal) : p.SkipsUntemplated w := by
  intro n job e
  rw [p.skipped_run_iff]
  have hworld : (p.worldAt w n).generator.FailsWithin Failure.Fatal Failure.Fatal :=
    failsWithin_worldAfter h _
  constructor
  · intro ⟨hjob, hresult, he⟩
    have hresolve := resolve_of_doJob hworld hresult he
    exact ⟨hjob, hresolve, TemplateFolder.eq_templateNotFound_of_resolve hresolve he⟩
  · intro ⟨hjob, hresolve, he⟩
    refine ⟨hjob, ?_, ?_⟩
    · rw [doJob_of_resolve hresolve]
    · rw [he]
      rfl

/-- A job that fails for good is the last one, and the run fails as it did. -/
theorem failed_run {w : World σ} {n : Nat} {job : Job} {e : Failure}
    (hjob : (startedJobs (p.run w).events)[n]? = some job)
    (hresult : (p.doJob job (p.worldAt w n)).result = .error e) (he : e.isRecoverable = false) :
    (p.run w).result = .error e ∧ n + 1 = (startedJobs (p.run w).events).length := by
  obtain ⟨f, htrace, -, hf⟩ := p.exists_trace w
  have htold := htrace.end_of_started hjob
  generalize hr : (p.doJob job _).result = result at htold
  obtain rfl : result = .error e := hr.symm.trans hresult
  cases htold with
  | skipped he' h => exact absurd he (by simp [he'])
  | failed he' hfe hlast => exact ⟨hf e hfe, hlast⟩

/-- **What a run reports.**  Starts and ends alternate, job by job and counted from 0.  A run that
    succeeds tells the end of every job and counts them; one that fails either could not read on,
    or was ended by its last job, of which only the start is told.  A job is skipped exactly if
    its `resolve` or its generator answers a missing template (`SkipsRecoverable`); if the
    generator fails for good only, as `generatorFor s c` does for every configuration `c`, exactly
    the jobs without a template are skipped (`SkipsUntemplated`). -/
theorem run_reported (w : World σ) :
    p.Reported w ∧ p.SkipsRecoverable w ∧
      (w.generator.FailsWithin Failure.Fatal Failure.Fatal → p.SkipsUntemplated w) ∧
      ∀ s c t x, p.SkipsUntemplated ⟨t, generatorFor s c, x⟩ := by
  refine ⟨⟨?finished, ?stopped, p.skipped_run_iff w, fun _ _ _ => p.failed_run⟩,
    p.skipsRecoverable w, skipsUntemplated, fun s c t x => skipsUntemplated (fatal_generatorFor s c)⟩
  case finished =>
    intro stats hresult
    rcases p.run_traced w with ⟨e, -, hrun⟩ | ⟨s, f, hs, htraced⟩
    · rw [hrun] at hresult
      exact absurd hresult (by simp)
    · have htrace := htraced.trace
      have hverdict := htraced.verdict
      rw [hresult] at hverdict
      cases hverdict with
      | done h hgenerated hskipped =>
        rw [Nat.zero_add] at hgenerated hskipped
        refine ⟨htrace, hgenerated, hskipped, s, hs, ?_⟩
        rw [hgenerated, hskipped, htrace.length_startedJobs, h, List.length_map]
  case stopped =>
    intro e hresult
    rcases p.run_traced w with ⟨e', hs, hrun⟩ | ⟨s, f, hs, htraced⟩
    · rw [hrun] at hresult ⊢
      obtain rfl := Except.error.inj hresult
      exact .inl ⟨.nil, .inl hs⟩
    · have htrace := htraced.trace
      have hverdict := htraced.verdict
      rw [hresult] at hverdict
      cases hverdict with
      | unread h => exact .inl ⟨htrace, .inr ⟨s, _, hs, h⟩⟩
      | failed h =>
        obtain ⟨before, job, hstarted, hfailed⟩ := htrace.of_failed
        exact .inr ⟨htrace, before, job, hstarted, cause_of_doJob hfailed⟩

/-! ### A project with one template -/

/-- A source with two declarations, and a template for one of them. -/
def sparseTree : FileTree :=
  ⟨[(["p".toList], .directory),
    (["p".toList, "c".toList], .file (.text "\x7b\"include\":[\"a.ts\"]\x7d")),
    (["p".toList, "a.ts".toList], .file (.text "enum A\x7b\x7d interface B\x7b\x7d")),
    (["t".toList], .directory),
    (["t".toList, "enum.md".toList], .file (.text ""))]⟩

/-- The documents of its project. -/
def sparse : Documenter where
  project := ⟨⟨"/p/c".toList⟩, ⟨"/p".toList⟩, ⟨"/p".toList⟩, ["a.ts"], []⟩
  outputRoot := ⟨"docs".toList⟩
  templates := ⟨⟨"t".toList⟩⟩
  cwd := []

/-- The job without a template, which comes first. -/
def bareJob : Job :=
  ⟨"B", "interface B\x7b\x7d", .interface, ⟨"docs/".toList⟩, "B.md", ⟨"/p/a.ts".toList⟩⟩

/-- The job with a template. -/
def templatedJob : Job :=
  ⟨"A", "enum A\x7b\x7d", .enum, ⟨"docs/".toList⟩, "A.md", ⟨"/p/a.ts".toList⟩⟩

/-- The queue of the project in a tree with that source. -/
theorem toList_of_source {t : FileTree}
    (hfiles : sparse.project.sourceFiles t [] = .ok [⟨"/p/a.ts".toList⟩])
    (hjobs : JobQueue.jobsOf sparse.project sparse.outputRoot t sparse.cwd ⟨"/p/a.ts".toList⟩ =
      .ok [bareJob, templatedJob]) :
    ∃ s, sparse.jobs t = .ok s ∧ s.toList t sparse.cwd = [.ok bareJob, .ok templatedJob] := by
  refine ⟨⟨sparse.project, sparse.outputRoot, [], [⟨"/p/a.ts".toList⟩]⟩, ?_, ?_⟩
  · show JobQueue.start sparse.project sparse.outputRoot t [] = _
    rw [JobQueue.start, hfiles]
    rfl
  · rw [JobQueue.toList_eq_itemsOf, JobQueue.itemsOf, List.flatMap_singleton, hjobs]
    rfl

/-- Its queue holds two jobs. -/
theorem toList_sparse : ∃ s, sparse.jobs sparseTree = .ok s ∧
    s.toList sparseTree sparse.cwd = [.ok bareJob, .ok templatedJob] := by
  apply toList_of_source
  · with_unfolding_all rfl
  · rfl

/-- What is said of the job without a template. -/
def bareReason : Failure := .templateNotFound .interface ⟨"t/interface.md".toList⟩

/-- Whatever the generator is, the first job is skipped and the second is started. -/
theorem run_sparse (generator : Generator σ) (state : σ) :
    sparse.run ⟨sparseTree, generator, state⟩ =
      (sparse.perform 1 ⟨0, 1⟩ [.ok templatedJob] ⟨sparseTree, generator, state⟩).after
        [.started 0 bareJob, .skipped 0 bareJob bareReason]
        [.skipped "B" .interface bareReason] := by
  obtain ⟨s, hs, hlist⟩ := toList_sparse
  have hbare : sparse.doJob bareJob ⟨sparseTree, generator, state⟩ =
      ⟨.error bareReason, ⟨sparseTree, generator, state⟩, []⟩ := doJob_of_resolve rfl
  rw [sparse.run_eq_perform ⟨sparseTree, generator, state⟩ hs, hlist,
    perform_of_skipped (e := bareReason) (by rw [hbare]) rfl, hbare]
  rfl

/-- The first job of that project is skipped, and it has no template. -/
theorem run_reported_sparse :
    let w : World Unit := ⟨sparseTree, .ofBackend fixedBackend, ()⟩
    w.generator.FailsWithin Failure.Fatal Failure.Fatal ∧ sparse.SkipsUntemplated w ∧
      .skipped 0 bareJob bareReason ∈ (sparse.run w).events := by
  have hfatal : (Generator.ofBackend fixedBackend).FailsWithin Failure.Fatal Failure.Fatal :=
    Generator.failsWithin_ofBackend fun prompt s e he => absurd he (by simp [fixedBackend])
  refine ⟨hfatal, (run_reported sparse _).2.2.1 hfatal, ?_⟩
  rw [run_sparse]
  exact List.mem_append_left _ (by simp)

/-- A backend that says of its own that a template is missing. -/
def refusingBackend : Backend Unit where
  name := "refusing"
  model := "refusing"
  checkHealth _ := ⟨.ok true, (), []⟩
  generate _ _ := ⟨.error bareReason, (), []⟩

/-- With such a backend a job is skipped although `resolve` finds its template. -/
theorem not_skipsUntemplated_refusing :
    let w : World Unit := ⟨sparseTree, .ofBackend refusingBackend, ()⟩
    (startedJobs (sparse.run w).events)[1]? = some templatedJob ∧
      sparse.templates.resolve (sparse.worldAt w 1).tree sparse.cwd templatedJob.category = .ok "" ∧
      .skipped 1 templatedJob bareReason ∈ (sparse.run w).events ∧ ¬ sparse.SkipsUntemplated w := by
  intro w
  have hrefused : (sparse.doJob templatedJob w).result = .error bareReason := rfl
  have hrun := run_sparse (.ofBackend refusingBackend) ()
  rw [perform_of_skipped hrefused rfl] at hrun
  have hevents : (sparse.run w).events =
      [.started 0 bareJob, .skipped 0 bareJob bareReason,
        .started 1 templatedJob, .skipped 1 templatedJob bareReason] := congrArg RunReport.events hrun
  have hstarted : startedJobs (sparse.run w).events = [bareJob, templatedJob] := by
    rw [hevents]
    rfl
  have htemplate : sparse.templates.resolve (sparse.worldAt w 1).tree sparse.cwd
      templatedJob.category = .ok "" := by
    rw [worldAt, hstarted]
    rfl
  have hskipped : .skipped 1 templatedJob bareReason ∈ (sparse.run w).events := by
    rw [hevents]
    simp
  refine ⟨by rw [hstarted]; rfl, htemplate, hskipped, fun hskips => ?_⟩
  -- its template is found, so this is not why it is skipped
  have hresolve := ((hskips 1 templatedJob bareReason).mp hskipped).2.1
  rw [htemplate] at hresolve
  exact absurd hresolve (by simp)

end Documenter

end DeclarationDocs
