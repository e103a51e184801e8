import DeclarationDocs.Proofs.Documenter.Recording
import DeclarationDocs.Proofs.FileTree.Writing

namespace DeclarationDocs

open FileTree

/-!
# What a run does to the files

A run writes the documents of the jobs that it reports as completed and nothing else, however it
ends.

* `completedJobs` — the jobs that a run reports as completed, in order;
* `Documenter.doJob_effect` — one job: its document is written, or no file has changed;
* `Documenter.runFrom_effect` — the jobs that are left, by induction along the queue;
* `Documenter.run_effect` — a whole run: `Becomes p.cwd w.tree (p.run w).world.tree written`, where
  `written` are the `documentsOf` the completed jobs.
-/

variable {σ : Type}

/-- The jobs that are reported as completed, in order. -/
def completedJobs (events : List Event) : List Job :=
  events.filterMap fun
    | .completed _ job _ => some job
    | _ => none

/-- What a run has written: at the path of each completed job the text that was given back for
    it. -/
def documentsOf (completed : List (Job × Answer)) : List (Path × String) :=
  completed.map fun c => (c.1.outputPath, c.2.text)

/-- Each answer was asked for with the prompt of the job beside it, through some template. -/
def Asked (completed : List (Job × Answer)) : Prop :=
  ∀ c ∈ completed, ∃ template, c.2.prompt = documentPrompt template c.1.rawText

namespace Documenter

variable (p : Documenter)

/-! ### One job -/

/-- Delivering a text writes the document of the job, or ends in a failure that ends the run. -/
theorem deliver_effect (job : Job) (text : String) (w : World σ) (warnings : List Warning) :
    match (p.deliver job text w warnings).result with
    | .ok _ =>
      Becomes p.cwd w.tree (p.deliver job text w warnings).world.tree [(job.outputPath, text)]
    | .error e =>
      Becomes p.cwd w.tree (p.deliver job text w warnings).world.tree [] ∧
        e.isRecoverable = false := by
  unfold deliver
  cases hw : writeDocument w.tree p.cwd job.outputDir job.outputFileName text with
  | mk t r =>
    cases r with
    | ok path =>
      obtain ⟨rfl, hbecomes⟩ := writeDocument_ok hw
      exact hbecomes
    | error f => exact ⟨writeDocument_error hw, rfl⟩

/-! #### The four ways in which a job can go -/

section Ways

variable {p} {job : Job} {w : World σ} {template text : String} {e : Failure}

/-- The world once the backend has been made ready. -/
def readied (w : World σ) : World σ :=
  ⟨w.tree, (w.generator.makeReady w.state).1, (w.generator.makeReady w.state).2.state⟩

/-- The request for a text, and what it leaves. -/
def request (job : Job) (template : String) (w : World σ) : Generator σ × Outcome σ String :=
  (readied w).generator.generate job.rawText template (readied w).state

/-- The world once a text has been asked for. -/
def requested (job : Job) (template : String) (w : World σ) : World σ :=
  ⟨w.tree, (request job template w).1, (request job template w).2.state⟩

/-- Without a template the job fails with what `resolve` answers, and nothing is done. -/
theorem doJob_of_resolve (h : p.templates.resolve w.tree p.cwd job.category = .error e) :
    p.doJob job w = ⟨.error e, w, []⟩ := by
  simp [doJob, h]

/-- Without a backend the job fails, and only the attempt to make one is left. -/
theorem doJob_of_makeReady (h : p.templates.resolve w.tree p.cwd job.category = .ok template)
    (hr : (w.generator.makeReady w.state).2.result = .error e) :
    p.doJob job w = ⟨.error e, readied w, (w.generator.makeReady w.state).2.warnings⟩ := by
  simp [doJob, h, hr, readied]

/-- If the backend gives no text the job fails, and no document is written. -/
theorem doJob_of_generate (h : p.templates.resolve w.tree p.cwd job.category = .ok template)
    (hr : (w.generator.makeReady w.state).2.result = .ok ())
    (hg : (request job template w).2.result = .error e) :
    p.doJob job w =
      ⟨.error e, requested job template w,
        (w.generator.makeReady w.state).2.warnings ++ (request job template w).2.warnings⟩ := by
  simp only [request, readied] at hg
  simp [doJob, h, hr, hg, requested, request, readied]

/-- Otherwise the text is delivered. -/
theorem doJob_of_deliver (h : p.templates.resolve w.tree p.cwd job.category = .ok template)
    (hr : (w.generator.makeReady w.state).2.result = .ok ())
    (hg : (request job template w).2.result = .ok text) :
    p.doJob job w =
      p.deliver job text (requested job template w)
        ((w.generator.makeReady w.state).2.warnings ++ (request job template w).2.warnings) := by
  simp only [request, readied] at hg
  simp [doJob, h, hr, hg, requested, request, readied]

variable (answers : List Answer)

/-- Recording answers does not interfere with making the generator ready. -/
theorem readied_recording (w : World σ) :
    readied (w.recording answers) = (readied w).recording answers := by
  simp only [readied, World.recording, Generator.makeReady_recording]
  rfl

/-- The request of a recording world notes the text that comes back. -/
theorem request_recording (job : Job) (template : String) (w : World σ) :
    request job template (w.recording answers) =
      ((request job template w).1.recording,
        (request job template w).2.recording
          (answers ++ answersOf (documentPrompt template job.rawText)
            (request job template w).2.result)) := by
  unfold request
  rw [readied_recording]
  exact Generator.generate_recording ..

/-- A request is recorded with its prompt and answer. -/
theorem requested_recording (job : Job) (template : String) (w : World σ) :
    requested job template (w.recording answers) =
      (requested job template w).recording
        (answers ++ answersOf (documentPrompt template job.rawText)
          (request job template w).2.result) := by
  unfold requested
  rw [request_recording]
  rfl

/-- Delivering a text leaves what was recorded. -/
theorem deliver_recording (job : Job) (text : String) (w : World σ) (warnings : List Warning) :
    p.deliver job text (w.recording answers) warnings =
      (p.deliver job text w warnings).recording answers := rfl

end Ways

/-- **One job.**  Noting the answers changes nothing.  A job that succeeds has one answer, which
    is the text of its document; a job that fails changes no file, and it has an answer only if
    that could not be delivered, which ends the run. -/
theorem doJob_effect (job : Job) (w : World σ) (answers : List Answer) :
    ∃ added, p.doJob job (w.recording answers) = (p.doJob job w).recording (answers ++ added) ∧
      match (p.doJob job w).result with
      | .ok _ =>
        ∃ template text, added = [⟨documentPrompt template job.rawText, text⟩] ∧
          Becomes p.cwd w.tree (p.doJob job w).world.tree [(job.outputPath, text)]
      | .error e =>
        Becomes p.cwd w.tree (p.doJob job w).world.tree [] ∧
          (e.isRecoverable = true → added = []) := by
  have hready : ((w.recording answers).generator.makeReady (w.recording answers).state).2 =
      (w.generator.makeReady w.state).2.recording answers := by
    simp only [World.recording, Generator.makeReady_recording]
  cases h : p.templates.resolve w.tree p.cwd job.category with
  | error e =>
    -- no template: nothing is asked
    have h' : p.templates.resolve (w.recording answers).tree p.cwd job.category = .error e := h
    rw [doJob_of_resolve h, doJob_of_resolve h']
    exact ⟨[], by simp [JobReport.recording], .refl _, fun _ => rfl⟩
  | ok template =>
    have h' : p.templates.resolve (w.recording answers).tree p.cwd job.category = .ok template := h
    cases hr : (w.generator.makeReady w.state).2.result with
    | error e =>
      -- no backend: nothing is asked
      have hr' : ((w.recording answers).generator.makeReady
          (w.recording answers).state).2.result = .error e := by rw [hready]; exact hr
      rw [doJob_of_makeReady h hr, doJob_of_makeReady h' hr', hready, readied_recording]
      exact ⟨[], by simp [JobReport.recording, Outcome.recording], .refl _, fun _ => rfl⟩
    | ok u =>
      have hr' : ((w.recording answers).generator.makeReady
          (w.recording answers).state).2.result = .ok () := by rw [hready]; exact hr
      have hrequest := request_recording answers job template w
      cases hg : (request job template w).2.result with
      | error e =>
        -- the request fails: nothing comes back
        have hg' : (request job template (w.recording answers)).2.result = .error e := by
          rw [hrequest]; exact hg
        rw [doJob_of_generate h hr hg, doJob_of_generate h' hr' hg', hready, hrequest,
          requested_recording, hg]
        exact ⟨[], rfl, .refl _, fun _ => rfl⟩
      | ok text =>
        -- one text comes back; what remains is how it is delivered
        have hg' : (request job template (w.recording answers)).2.result = .ok text := by
          rw [hrequest]; exact hg
        rw [doJob_of_deliver h hr hg, doJob_of_deliver h' hr' hg', hready, hrequest,
          requested_recording, hg, deliver_recording]
        refine ⟨[⟨documentPrompt template job.rawText, text⟩], rfl, ?_⟩
        have heffect := p.deliver_effect job text (requested job template w)
          ((w.generator.makeReady w.state).2.warnings ++ (request job template w).2.warnings)
        split at heffect
        · exact ⟨template, text, rfl, heffect⟩
        · rename_i e he
          exact ⟨heffect.1, fun hrec => absurd hrec (by simp [heffect.2])⟩

/-! ### The jobs that are left -/

/-! #### The five ways in which a run can go on -/

section Ways

variable {p} {index : Nat} {stats : Tally} {s rest : JobQueue} {w : World σ} {job : Job}
  {path : Path} {e : Failure}

/-- A run ends when the queue has nothing more. -/
theorem runFrom_of_none (h : s.next w.tree p.cwd = none) :
    p.runFrom index stats s w = ⟨.ok stats, w, [], []⟩ := by
  rw [runFrom]
  split <;> simp_all

/-- A run ends with an item that is a failure. -/
theorem runFrom_of_error (h : s.next w.tree p.cwd = some (.error e, rest)) :
    p.runFrom index stats s w = ⟨.error e, w, [], []⟩ := by
  rw [runFrom]
  split <;> simp_all

/-- A job that is completed is counted, told of, and followed by the rest. -/
theorem runFrom_of_completed (h : s.next w.tree p.cwd = some (.ok job, rest))
    (hr : (p.doJob job w).result = .ok path) :
    p.runFrom index stats s w =
      (p.runFrom (index + 1) { stats with generated := stats.generated + 1 } rest
        (p.doJob job w).world).after
        [.started index job, .completed index job path] (p.doJob job w).warnings := by
  rw [runFrom]
  split <;> simp_all

/-- So is one that is skipped, by a failure that is recoverable. -/
theorem runFrom_of_skipped (h : s.next w.tree p.cwd = some (.ok job, rest))
    (hr : (p.doJob job w).result = .error e) (he : e.isRecoverable = true) :
    p.runFrom index stats s w =
      (p.runFrom (index + 1) { stats with skipped := stats.skipped + 1 } rest
        (p.doJob job w).world).after
        [.started index job, .skipped index job e]
        ((p.doJob job w).warnings ++ [.skipped job.declarationName job.category e]) := by
  rw [runFrom]
  split <;> simp_all

/-- Any other failure of a job ends the run, behind the start of that job. -/
theorem runFrom_of_failed (h : s.next w.tree p.cwd = some (.ok job, rest))
    (hr : (p.doJob job w).result = .error e) (he : e.isRecoverable = false) :
    p.runFrom index stats s w =
      ⟨.error e, (p.doJob job w).world, [.started index job], (p.doJob job w).warnings⟩ := by
  rw [runFrom]
  split <;> simp_all

end Ways

/-- What a report says about the files: the answers `added` go, job by job, with the jobs
    completed, and the tree has become the tree with their documents. -/
structure Documents (t : FileTree) (r : RunReport σ) (added : List Answer) : Prop where
  length_le : (completedJobs r.events).length ≤ added.length
  asked : Asked ((completedJobs r.events).zip added)
  becomes : Becomes p.cwd t r.world.tree (documentsOf ((completedJobs r.events).zip added))

namespace Documents

variable {p} {t t' : FileTree} {r : RunReport σ} {added : List Answer} {job : Job}

/-- A report without completed jobs speaks of no documents, whatever was answered. -/
theorem of_no_job (h : completedJobs r.events = []) (hbecomes : Becomes p.cwd t r.world.tree []) :
    Documents p t r added where
  length_le := by simp [h]
  asked := by simp [h, Asked]
  becomes := by simpa [h, documentsOf] using hbecomes

/-- One more completed job in front, with its answer and its document. -/
theorem after_completed {template text : String} {index : Nat} {path : Path}
    {warnings : List Warning} (h : Documents p t' r added)
    (hbecomes : Becomes p.cwd t t' [(job.outputPath, text)]) :
    Documents p t (r.after [.started index job, .completed index job path] warnings)
      (⟨documentPrompt template job.rawText, text⟩ :: added) := by
  have hevents : completedJobs
      (r.after [.started index job, .completed index job path] warnings).events
        = job :: completedJobs r.events := rfl
  constructor
  · rw [hevents]
    exact Nat.succ_le_succ h.length_le
  · rw [hevents, List.zip_cons_cons]
    exact List.forall_mem_cons.mpr ⟨⟨template, rfl⟩, h.asked⟩
  · rw [hevents, List.zip_cons_cons]
    exact hbecomes.trans h.becomes

/-- One more skipped job in front, which was not answered and changed no file. -/
theorem after_skipped {index : Nat} {e : Failure} {warnings : List Warning}
    (h : Documents p t' r added) (hbecomes : Becomes p.cwd t t' []) :
    Documents p t (r.after [.started index job, .skipped index job e] warnings) added where
  length_le := h.length_le
  asked := h.asked
  becomes := hbecomes.trans h.becomes

end Documents

/-- **The jobs that are left.**  By induction along the queue: noting the answers changes
    nothing, and the report speaks of exactly the documents that were written. -/
theorem runFrom_effect (index : Nat) (stats : Tally) (s : JobQueue) (w : World σ)
    (answers : List Answer) :
    ∃ added,
      p.runFrom index stats s (w.recording answers) =
        (p.runFrom index stats s w).recording (answers ++ added) ∧
      Documents p w.tree (p.runFrom index stats s w) added := by
  induction index, stats, s, w using Documenter.runFrom.induct p generalizing answers with
  | case1 index stats s w h =>
    have h' : s.next (w.recording answers).tree p.cwd = none := h
    rw [runFrom_of_none h, runFrom_of_none h']
    exact ⟨[], by simp [RunReport.recording], .of_no_job rfl (.refl _)⟩
  | case2 index stats s w e rest h =>
    have h' : s.next (w.recording answers).tree p.cwd = some (.error e, rest) := h
    rw [runFrom_of_error h, runFrom_of_error h']
    exact ⟨[], by simp [RunReport.recording], .of_no_job rfl (.refl _)⟩
  | case3 index stats s w job rest h r path hr ih =>
    have h' : s.next (w.recording answers).tree p.cwd = some (.ok job, rest) := h
    obtain ⟨first, hdo, heffect⟩ := p.doJob_effect job w answers
    have hr' : (p.doJob job (w.recording answers)).result = .ok path := by rw [hdo]; exact hr
    rw [show (p.doJob job w).result = .ok path from hr] at heffect
    obtain ⟨template, text, rfl, hbecomes⟩ := heffect
    obtain ⟨added, hrun, hdocuments⟩ := ih (answers ++ [⟨documentPrompt template job.rawText, text⟩])
    rw [runFrom_of_completed h hr, runFrom_of_completed h' hr', hdo]
    refine ⟨⟨documentPrompt template job.rawText, text⟩ :: added, ?_,
      hdocuments.after_completed hbecomes⟩
    -- the rest of the run starts with the answer of this job noted
    show (p.runFrom _ _ rest (r.world.recording _)).after _ _ = _
    rw [hrun, List.append_assoc]
    rfl
  | case4 index stats s w job rest h r e hr he ih =>
    have h' : s.next (w.recording answers).tree p.cwd = some (.ok job, rest) := h
    obtain ⟨first, hdo, heffect⟩ := p.doJob_effect job w answers
    have hr' : (p.doJob job (w.recording answers)).result = .error e := by rw [hdo]; exact hr
    rw [show (p.doJob job w).result = .error e from hr] at heffect
    -- a job that is passed over has no answer
    obtain ⟨hbecomes, hnone⟩ := heffect
    obtain rfl := hnone he
    obtain ⟨added, hrun, hdocuments⟩ := ih (answers ++ [])
    rw [runFrom_of_skipped h hr he, runFrom_of_skipped h' hr' he, hdo]
    refine ⟨added, ?_, hdocuments.after_skipped hbecomes⟩
    show (p.runFrom _ _ rest (r.world.recording _)).after _ _ = _
    rw [hrun, List.append_nil]
    rfl
  | case5 index stats s w job rest h r e hr he =>
    have h' : s.next (w.recording answers).tree p.cwd = some (.ok job, rest) := h
    have he' : e.isRecoverable = false := by simpa using he
    obtain ⟨added, hdo, heffect⟩ := p.doJob_effect job w answers
    have hr' : (p.doJob job (w.recording answers)).result = .error e := by rw [hdo]; exact hr
    rw [show (p.doJob job w).result = .error e from hr] at heffect
    -- its answer, if there is one, is behind those of the completed jobs
    rw [runFrom_of_failed h hr he', runFrom_of_failed h' hr' he', hdo]
    exact ⟨added, rfl, .of_no_job rfl heffect.1⟩

/-! ### A whole run -/

/-- **What a run does to the files.**  However `p.run w` ends, its `completedJobs` can be paired
    with texts that the backend gave back for them, and then its tree `Becomes` what `documentsOf`
    these pairs makes of `w.tree`: each text is written at the `outputPath` of its job, in order,
    and no other file changes.  Directories may be new, and none is gone. -/
theorem run_effect (w : World σ) :
    let r := p.run w
    let completed := (completedJobs r.events).zip (p.answers w)
    p.run (w.recording []) = r.recording (p.answers w) ∧
      (completedJobs r.events).length ≤ (p.answers w).length ∧
      Asked completed ∧
      Becomes p.cwd w.tree r.world.tree (documentsOf completed) := by
  have heffect : ∃ added, p.run (w.recording []) = (p.run w).recording added ∧
      Documents p w.tree (p.run w) added := by
    unfold run
    cases hs : p.jobs w.tree with
    | error e =>
      have hs' : p.jobs (w.recording []).tree = .error e := hs
      rw [hs']
      exact ⟨[], rfl, .of_no_job rfl (.refl _)⟩
    | ok s =>
      have hs' : p.jobs (w.recording []).tree = .ok s := hs
      rw [hs']
      exact p.runFrom_effect 0 ⟨0, 0⟩ s w []
  -- a run starts with nothing noted, so what is added are all answers
  obtain ⟨added, hrun, hdocuments⟩ := heffect
  have hanswers : p.answers w = added := by rw [answers, hrun]; rfl
  show p.run (w.recording []) = (p.run w).recording (p.answers w) ∧ _
  rw [hanswers]
  exact ⟨hrun, hdocuments.length_le, hdocuments.asked, hdocuments.becomes⟩

end Documenter

end DeclarationDocs
