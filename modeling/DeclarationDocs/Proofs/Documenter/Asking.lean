import DeclarationDocs.Proofs.Documenter.Failing
import DeclarationDocs.Proofs.Documenter.Reporting
import DeclarationDocs.Proofs.Generator.Calls

namespace DeclarationDocs

/-!
# What a run asks for

A job that finds its template calls the generator twice, to be made ready and for the text; a job
that does not find one leaves it alone.  So what a run asks for can be read off the jobs that it
has started and the templates they have found.

* `Documenter.templated` — the jobs that find their template, with the template;
* `Documenter.session_doJob`, `Documenter.session_worldAfter` — what one job, and what all of them
  have called the generator for;
* `Documenter.worldAfter_eq_of_templated` — what that leaves, if the generator is new and always
  makes the same backend.
-/

variable {σ : Type}

/-- The generator of a world and the state of its backend. -/
def World.session (w : World σ) : Session σ := ⟨w.generator, w.state⟩

/-- The calls for a job and the template that was found for it. -/
def callsFor (x : Job × String) : List Call := [.makeReady, .generate x.1.rawText x.2]

/-- The prompt for a job and the template that was found for it. -/
def promptFor (x : Job × String) : String := documentPrompt x.2 x.1.rawText

/-- Only one of the calls has a prompt. -/
theorem promptsFrom_callsFor (found : List (Job × String)) :
    promptsFrom 0 (found.flatMap callsFor) = found.map promptFor := by
  show (found.flatMap callsFor).filterMap Call.prompt? = _
  induction found with
  | nil => rfl
  | cons x found ih =>
    rw [List.flatMap_cons, List.filterMap_append, ih]
    rfl

/-- A generator that never fails to make a backend. -/
def Generator.Makes (i : Generator σ) : Prop := ∀ n, ∃ made, i.make n = .ok made

/-- A generator that makes a backend in any case has one when it is needed. -/
theorem Generator.Makes.handle {i : Generator σ} (h : i.Makes) (s : σ) :
    ∃ b, (i.handle s).2.result = .ok b := by
  cases hr : (i.handle s).2.result with
  | ok b => exact ⟨b, rfl⟩
  | error e =>
    obtain ⟨-, hmake, -⟩ := Generator.handle_eq_error hr
    obtain ⟨made, hmade⟩ := h i.attempts
    exact absurd (hmake.symm.trans hmade) (by simp)

namespace Documenter

variable (p : Documenter)

/-- Of jobs that are done one after the other, those that find their template when their turn
    comes, with the template. -/
def templated : List Job → World σ → List (Job × String)
  | [], _ => []
  | job :: jobs, w =>
    (p.templates.resolve w.tree p.cwd job.category).toOption.toList.map (job, ·) ++
      templated jobs (p.doJob job w).world

variable {p} {job : Job} {w : World σ} {template : String}

/-- A job leaves the way in which backends are made. -/
theorem make_doJob (p : Documenter) (job : Job) (w : World σ) :
    (p.doJob job w).world.generator.make = w.generator.make := by
  cases p.course_doJob job w with
  | untemplated e hresolve hr => rw [hr]
  | unmade template e hresolve hnone hmake hr => rw [hr]
  | asked template b hresolve huses hgenerator hbackend hr =>
    rw [hgenerator, Generator.make_handle]

/-- **One job.**  With a template it is two calls of the generator, also if that gives no text, and
    without one it is none. -/
theorem session_doJob (hmakes : w.generator.Makes) :
    (p.doJob job w).world.session =
      w.session.after
        (((p.templates.resolve w.tree p.cwd job.category).toOption.toList.map (job, ·)).flatMap
          callsFor) := by
  cases hresolve : p.templates.resolve w.tree p.cwd job.category with
  | error e =>
    rw [doJob_of_resolve hresolve]
    rfl
  | ok template =>
    obtain ⟨b, hb⟩ := hmakes.handle w.state
    have hready : (w.generator.makeReady w.state).2.result = .ok () := by
      show (w.generator.handle w.state).2.result.map _ = _
      rw [hb]
      rfl
    -- what was asked for is noted before it is known what comes of it
    show _ = (requested job template w).session
    cases hg : (request job template w).2.result with
    | error e => rw [doJob_of_generate hresolve hready hg]
    | ok text =>
      rw [doJob_of_deliver hresolve hready hg]
      rfl

/-- **All jobs.**  By induction on the jobs, each in the world that those before have left. -/
theorem session_worldAfter (hmakes : w.generator.Makes) (jobs : List Job) :
    (p.worldAfter jobs w).session = w.session.after ((p.templated jobs w).flatMap callsFor) := by
  induction jobs generalizing w with
  | nil => rfl
  | cons job jobs ih =>
    have hmakes' : (p.doJob job w).world.generator.Makes := by
      unfold Generator.Makes
      rw [make_doJob]
      exact hmakes
    show (p.worldAfter jobs (p.doJob job w).world).session = _
    rw [ih hmakes', session_doJob hmakes, templated, List.flatMap_append]
    exact List.foldl_append.symm

/-- What jobs leave of a generator that was not used before and always makes the same backend: as
    long as no job has found its template, there is no backend; then it was looked at, and asked
    for the text of each job that found one. -/
theorem worldAfter_eq_of_templated {b : Backend σ} {warnings : List Warning} {t : FileTree} {s : σ}
    (p : Documenter) (jobs : List Job) :
    let w : World σ := ⟨t, .ofFactory fun _ => .ok (b, warnings), s⟩
    (p.worldAfter jobs w).state =
      if p.templated jobs w = [] then s
      else b.stateAfter (b.checkHealth s).state ((p.templated jobs w).map promptFor) := by
  intro w
  have hsession := session_worldAfter (p := p) (w := w) (fun _ => ⟨_, rfl⟩) jobs
  have hstate : (p.worldAfter jobs w).state = (p.worldAfter jobs w).session.state := rfl
  rw [hstate, hsession]
  split
  · rename_i hnone
    rw [hnone]
    rfl
  · rename_i hsome
    have hcalls : 0 < ((p.templated jobs w).flatMap callsFor).length := by
      obtain ⟨x, found, hfound⟩ := List.exists_cons_of_ne_nil hsome
      rw [hfound, List.flatMap_cons]
      exact Nat.succ_pos _
    show (Session.after (.fresh _ s) _).state = _
    rw [Session.after_of_lt (n := 0) (by simp) rfl hcalls, promptsFrom_callsFor]

end Documenter

end DeclarationDocs
