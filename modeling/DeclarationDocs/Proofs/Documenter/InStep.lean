import DeclarationDocs.Proofs.Documenter.Lockstep
import DeclarationDocs.Proofs.Documenter.Marking
import DeclarationDocs.Proofs.FileTree.Repeating

namespace DeclarationDocs

open FileTree

/-!
# A run and its repetition

A second run goes over the tree in which the first one has ended, so it meets each job with what was
written for later ones already there.  It is compared with the first run when that was at the same
job: by then both have written the same documents.

* `Generator.Answers` — a generator whose answers depend on the prompt alone;
  `Generator.Serves` — a generator that is as it was, or has one of its backends by now;
* `Documenter.outcomeOf`, `Documenter.doJob_of_answered` — what a job comes to with its answer;
* `Documenter.Finishes` — a run on its way to the tree in which it ends;
* `Documenter.InStep` — a first run on its way, and a second one at the same job;
  `Documenter.inStep_doJob` — what one job keeps of it.
-/

variable {σ : Type}

/-! ### Generators that have been used -/

namespace Generator

variable {i g : Generator σ} {b : Backend σ} {s : σ} {answer : String → Except Failure String}

/-- Whatever its state, a backend gives to each prompt what `answer` says; and if there is none,
    that ends the run. -/
structure Answers (answer : String → Except Failure String) (i : Generator σ) : Prop where
  making : ∀ n e, i.make n = .error e → e.Fatal
  asking : ∀ b, i.Uses b → ∀ prompt s,
    (b.generate prompt s).result.map Generated.content = answer prompt

/-- There is a backend, or the next attempt makes one. -/
def Obtains (i : Generator σ) : Prop := ∀ s, ∃ b, (i.handle s).2.result = .ok b

/-- The generator `i`, or what has become of it with a backend. -/
def Serves (i g : Generator σ) : Prop :=
  g = i ∨ i.Obtains ∧ ∃ b, g.backend? = some b ∧ i.Uses b

/-- Whether there is a backend does not depend on the state. -/
theorem obtains_of_handle (h : (i.handle s).2.result = .ok b) : i.Obtains := by
  intro s'
  cases hb : i.backend? with
  | some b' => exact ⟨b', by rw [handle_of_some hb]⟩
  | none =>
    cases hmake : i.make i.attempts with
    | error e => simp [handle, hb, hmake] at h
    | ok made => exact ⟨made.1, by simp only [handle, hb, hmake]⟩

namespace Serves

/-- With a backend it is one of those of `i`, and then `i` obtains one as well. -/
theorem handle (h : i.Serves g) (hok : (g.handle s).2.result = .ok b) :
    i.Obtains ∧ i.Uses b ∧ i.Serves (g.handle s).1 := by
  rcases h with rfl | ⟨hobtains, b', hb', huses⟩
  · obtain ⟨hbackend, huses⟩ := handle_eq_ok hok
    exact ⟨obtains_of_handle hok, huses, .inr ⟨obtains_of_handle hok, b, hbackend, huses⟩⟩
  · rw [handle_of_some hb'] at hok ⊢
    obtain rfl := Except.ok.inj hok
    exact ⟨hobtains, huses, .inr ⟨hobtains, b', hb', huses⟩⟩

/-- Without a backend it is as it was, and then that ends the run. -/
theorem fatal_of_handle (h : i.Serves g) (hanswers : i.Answers answer) {e : Failure}
    (hfailed : (g.handle s).2.result = .error e) : e.Fatal := by
  obtain ⟨hnone, hmake, -⟩ := handle_eq_error hfailed
  rcases h with rfl | ⟨-, b, hb, -⟩
  · exact hanswers.making _ e hmake
  · exact absurd (hb.symm.trans hnone) (by simp)

/-- If `i` obtains a backend, so does what has become of it. -/
theorem exists_handle (h : i.Serves g) (hobtains : i.Obtains) (s : σ) :
    ∃ b, (g.handle s).2.result = .ok b := by
  rcases h with rfl | ⟨-, b, hb, -⟩
  · exact hobtains s
  · exact ⟨b, by rw [handle_of_some hb]⟩

end Serves

end Generator

namespace Documenter

variable {p : Documenter} {w a b a' b' : World σ} {t t' : FileTree} {job : Job}
  {items : List (Except Failure Job)} {answer : String → Except Failure String}

/-! ### One job with its answer -/

/-- What comes of a job in a tree once it has been answered. -/
def outcomeOf (p : Documenter) (job : Job) (t : FileTree) :
    Except Failure String → FileTree × Except Failure Path
  | .error e => (t, .error e)
  | .ok text =>
    let (t, r) := writeDocument t p.cwd job.outputDir job.outputFileName text
    (t, r.mapError .io)

/-- With an answer a job comes to what writing the document comes to. -/
theorem outcomeOf_of_writeDocument {text : String} {r : Except IoFault Path}
    (h : writeDocument t p.cwd job.outputDir job.outputFileName text = (t', r)) :
    p.outcomeOf job t (.ok text) = (t', r.mapError .io) := by
  simp only [outcomeOf, h]

/-- **An answered job.**  With a template and a backend, what it comes to and the tree that it
    leaves depend on the tree and on the answer alone. -/
theorem doJob_of_answered {template : String} {bk : Backend σ}
    (hresolve : p.templates.resolve a.tree p.cwd job.category = .ok template)
    (hhandle : (a.generator.handle a.state).2.result = .ok bk)
    (hanswer : ∀ s, (bk.generate (documentPrompt template job.rawText) s).result.map
      Generated.content = answer (documentPrompt template job.rawText)) :
    ((p.doJob job a).world.tree, (p.doJob job a).result) =
        p.outcomeOf job a.tree (answer (documentPrompt template job.rawText)) ∧
      (p.doJob job a).world.generator = (a.generator.handle a.state).1 := by
  have hready : (a.generator.makeReady a.state).2.result = .ok () := by
    show (a.generator.handle a.state).2.result.map _ = _
    rw [hhandle]
    rfl
  have hbackend : (readied a).generator.backend? = some bk :=
    (Generator.handle_eq_ok hhandle).1
  obtain ⟨hgenerator, hresult⟩ :=
    Generator.generate_of_some job.rawText template (readied a).state hbackend
  have hanswered : (request job template a).2.result =
      answer (documentPrompt template job.rawText) := hresult.trans (hanswer _)
  rw [← hanswered]
  cases hg : (request job template a).2.result with
  | error e =>
    rw [doJob_of_generate hresolve hready hg]
    exact ⟨rfl, hgenerator⟩
  | ok text =>
    rw [doJob_of_deliver hresolve hready hg]
    exact ⟨rfl, hgenerator⟩

/-! ### Runs on their way -/

/-- With the items that are left, the run succeeds and ends in the tree `t`. -/
def Finishes (p : Documenter) (t : FileTree) (items : List (Except Failure Job)) (a : World σ) :
    Prop :=
  ∃ index stats stats', (p.perform index stats items a).result = .ok stats' ∧
    (p.perform index stats items a).world.tree = t

namespace Finishes

/-- What is still written leads to the tree. -/
theorem exists_becomes (h : p.Finishes t items a) : ∃ written, Becomes p.cwd a.tree t written := by
  obtain ⟨index, stats, stats', -, rfl⟩ := h
  obtain ⟨f, htraced⟩ := p.perform_traced index stats items a
  rw [htraced.world]
  exact p.exists_becomes_worldAfter _ a

/-- A job can only fail in a way that does not end the run. -/
theorem doJob (h : p.Finishes t (.ok job :: items) a) :
    (∀ e, (p.doJob job a).result = .error e → e.isRecoverable = true) ∧
      p.Finishes t items (p.doJob job a).world := by
  obtain ⟨index, stats, stats', hok, htree⟩ := h
  cases hr : (p.doJob job a).result with
  | ok path =>
    rw [perform_of_completed hr] at hok htree
    exact ⟨by simp, _, _, _, hok, htree⟩
  | error e =>
    cases he : e.isRecoverable with
    | true =>
      rw [perform_of_skipped hr he] at hok htree
      refine ⟨fun e' he' => ?_, _, _, _, hok, htree⟩
      rw [← Except.error.inj he', he]
    | false =>
      rw [perform_of_failed hr he] at hok
      exact absurd hok (by simp)

end Finishes

/-- A first run, which has started from `w` and ends in the tree `t`, and a second one over that
    tree, with the same items before them.  They have written the same documents, none of which is
    put in the place of a template, and the second one has made no directory. -/
structure InStep (p : Documenter) (w : World σ) (t : FileTree)
    (items : List (Except Failure Job)) (a b : World σ) : Prop where
  documents : ∃ written, Becomes p.cwd w.tree a.tree written ∧ Becomes p.cwd t b.tree written ∧
    ∀ x ∈ written, p.templates.Spares p.cwd w.tree x.1
  settled : Retains b.tree t
  first : w.generator.Serves a.generator
  second : w.generator.Serves b.generator
  jobs : ∀ job, .ok job ∈ items → p.templates.Spares p.cwd w.tree job.outputPath
  rest : p.Finishes t items a

namespace InStep

/-- Both find the template that was there at the start. -/
theorem resolve (h : p.InStep w t items a b) (hopens : w.tree.Opens p.cwd p.templates.root)
    (hplaces : ∀ c, t.entry? (p.templates.place p.cwd c) =
      w.tree.entry? (p.templates.place p.cwd c)) (c : Category) :
    p.templates.resolve a.tree p.cwd c = p.templates.resolve w.tree p.cwd c ∧
      p.templates.resolve b.tree p.cwd c = p.templates.resolve w.tree p.cwd c := by
  obtain ⟨written, ha, hb, hspare⟩ := h.documents
  obtain ⟨_, hend⟩ := h.rest.exists_becomes
  -- what is empty in the end was empty on the way
  have hfree : w.tree.entry? (p.templates.place p.cwd c) = none →
      a.tree.entry? (p.templates.place p.cwd c) = none := by
    intro hnone
    by_contra hsome
    exact hend.entry?_ne_none hsome ((hplaces c).trans hnone)
  obtain ⟨havoid, hplace⟩ := TemplateFolder.place_spared hopens ha hspare hfree
  have hfile : b.tree.fileAt? (p.templates.place p.cwd c) =
      t.fileAt? (p.templates.place p.cwd c) := by
    rw [hb.files]
    exact overwritten_of_forall_ne havoid
  have hplace' : b.tree.entry? (p.templates.place p.cwd c) =
      w.tree.entry? (p.templates.place p.cwd c) :=
    (entry?_eq_of_fileAt? hfile ⟨h.settled _, hb.directories _⟩).trans (hplaces c)
  have hretains : Retains w.tree b.tree :=
    ha.directories.trans (hend.directories.trans hb.directories)
  exact ⟨TemplateFolder.resolve_eq_of_place hopens ha.directories hplace,
    TemplateFolder.resolve_eq_of_place hopens hretains hplace'⟩

/-- One more job behind them, with the documents `added`. -/
theorem after {added : List (Path × String)} (h : p.InStep w t (.ok job :: items) a b)
    (ha : Becomes p.cwd a.tree a'.tree added) (hb : Becomes p.cwd b.tree b'.tree added)
    (hadded : ∀ x ∈ added, x.1 = job.outputPath) (hsettled : Retains b'.tree b.tree)
    (hfirst : w.generator.Serves a'.generator) (hsecond : w.generator.Serves b'.generator)
    (hrest : p.Finishes t items a') : p.InStep w t items a' b' where
  documents := by
    obtain ⟨written, ha₀, hb₀, hspare⟩ := h.documents
    refine ⟨written ++ added, ha₀.trans ha, hb₀.trans hb, fun x hx => ?_⟩
    rcases List.mem_append.mp hx with hx | hx
    · exact hspare x hx
    · rw [hadded x hx]
      exact h.jobs job List.mem_cons_self
  settled := hsettled.trans h.settled
  first := hfirst
  second := hsecond
  jobs j hj := h.jobs j (List.mem_cons_of_mem _ hj)
  rest := hrest

/-- **One answer in two runs.**  What is delivered in the first one is delivered in the second one
    to the same path, and the directories for it are there. -/
theorem deliver {answered : Except Failure String} {result result' : Except Failure Path}
    (h : p.InStep w t (.ok job :: items) a b)
    (ha : (a'.tree, result) = p.outcomeOf job a.tree answered)
    (hb : (b'.tree, result') = p.outcomeOf job b.tree answered)
    (hpassed : ∀ e, result = .error e → e.isRecoverable = true)
    (hfirst : w.generator.Serves a'.generator) (hsecond : w.generator.Serves b'.generator)
    (hrest : p.Finishes t items a') : result' = result ∧ p.InStep w t items a' b' := by
  cases answered with
  | error e =>
    obtain ⟨htree, rfl⟩ := Prod.mk.inj ha
    obtain ⟨htree', rfl⟩ := Prod.mk.inj hb
    have hnone : ∀ x ∈ ([] : List (Path × String)), x.1 = job.outputPath := by simp
    refine ⟨rfl, h.after ?_ ?_ hnone ?_ hfirst hsecond hrest⟩
    · rw [htree]
      exact .refl _
    · rw [htree']
      exact .refl _
    · rw [htree']
      exact .refl _
  | ok text =>
    cases hw : writeDocument a.tree p.cwd job.outputDir job.outputFileName text with
    | mk t₁ r =>
      rw [outcomeOf_of_writeDocument hw] at ha
      obtain ⟨rfl, hresult⟩ := Prod.mk.inj ha
      cases r with
      | error f => exact absurd (hpassed _ hresult) (by simp [Failure.isRecoverable])
      | ok path =>
        obtain ⟨hpath, hbecomes⟩ := writeDocument_ok hw
        have hadded : ∀ x ∈ [(path, text)], x.1 = job.outputPath := by
          simp [hpath, Job.outputPath]
        -- what is there now is there when the first run ends, and so when the second one writes
        obtain ⟨_, hlater⟩ := hrest.exists_becomes
        obtain ⟨_, -, hagain, -⟩ := h.documents
        obtain ⟨t₂, hw', hsettled⟩ := writeDocument_again hw (hlater.grows.trans hagain.grows)
        rw [outcomeOf_of_writeDocument hw'] at hb
        obtain ⟨rfl, hresult'⟩ := Prod.mk.inj hb
        obtain ⟨-, hbecomes'⟩ := writeDocument_ok hw'
        exact ⟨hresult'.trans hresult.symm,
          h.after hbecomes hbecomes' hadded hsettled hfirst hsecond hrest⟩

end InStep

/-- **One job of two runs.**  Both find the same template, and the second one has a backend because
    the first one does; then the same answer is delivered. -/
theorem inStep_doJob (hopens : w.tree.Opens p.cwd p.templates.root)
    (hplaces : ∀ c, t.entry? (p.templates.place p.cwd c) =
      w.tree.entry? (p.templates.place p.cwd c))
    (hanswers : w.generator.Answers answer) (h : p.InStep w t (.ok job :: items) a b) :
    (p.doJob job b).result = (p.doJob job a).result ∧
      p.InStep w t items (p.doJob job a).world (p.doJob job b).world := by
  obtain ⟨hpassed, hrest⟩ := h.rest.doJob
  obtain ⟨hresolve, hresolve'⟩ := h.resolve hopens hplaces job.category
  cases hr : p.templates.resolve w.tree p.cwd job.category with
  | error e =>
    rw [hr] at hresolve hresolve'
    rw [doJob_of_resolve hresolve] at hrest ⊢
    rw [doJob_of_resolve hresolve']
    exact ⟨rfl, h.after (.refl _) (.refl _) (by simp) (.refl _) h.first h.second hrest⟩
  | ok template =>
    rw [hr] at hresolve hresolve'
    cases hhandle : (a.generator.handle a.state).2.result with
    | error e =>
      -- without a backend the first run would have ended here
      have hready : (a.generator.makeReady a.state).2.result = .error e := by
        show (a.generator.handle a.state).2.result.map _ = _
        rw [hhandle]
        rfl
      have hfatal := h.first.fatal_of_handle hanswers hhandle
      have hrec := hpassed e (by rw [doJob_of_makeReady hresolve hready])
      exact absurd (hrec.symm.trans hfatal) (by simp)
    | ok bk =>
      obtain ⟨hobtains, huses, hfirst⟩ := h.first.handle hhandle
      obtain ⟨bk', hhandle'⟩ := h.second.exists_handle hobtains b.state
      obtain ⟨-, huses', hsecond⟩ := h.second.handle hhandle'
      obtain ⟨houtcome, hgenerator⟩ :=
        doJob_of_answered hresolve hhandle (hanswers.asking bk huses _)
      obtain ⟨houtcome', hgenerator'⟩ :=
        doJob_of_answered hresolve' hhandle' (hanswers.asking bk' huses' _)
      rw [← hgenerator] at hfirst
      rw [← hgenerator'] at hsecond
      exact h.deliver houtcome houtcome' hpassed hfirst hsecond hrest

end Documenter

end DeclarationDocs
