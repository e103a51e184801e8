import DeclarationDocs.Proofs.Project.Placing

namespace DeclarationDocs

/-!
# Which sources a queue has read

A queue reads a source when it has nothing left of the sources before it, and not earlier.  So what
it hands out of the first sources, and the state in which that leaves it, cannot depend on what
stands in the others.

* `JobQueue.through` — the queue after some calls, each of which may find other files;
* `JobQueue.HasRead` — the sources that a queue has read, and whose jobs it still holds;
  `JobQueue.HasRead.pull` — what one call preserves, `JobQueue.hasRead_through` — what all do;
* `JobQueue.awaited` — the answers that a queue still owes for its first sources;
  `JobQueue.alike_pull` — one call agrees in two trees that agree on these, and
  `JobQueue.alike_through` — so do all calls until the answers are given;
* `SourceScan.nodup_of_run` — no source is listed twice.
-/

namespace JobQueue

variable {project : Project} {outputRoot : Path} {t t' : FileTree} {cwd : Place}
  {s rest : JobQueue} {item : Except Failure Job} {files near far : List Path}

/-- The queue after one call in each of the trees, one call after the other. -/
def through (s : JobQueue) (cwd : Place) (trees : List FileTree) : JobQueue :=
  trees.foldl (fun s t => (s.pull t cwd).2) s

theorem through_replicate_succ (s : JobQueue) (t : FileTree) (cwd : Place) (n : Nat) :
    s.through cwd (.replicate (n + 1) t) = (s.pull t cwd).2.through cwd (.replicate n t) := rfl

/-! ### The sources that were read -/

/-- Of its sources a queue has read `done`, and the jobs that it holds are of the last of them. -/
structure HasRead (files done : List Path) (s : JobQueue) : Prop where
  files_eq : files = done ++ s.files
  pending : ∀ j ∈ s.pending, done.getLast? = some j.sourcePath

/-- The jobs of a file name it as their source. -/
theorem sourcePath_of_jobsOf {file : Path} {jobs : List Job} {j : Job}
    (hjobs : jobsOf project outputRoot t cwd file = .ok jobs) (hj : j ∈ jobs) :
    j.sourcePath = file := by
  obtain ⟨_, _, _, _, _, _, rfl⟩ := exists_of_mem_jobsOf hjobs hj
  rfl

/-- Reading on stops at a source that has something to hand out. -/
theorem hasRead_nextOf (h : nextOf project outputRoot t cwd files = some (item, rest)) :
    ∃ done, HasRead files done rest := by
  induction files with
  | nil => exact absurd h (by simp [nextOf])
  | cons file files ih =>
    unfold nextOf at h
    split at h
    · obtain ⟨-, rfl⟩ := Prod.mk.inj (Option.some.inj h)
      exact ⟨[file], rfl, by simp⟩
    · obtain ⟨done, heq, hpending⟩ := ih h
      refine ⟨file :: done, congrArg (file :: ·) heq, fun j hj => ?_⟩
      rw [List.getLast?_cons, hpending j hj, Option.getD_some]
    · rename_i j js hjobs
      obtain ⟨-, rfl⟩ := Prod.mk.inj (Option.some.inj h)
      refine ⟨[file], rfl, fun j' hj' => ?_⟩
      rw [sourcePath_of_jobsOf hjobs (List.mem_cons_of_mem j hj')]
      rfl

/-- **One call.**  Whatever files it finds, the queue holds jobs of the source it has read last. -/
theorem HasRead.pull {done : List Path} (h : HasRead files done s) (t : FileTree) (cwd : Place) :
    ∃ done', HasRead files done' (s.pull t cwd).2 := by
  unfold JobQueue.pull
  cases hnext : s.next t cwd with
  | none => exact ⟨files, by simp, by simp⟩
  | some r =>
    obtain ⟨item, rest⟩ := r
    unfold next at hnext
    split at hnext
    · rename_i j js hp
      obtain ⟨-, rfl⟩ := Prod.mk.inj (Option.some.inj hnext)
      exact ⟨done, h.files_eq, fun j' hj' => h.pending j' (hp ▸ List.mem_cons_of_mem j hj')⟩
    · obtain ⟨more, heq, hpending⟩ := hasRead_nextOf hnext
      refine ⟨done ++ more, ?_, fun j hj => ?_⟩
      · rw [h.files_eq, heq, List.append_assoc]
      · rw [List.getLast?_append, hpending j hj, Option.some_or]

/-- **All calls.**  By induction along the calls. -/
theorem hasRead_through (files : List Path) (cwd : Place) (trees : List FileTree) :
    ∃ done, HasRead files done (through ⟨project, outputRoot, [], files⟩ cwd trees) := by
  have hrun : ∀ (trees : List FileTree) (s : JobQueue) (done : List Path), HasRead files done s →
      ∃ done', HasRead files done' (s.through cwd trees) := by
    intro trees
    induction trees with
    | nil => exact fun s done h => ⟨done, h⟩
    | cons t trees ih =>
      intro s done h
      obtain ⟨done', h'⟩ := h.pull t cwd
      exact ih _ done' h'
  exact hrun trees _ [] ⟨rfl, by simp⟩

/-! ### Two trees -/

/-- The answers that a queue still owes: the jobs it holds, and what comes of the sources `near`. -/
def awaited (s : JobQueue) (t : FileTree) (cwd : Place) (near : List Path) : Nat :=
  s.pending.length + (itemsOf s.project s.outputRoot t cwd near).length

/-- The items of files are those of the first one, or its failure, and then those of the others. -/
theorem itemsOf_cons (file : Path) (files : List Path) :
    itemsOf project outputRoot t cwd (file :: files) =
      (match jobsOf project outputRoot t cwd file with
        | .ok jobs => jobs.map .ok
        | .error e => [.error e]) ++ itemsOf project outputRoot t cwd files := rfl

/-- Reading on in two trees that agree on the sources `near`, as long as one of these has
    something to hand out: the sources behind them are not looked at. -/
theorem alike_nextOf (far : List Path) (hnear : ∀ f ∈ near, t'.readText cwd f = t.readText cwd f)
    (hitems : itemsOf project outputRoot t cwd near ≠ []) :
    ∃ item pending near', near' <:+ near ∧
      nextOf project outputRoot t cwd (near ++ far) =
        some (item, ⟨project, outputRoot, pending, near' ++ far⟩) ∧
      nextOf project outputRoot t' cwd (near ++ far) =
        some (item, ⟨project, outputRoot, pending, near' ++ far⟩) ∧
      (itemsOf project outputRoot t cwd near).length =
        pending.length + (itemsOf project outputRoot t cwd near').length + 1 := by
  induction near with
  | nil => exact absurd rfl hitems
  | cons file near ih =>
    obtain ⟨hfile, hrest⟩ := List.forall_mem_cons.mp hnear
    rw [itemsOf_cons] at hitems ⊢
    rw [List.cons_append, nextOf, nextOf, jobsOf_congr hfile]
    cases hjobs : jobsOf project outputRoot t cwd file with
    | error e =>
      refine ⟨.error e, [], near, List.suffix_cons file near, rfl, rfl, ?_⟩
      simp [Nat.add_comm]
    | ok jobs =>
      cases jobs with
      | nil =>
        -- a source without jobs is passed over in both trees
        rw [hjobs] at hitems
        obtain ⟨item, pending, near', hsuffix, hnext⟩ := ih hrest hitems
        exact ⟨item, pending, near', hsuffix.trans (List.suffix_cons file near), hnext⟩
      | cons j js =>
        refine ⟨.ok j, js, near, List.suffix_cons file near, rfl, rfl, ?_⟩
        simp only [List.map_cons, List.length_append, List.length_cons, List.length_map]
        omega

/-- **One call in two trees.**  As long as an answer is owed for the sources `near`, on which the
    trees agree, they give the same one and leave the same queue, which owes one answer less. -/
theorem alike_pull (hs : s.files = near ++ far)
    (hnear : ∀ f ∈ near, t'.readText cwd f = t.readText cwd f) (howed : s.awaited t cwd near ≠ 0) :
    s.pull t' cwd = s.pull t cwd ∧
      ∃ near', near' <:+ near ∧ (s.pull t cwd).2.files = near' ++ far ∧
        s.awaited t cwd near = (s.pull t cwd).2.awaited t cwd near' + 1 := by
  obtain ⟨project, outputRoot, pending, files⟩ := s
  obtain rfl : files = near ++ far := hs
  cases pending with
  | cons j js =>
    refine ⟨rfl, near, List.suffix_rfl, rfl, ?_⟩
    simp only [awaited, pull, next, List.length_cons]
    omega
  | nil =>
    have hitems : itemsOf project outputRoot t cwd near ≠ [] := by
      simpa [awaited] using howed
    obtain ⟨item, pending', near', hsuffix, hnext, hnext', hlength⟩ :=
      alike_nextOf far hnear hitems
    have hpull : ∀ {t₁ : FileTree}, nextOf project outputRoot t₁ cwd (near ++ far) =
        some (item, ⟨project, outputRoot, pending', near' ++ far⟩) →
        pull ⟨project, outputRoot, [], near ++ far⟩ t₁ cwd =
          (some item, ⟨project, outputRoot, pending', near' ++ far⟩) := by
      intro t₁ h
      simp only [pull, next, h]
    rw [hpull hnext, hpull hnext']
    refine ⟨rfl, near', hsuffix, rfl, ?_⟩
    simpa [awaited] using hlength

/-- **All calls in two trees.**  By induction on the number of calls: until all that is owed for
    the sources `near` has been handed out, answers and queues are the same. -/
theorem alike_through (hs : s.files = near ++ far)
    (hnear : ∀ f ∈ near, t'.readText cwd f = t.readText cwd f) {n : Nat}
    (hn : n ≤ s.awaited t cwd near) :
    s.through cwd (.replicate n t') = s.through cwd (.replicate n t) ∧
      ∀ k < n, s.answer t' cwd k = s.answer t cwd k := by
  induction n generalizing s near with
  | zero => exact ⟨rfl, by simp⟩
  | succ n ih =>
    obtain ⟨hpull, near', hsuffix, hfiles, howed⟩ := alike_pull hs hnear (by omega)
    obtain ⟨hthrough, hanswers⟩ := ih hfiles (fun f hf => hnear f (hsuffix.subset hf)) (by omega)
    rw [through_replicate_succ, through_replicate_succ, hpull]
    refine ⟨hthrough, fun k hk => ?_⟩
    cases k with
    | zero => rw [answer, answer, hpull]
    | succ k =>
      rw [answer, answer, hpull]
      exact hanswers k (by omega)

end JobQueue

/-! ### Each source once -/

namespace SourceScan

/-- Collected paths are different paths. -/
theorem pairwise_foldl_addNew {candidates paths : List Path}
    (h : paths.Pairwise fun p q => q.same p = false) :
    (candidates.foldl addNew paths).Pairwise fun p q => q.same p = false := by
  induction candidates generalizing paths with
  | nil => exact h
  | cons p candidates ih =>
    apply ih
    unfold addNew
    split
    · exact h
    · rename_i hnew
      refine List.pairwise_append.mpr ⟨h, List.pairwise_singleton _ p, fun q hq r hr => ?_⟩
      obtain rfl := List.mem_singleton.mp hr
      by_contra hsame
      exact hnew (List.any_eq_true.mpr ⟨q, hq, by simpa using hsame⟩)

/-- A scan answers no path twice. -/
theorem nodup_of_run {s : SourceScan} {t : FileTree} {cwd : Place} {files : List Path}
    (h : s.run t cwd = .ok files) : files.Nodup := by
  rw [run_eq] at h
  obtain ⟨excluded, -, h⟩ := bind_eq_ok_iff.mp h
  obtain ⟨lists, -, rfl⟩ := map_eq_ok_iff.mp h
  refine (pairwise_foldl_addNew .nil).imp ?_
  rintro p q hsame rfl
  simp [Path.same] at hsame

end SourceScan

end DeclarationDocs
