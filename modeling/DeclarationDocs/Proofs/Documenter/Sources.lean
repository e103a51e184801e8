import DeclarationDocs.Proofs.Dialect
import DeclarationDocs.Proofs.Documenter.Effect
import DeclarationDocs.Proofs.Project.Placing

namespace DeclarationDocs

open FileTree DeclarationDocs.Path

/-!
# Documents are no sources

A run writes documents while there are sources still to be read.  A document is named `<name>.md`,
and no source has a name with that ending; so, wherever documents are put, a source that was there
at the start is read later as it was then.

* `KeepsSources t t'` — the sources of `t` are those of `t'`, wherever they are;
* `Documenter.keepsSources_doJob` — what one job leaves;
* `JobQueue.Awaits` — the queues of a run: their sources are files, and their jobs have names;
* `JobQueue.Awaits.next_eq` — such a queue goes on as if no document had been written.
-/

/-! ### Names -/

/-- The name of a document has no dialect, for no ending of a source ends like it. -/
theorem dialect_documentName (name : String) :
    Dialect.ofFileName? (documentName name).toList = none := by
  refine Option.eq_none_iff_forall_ne_some.mpr fun d hd => ?_
  obtain ⟨e, he, stem, -, hname⟩ :=
    ((Dialect.ofFileName?_eq_some_iff (Text.lowered_lowerAscii _)).mp hd).ending
  have hends : ∀ e ∈ d.endings, e ≠ [] ∧ e.getLast? ≠ some 'd' := by cases d <;> decide
  have hlast : (Text.lowerAscii (documentName name).toList).getLast? = some 'd' := by
    simp [documentName, Text.lowerAscii]
  rw [hname, List.getLast?_append_of_ne_nil _ (hends e he).1] at hlast
  exact (hends e he).2 hlast

section

variable {t t' t₀ : FileTree} {cwd : Place} {p : Path} {n : List Char}

/-- A path with a file name leads to a place of that name. -/
theorem FileTree.exists_destination (cwd : Place) (h : p.fileName = some n) :
    ∃ q, destination cwd p = q ++ [n] := by
  obtain ⟨above, habove⟩ := List.getLast?_eq_some_iff.mp (fileName_eq_some_iff.mp h)
  rw [destination_eq, habove, List.foldl_append]
  exact ⟨_, rfl⟩

/-- A document leads to a place with the name of its declaration at the end. -/
theorem Job.Titled.exists_destination {j : Job} (h : j.Titled) (cwd : Place) :
    ∃ q, destination cwd j.outputPath = q ++ [(documentName j.declarationName).toList] := by
  apply FileTree.exists_destination cwd
  rw [fileName_eq_some_iff, h, List.getLast?_concat]

/-! ### Trees with the same sources -/

/-- The directories of `t` are directories of `t'`, and wherever there may be a source, the two
    trees have the same file. -/
structure KeepsSources (t t' : FileTree) : Prop where
  directories : Retains t t'
  files : ∀ q n, (Dialect.ofFileName? n).isSome = true → t'.fileAt? (q ++ [n]) = t.fileAt? (q ++ [n])

namespace KeepsSources

theorem refl (t : FileTree) : KeepsSources t t := ⟨.refl t, fun _ _ _ => rfl⟩

theorem trans {t₁ t₂ t₃ : FileTree} (h : KeepsSources t₁ t₂) (h' : KeepsSources t₂ t₃) :
    KeepsSources t₁ t₃ where
  directories := h.directories.trans h'.directories
  files q n hn := (h'.files q n hn).trans (h.files q n hn)

/-- A path that leads to a source leads to the same source. -/
theorem locate_eq (h : KeepsSources t t') (hdialect : (Dialect.ofPath? p).isSome = true)
    (hfile : t.isFile cwd p = true) : t'.locate cwd p = t.locate cwd p := by
  obtain ⟨q, c, hl⟩ := exists_locate_of_isFile hfile
  obtain ⟨rfl, hentry⟩ := locate_eq_ok hl
  -- the place has the name of the source, so nothing was put there
  unfold Dialect.ofPath? at hdialect
  cases hname : p.fileName with
  | none => simp [hname] at hdialect
  | some n =>
    rw [hname] at hdialect
    obtain ⟨above, habove⟩ := exists_destination cwd hname
    have hsame : t'.fileAt? (destination cwd p) = some c := by
      rw [habove, h.files above n hdialect, ← habove]
      exact fileAt?_eq_some.mpr hentry
    rw [hl]
    exact locate_of_retains h.directories hl (fileAt?_eq_some.mp hsame)

/-- A source is read as it was. -/
theorem readText_eq (h : KeepsSources t t') (hdialect : (Dialect.ofPath? p).isSome = true)
    (hfile : t.isFile cwd p = true) : t'.readText cwd p = t.readText cwd p := by
  unfold readText
  rw [h.locate_eq hdialect hfile]

end KeepsSources

/-- Documents that are written leave the sources as they are. -/
theorem FileTree.Becomes.keepsSources {written : List (Path × String)}
    (h : Becomes cwd t t' written)
    (hwritten : ∀ x ∈ written, ∃ q name, destination cwd x.1 = q ++ [(documentName name).toList]) :
    KeepsSources t t' where
  directories := h.directories
  files q n hn := by
    rw [h.files]
    apply overwritten_of_forall_ne
    intro x hx heq
    obtain ⟨above, name, hx⟩ := hwritten x hx
    -- the two places would have one name, and it would have a dialect and none
    have hname : (documentName name).toList = n := by
      simpa using (List.append_inj' (hx.symm.trans heq) rfl).2
    rw [← hname, dialect_documentName] at hn
    exact absurd hn (by simp)

end

/-- What one job leaves has the sources that were there. -/
theorem Documenter.keepsSources_doJob {σ : Type} (p : Documenter) {job : Job} (h : job.Titled)
    (w : World σ) : KeepsSources w.tree (p.doJob job w).world.tree := by
  obtain ⟨_, -, heffect⟩ := p.doJob_effect job w []
  split at heffect
  · obtain ⟨template, text, -, hbecomes⟩ := heffect
    refine hbecomes.keepsSources fun x hx => ?_
    obtain rfl := List.mem_singleton.mp hx
    obtain ⟨q, hq⟩ := h.exists_destination p.cwd
    exact ⟨q, _, hq⟩
  · exact heffect.1.keepsSources (by simp)

/-! ### Queues while documents are written -/

namespace JobQueue

variable {t t₀ : FileTree} {cwd : Place} {s rest : JobQueue} {item : Except Failure Job}

/-- A queue whose sources are there at the start, and whose jobs have documents of their name. -/
structure Awaits (t₀ : FileTree) (cwd : Place) (s : JobQueue) : Prop where
  files : ∀ f ∈ s.files, (Dialect.ofPath? f).isSome = true ∧ t₀.isFile cwd f = true
  pending : ∀ j ∈ s.pending, j.Titled

/-- A queue awaits its sources when it is started. -/
theorem awaits_start {project : Project} {outputRoot : Path}
    (h : start project outputRoot t₀ cwd = .ok s) : s.Awaits t₀ cwd := by
  obtain ⟨files, hfiles, hs⟩ := bind_eq_ok_iff.mp h
  obtain rfl := Except.ok.inj hs
  exact ⟨fun f hf => ⟨SourceScan.dialect_of_mem_run hfiles hf,
    SourceScan.isFile_of_mem_run hfiles hf⟩, by simp⟩

/-- Reading on depends on what the sources say, and on nothing else. -/
theorem nextOf_congr {project : Project} {outputRoot : Path} {files : List Path}
    (h : ∀ f ∈ files, t.readText cwd f = t₀.readText cwd f) :
    nextOf project outputRoot t cwd files = nextOf project outputRoot t₀ cwd files := by
  induction files with
  | nil => rfl
  | cons f files ih =>
    obtain ⟨hf, hfiles⟩ := List.forall_mem_cons.mp h
    rw [nextOf, nextOf, jobsOf_congr hf, ih hfiles]

/-- What is left after reading on are sources of the queue and jobs with names. -/
theorem awaits_nextOf {project : Project} {outputRoot : Path} {files : List Path}
    (h : ∀ f ∈ files, (Dialect.ofPath? f).isSome = true ∧ t₀.isFile cwd f = true)
    (hnext : nextOf project outputRoot t cwd files = some (item, rest)) :
    rest.Awaits t₀ cwd ∧ ∀ j, item = .ok j → j.Titled := by
  induction files with
  | nil => exact absurd hnext (by simp [nextOf])
  | cons f files ih =>
    obtain ⟨-, hfiles⟩ := List.forall_mem_cons.mp h
    unfold nextOf at hnext
    split at hnext
    · obtain ⟨rfl, rfl⟩ := Prod.mk.inj (Option.some.inj hnext)
      exact ⟨⟨hfiles, by simp⟩, by simp⟩
    · exact ih hfiles hnext
    · rename_i j js hjobs
      obtain ⟨rfl, rfl⟩ := Prod.mk.inj (Option.some.inj hnext)
      have htitled : ∀ j' ∈ j :: js, j'.Titled := fun j' hj' => titled_of_jobsOf hjobs hj'
      refine ⟨⟨hfiles, fun j' hj' => htitled j' (List.mem_cons_of_mem j hj')⟩, fun j' hj' => ?_⟩
      obtain rfl := Except.ok.inj hj'
      exact htitled j List.mem_cons_self

namespace Awaits

/-- What is left after a call is such a queue again. -/
theorem next (h : s.Awaits t₀ cwd) (hnext : s.next t cwd = some (item, rest)) :
    rest.Awaits t₀ cwd ∧ ∀ j, item = .ok j → j.Titled := by
  unfold JobQueue.next at hnext
  split at hnext
  · rename_i j js hp
    obtain ⟨rfl, rfl⟩ := Prod.mk.inj (Option.some.inj hnext)
    have htitled := h.pending
    rw [hp] at htitled
    refine ⟨⟨h.files, fun j' hj' => htitled j' (List.mem_cons_of_mem j hj')⟩, fun j' hj' => ?_⟩
    obtain rfl := Except.ok.inj hj'
    exact htitled j List.mem_cons_self
  · exact awaits_nextOf h.files hnext

/-- **A call of a queue** answers the same as long as the sources are kept. -/
theorem next_eq (h : s.Awaits t₀ cwd) (ht : KeepsSources t₀ t) : s.next t cwd = s.next t₀ cwd := by
  unfold JobQueue.next
  split
  · rfl
  · apply nextOf_congr
    intro f hf
    obtain ⟨hdialect, hfile⟩ := h.files f hf
    exact ht.readText_eq hdialect hfile

/-- Every job of such a queue has a document of its name. -/
theorem titled_of_mem_toList {j : Job} (h : s.Awaits t₀ cwd) (hj : .ok j ∈ s.toList t cwd) :
    j.Titled := by
  induction s using toList.induct t cwd with
  | case1 s hnone =>
    rw [toList_of_next_none hnone] at hj
    exact absurd hj (by simp)
  | case2 s item rest hsome ih =>
    obtain ⟨hrest, htitled⟩ := h.next hsome
    rw [toList_of_next_some hsome] at hj
    rcases List.mem_cons.mp hj with hj | hj
    · exact htitled j hj.symm
    · exact ih hrest hj

end Awaits

end JobQueue

end DeclarationDocs
