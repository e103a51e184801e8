import DeclarationDocs.Proofs.Generator
import Mathlib.Data.List.Induction
import Mathlib.Order.Lattice

namespace DeclarationDocs

/-!
# One call after the other

A generator is called to be made ready or to give a text, and either call makes its backend if
there is none yet.  However the calls and their outcomes alternate, the backend is made once, looked
at once, and then asked once for each text.

* `Call`, `Session.serve` — a call, and what comes of it;
* `Session.serve_of_error`, `Session.serve_of_made`, `Session.serve_of_some` — the three things that
  can come of it;
* `Session.after_of_le`, `Session.after_of_lt` — what some calls leave, before and after the first
  that finds a backend;
* `Backend.noting` — a backend that notes how it is contacted;
* `Session.calls_served` — `Served make s n calls c` for all `calls` and every call `c` behind them.
-/

variable {σ : Type}

/-! ### Calls -/

/-- What a generator can be called for. -/
inductive Call where
  | makeReady
  | generate (source template : String)

/-- The prompt that a call has for the backend. -/
def Call.prompt? : Call → Option String
  | .makeReady => none
  | .generate source template => some (documentPrompt template source)

/-- The prompts of all calls but the first `n`. -/
def promptsFrom (n : Nat) (calls : List Call) : List String :=
  (calls.drop n).filterMap Call.prompt?

/-- A generator and the state of its backend. -/
structure Session (σ : Type) where
  generator : Generator σ
  state : σ

namespace Session

/-- What a call answers, which is a text if it asks for one, and what it leaves. -/
def serve (x : Session σ) : Call → Except Failure (Option String) × Session σ
  | .makeReady =>
    let (i, o) := x.generator.makeReady x.state
    (o.result.map fun _ => none, ⟨i, o.state⟩)
  | .generate source template =>
    let (i, o) := x.generator.generate source template x.state
    (o.result.map some, ⟨i, o.state⟩)

/-- What calls leave that are made one after the other. -/
def after (x : Session σ) (calls : List Call) : Session σ :=
  calls.foldl (fun x c => (x.serve c).2) x

/-- A generator that has not been used. -/
def fresh (make : Nat → Except Failure (Backend σ × List Warning)) (s : σ) : Session σ :=
  ⟨.ofFactory make, s⟩

/-- One more call is served by the session as the others have left it. -/
theorem after_concat (x : Session σ) (calls : List Call) (c : Call) :
    x.after (calls ++ [c]) = ((x.after calls).serve c).2 :=
  List.foldl_concat ..

end Session

/-! ### Backends -/

namespace Backend

variable (b : Backend σ) (s : σ)

/-- What a backend answers to a call: its text or failure, if the call has a prompt for it. -/
def serve (c : Call) : Except Failure (Option String) × σ :=
  match c.prompt? with
  | none => (.ok none, s)
  | some prompt =>
    let o := b.generate prompt s
    (o.result.map fun g => some g.content, o.state)

/-- The state of a backend that was asked for texts. -/
def stateAfter (prompts : List String) : σ :=
  prompts.foldl (fun s prompt => (b.generate prompt s).state) s

/-- Further prompts are asked in the state that the first ones have left. -/
theorem stateAfter_append (prompts more : List String) :
    b.stateAfter s (prompts ++ more) = b.stateAfter (b.stateAfter s prompts) more :=
  List.foldl_append

/-- A call changes the state of a backend by its prompt alone. -/
theorem serve_state (c : Call) : (b.serve s c).2 = b.stateAfter s c.prompt?.toList := by
  cases c <;> rfl

end Backend

/-- One call more, behind the first `n`. -/
theorem promptsFrom_concat {n : Nat} {calls : List Call} (h : n ≤ calls.length) (c : Call) :
    promptsFrom n (calls ++ [c]) = promptsFrom n calls ++ c.prompt?.toList := by
  rw [promptsFrom, List.drop_append_of_le_length h, List.filterMap_append]
  cases hc : c.prompt? with
  | none => simp [promptsFrom, hc]
  | some prompt => simp [promptsFrom, hc]

/-! ### What can come of a call -/

namespace Session

variable {x : Session σ} {b : Backend σ} {warnings : List Warning} {e : Failure}

/-- What is left of a call is up to the backend, if there is one. -/
theorem serve_of_handle (c : Call) (h : (x.generator.handle x.state).2.result = .ok b) :
    x.serve c =
      ((b.serve (x.generator.handle x.state).2.state c).1,
        ⟨(x.generator.handle x.state).1, (b.serve (x.generator.handle x.state).2.state c).2⟩) := by
  cases c with
  | makeReady => simp only [serve, Generator.makeReady, h, Except.map, Backend.serve, Call.prompt?]
  | generate source template =>
    simp only [serve, Generator.generate, h, Backend.serve, Call.prompt?]
    cases (b.generate (documentPrompt template source) _).result <;> rfl

/-- An attempt that fails is noted, and nothing else has changed. -/
theorem serve_of_error (c : Call) (hnone : x.generator.backend? = none)
    (hmake : x.generator.make x.generator.attempts = .error e) :
    x.serve c =
      (.error e, ⟨{ x.generator with attempts := x.generator.attempts + 1 }, x.state⟩) := by
  cases c with
  | makeReady => simp only [serve, Generator.makeReady, Generator.handle, hnone, hmake, Except.map]
  | generate source template =>
    simp only [serve, Generator.generate, Generator.handle, hnone, hmake, Except.map]

/-- A backend that was made is looked at, and whatever that says, it is kept and gets the call. -/
theorem serve_of_made (c : Call) (hnone : x.generator.backend? = none)
    (hmake : x.generator.make x.generator.attempts = .ok (b, warnings)) :
    x.serve c =
      ((b.serve (b.checkHealth x.state).state c).1,
        ⟨⟨x.generator.make, x.generator.attempts + 1, some b⟩,
          (b.serve (b.checkHealth x.state).state c).2⟩) := by
  rw [serve_of_handle (b := b) c] <;> simp only [Generator.handle, hnone, hmake]

/-- A backend that is there gets the call. -/
theorem serve_of_some (c : Call) (hsome : x.generator.backend? = some b) :
    x.serve c = ((b.serve x.state c).1, ⟨x.generator, (b.serve x.state c).2⟩) := by
  rw [serve_of_handle (b := b) c] <;> rw [Generator.handle_of_some hsome]

/-! ### What calls leave -/

section Runs

variable {make : Nat → Except Failure (Backend σ × List Warning)} {s : σ} {n : Nat}
  {calls : List Call}

/-- **Before there is a backend** each call is one attempt to make it.  By induction on the calls,
    the last of which is one more attempt. -/
theorem after_of_le (hfail : ∀ m < n, ∃ e, make m = .error e) (h : calls.length ≤ n) :
    (fresh make s).after calls = ⟨⟨make, calls.length, none⟩, s⟩ := by
  induction calls using List.reverseRecOn with
  | nil => rfl
  | append_singleton calls c ih =>
    rw [List.length_append, List.length_singleton] at h ⊢
    obtain ⟨e, he⟩ := hfail calls.length h
    rw [after_concat, ih (Nat.le_of_succ_le h), serve_of_error c rfl he]

/-- The call for which the backend is made. -/
theorem serve_of_length_eq (hfail : ∀ m < n, ∃ e, make m = .error e)
    (hmake : make n = .ok (b, warnings)) (h : calls.length = n) (c : Call) :
    ((fresh make s).after calls).serve c =
      ((b.serve (b.checkHealth s).state c).1,
        ⟨⟨make, n + 1, some b⟩, (b.serve (b.checkHealth s).state c).2⟩) := by
  subst h
  rw [after_of_le hfail le_rfl, serve_of_made c rfl hmake]

/-- **Once there is a backend** it stays, and it has been asked what the calls had for it.  By
    induction on the calls, the last of which either makes the backend or finds it. -/
theorem after_of_lt (hfail : ∀ m < n, ∃ e, make m = .error e)
    (hmake : make n = .ok (b, warnings)) (h : n < calls.length) :
    (fresh make s).after calls =
      ⟨⟨make, n + 1, some b⟩, b.stateAfter (b.checkHealth s).state (promptsFrom n calls)⟩ := by
  induction calls using List.reverseRecOn with
  | nil => exact absurd h (by simp)
  | append_singleton calls c ih =>
    rw [List.length_append, List.length_singleton] at h
    have hle : n ≤ calls.length := Nat.le_of_lt_succ h
    rw [after_concat, promptsFrom_concat hle, Backend.stateAfter_append, ← Backend.serve_state]
    rcases Nat.eq_or_lt_of_le hle with heq | hlt
    · have hnil : promptsFrom n calls = [] := by
        rw [promptsFrom, List.drop_of_length_le heq.ge, List.filterMap_nil]
      rw [serve_of_length_eq hfail hmake heq.symm, hnil]
      rfl
    · rw [ih hlt, serve_of_some c rfl]

/-- Every call from the one on for which the backend is made. -/
theorem serve_of_length_le (hfail : ∀ m < n, ∃ e, make m = .error e)
    (hmake : make n = .ok (b, warnings)) (h : n ≤ calls.length) (c : Call) :
    ((fresh make s).after calls).serve c =
      ((b.serve (b.stateAfter (b.checkHealth s).state (promptsFrom n calls)) c).1,
        ⟨⟨make, n + 1, some b⟩,
          (b.serve (b.stateAfter (b.checkHealth s).state (promptsFrom n calls)) c).2⟩) := by
  rcases Nat.eq_or_lt_of_le h with heq | hlt
  · have hnil : promptsFrom n calls = [] := by
      rw [promptsFrom, List.drop_of_length_le heq.ge, List.filterMap_nil]
    rw [serve_of_length_eq hfail hmake heq.symm, hnil]
    rfl
  · rw [after_of_lt hfail hmake hlt, serve_of_some c rfl]

end Runs

end Session

/-! ### Contacts -/

/-- How a backend can be contacted. -/
inductive Contact where
  | look
  | ask (prompt : String)
deriving DecidableEq

namespace Backend

/-- A backend that notes, behind what is given, how it is contacted. -/
def noting (b : Backend σ) : Backend (σ × List Contact) where
  name := b.name
  model := b.model
  checkHealth := fun s =>
    let o := b.checkHealth s.1
    ⟨o.result, (o.state, s.2 ++ [.look]), o.warnings⟩
  generate := fun prompt s =>
    let o := b.generate prompt s.1
    ⟨o.result, (o.state, s.2 ++ [.ask prompt]), o.warnings⟩

/-- What is noted are the prompts. -/
theorem stateAfter_noting (b : Backend σ) (s : σ) (contacts : List Contact)
    (prompts : List String) :
    b.noting.stateAfter (s, contacts) prompts =
      (b.stateAfter s prompts, contacts ++ prompts.map .ask) := by
  induction prompts generalizing s contacts with
  | nil => rw [List.map_nil, List.append_nil]; rfl
  | cons prompt prompts ih =>
    show b.noting.stateAfter ((b.generate prompt s).state, contacts ++ [.ask prompt]) prompts = _
    rw [ih, List.append_assoc, List.map_cons, List.singleton_append]
    rfl

end Backend

/-- What comes of the attempts to make a backend, if that notes how it is contacted. -/
def noted (make : Nat → Except Failure (Backend σ × List Warning)) :
    Nat → Except Failure (Backend (σ × List Contact) × List Warning) :=
  fun n => (make n).map fun made => (made.1.noting, made.2)

/-- How the backend of a generator that has not been used is contacted by calls. -/
def contacts (make : Nat → Except Failure (Backend σ × List Warning)) (s : σ)
    (calls : List Call) : List Contact :=
  ((Session.fresh (noted make) (s, [])).after calls).state.2

namespace Session

/-- How a `Session` that is fresh for `make` serves the call `c` behind `calls`, if `n` is the
    first attempt for which `make n` does not fail. -/
structure Served (make : Nat → Except Failure (Backend σ × List Warning)) (s : σ) (n : Nat)
    (calls : List Call) (c : Call) : Prop where
  /-- Before that attempt, the call makes one attempt and fails as it does.  There is no backend
      yet, and none has been contacted. -/
  failed : calls.length < n →
    (∃ e, make calls.length = .error e ∧
      ((fresh make s).after calls).serve c = (.error e, ⟨⟨make, calls.length + 1, none⟩, s⟩)) ∧
    contacts make s (calls ++ [c]) = []
  /-- From then on there is the backend that was made by that attempt, which is the last one.  It
      was looked at once, whatever that said, and then asked once for every prompt in order; it
      answers the call, and stays whatever it answers. -/
  served : ∀ b warnings, make n = .ok (b, warnings) → n ≤ calls.length →
    (let state := b.stateAfter (b.checkHealth s).state (promptsFrom n calls)
     ((fresh make s).after calls).serve c =
      ((b.serve state c).1, ⟨⟨make, n + 1, some b⟩, (b.serve state c).2⟩)) ∧
    contacts make s (calls ++ [c]) = .look :: (promptsFrom n (calls ++ [c])).map .ask

/-- **All calls.**  If `make m` fails for every `m < n`, then every call `c` is `Served` behind
    every list `calls`, however calls to be made ready and calls for a text alternate in it and
    whatever comes of them. -/
theorem calls_served (make : Nat → Except Failure (Backend σ × List Warning)) (s : σ) {n : Nat}
    (hfail : ∀ m < n, ∃ e, make m = .error e) (calls : List Call) (c : Call) :
    Served make s n calls c := by
  -- a backend that notes its contacts is made just when the backend is
  have hnoted : ∀ m < n, ∃ e, noted make m = .error e := by
    intro m hm
    obtain ⟨e, he⟩ := hfail m hm
    exact ⟨e, by rw [noted, he]; rfl⟩
  constructor
  · intro h
    obtain ⟨e, he⟩ := hfail calls.length h
    refine ⟨⟨e, he, ?_⟩, ?_⟩
    · rw [after_of_le hfail (Nat.le_of_lt h), serve_of_error c rfl he]
    · rw [contacts, after_of_le hnoted (by rw [List.length_append]; exact h)]
  · intro b warnings hmake h
    refine ⟨serve_of_length_le hfail hmake h c, ?_⟩
    have hmake' : noted make n = .ok (b.noting, warnings) := by rw [noted, hmake]; rfl
    rw [contacts, after_of_lt hnoted hmake' (by simpa using Nat.lt_succ_of_le h)]
    show (b.noting.stateAfter ((b.checkHealth s).state, [.look]) _).2 = _
    rw [Backend.stateAfter_noting]
    rfl

/-! ### A backend that is made late -/

/-- A backend that cannot be looked at, and that fails the first time it is asked. -/
def reluctant : Backend Nat where
  name := "reluctant"
  model := "reluctant"
  checkHealth asked := ⟨.error (.service .noContent), asked, []⟩
  generate _ asked :=
    if asked = 0 then ⟨.error (.service .noContent), asked + 1, []⟩
    else ⟨.ok ⟨"text", 0, 0, "reluctant", "reluctant"⟩, asked + 1, []⟩

/-- It is made by every attempt but the first. -/
def late : Nat → Except Failure (Backend Nat × List Warning)
  | 0 => .error (.config .missingKey)
  | _ + 1 => .ok (reluctant, [])

/-- The first call fails for want of the backend and the second one by the backend, which stays and
    gives a text for the third one. -/
theorem calls_served_late :
    (∀ m < 1, ∃ e, late m = .error e) ∧
      Served late 0 1 [.makeReady, .generate "a" "t"] (.generate "b" "t") ∧
      ((fresh late 0).after [.makeReady, .generate "a" "t"]).serve (.generate "b" "t") =
        (.ok (some "text"), ⟨⟨late, 2, some reluctant⟩, 2⟩) ∧
      contacts late 0 [.makeReady, .generate "a" "t", .generate "b" "t"] =
        [.look, .ask (documentPrompt "t" "a"), .ask (documentPrompt "t" "b")] := by
  have hfail : ∀ m < 1, ∃ e, late m = .error e := by
    intro m hm
    obtain rfl : m = 0 := Nat.lt_one_iff.mp hm
    exact ⟨_, rfl⟩
  have hserved := calls_served late 0 hfail [.makeReady, .generate "a" "t"] (.generate "b" "t")
  obtain ⟨hserve, hcontacts⟩ := hserved.served reluctant [] rfl (Nat.le_succ 1)
  exact ⟨hfail, hserved, hserve, hcontacts⟩

end Session

end DeclarationDocs
