import StackMachine.Proofs.Machine.Events
import StackMachine.Proofs.Machine.Reuse
import StackMachine.Session

/-!
# Nothing is kept between runs

A session keeps its machine from one run to the next, in whatever state the last run has left it. It
cannot be seen: after any calls the next one is answered as by a new session.

* `Session.Call`, `Session.after`: the calls of a session, and the session after a history of them;
* `Session.runWith_eq`: a run does not depend on what the session has done before;
* `Session.Call.answer_eq`: neither does the answer to a call;
* `Session.after_forgets`: what this says of all histories, and how the calls agree with each other.
-/

namespace StackMachine

namespace Session

/-- A call of a session. -/
inductive Call : Type 1
  | execute (image : List UInt8)
  | tryExecute (image : List UInt8)
  | run (p : Program)
  | runWith {σ : Type} (p : Program) (observe : σ → Event → σ) (start : σ)

namespace Call

/-- What a call is answered with. -/
def Answer : Call → Type
  | execute _ => Status × Value
  | tryExecute _ => Except ExecutionError Value
  | run _ => Except Fault Value
  | @runWith σ _ _ _ => Outcome σ

/-- The answer to a call, and the session after it. -/
def perform (s : Session) : (c : Call) → c.Answer × Session
  | execute image => s.execute image
  | tryExecute image => s.tryExecute image
  | run p => s.run p
  | runWith p observe start => s.runWith p observe start

/-- The program that is run, unless the image is rejected. -/
def program? : Call → Option Program
  | execute image => (Program.load image).toOption
  | tryExecute image => (Program.load image).toOption
  | run p => some p
  | runWith p _ _ => some p

end Call

/-- The session after a history of calls. -/
def after (s : Session) (history : List Call) : Session :=
  history.foldl (fun s c => (c.perform s).2) s

variable (s : Session)

/-! ## Each call -/

/-- A run is the same whatever the session has done before. -/
theorem runWith_eq {σ : Type} (p : Program) (observe : σ → Event → σ) (start : σ) :
    (s.runWith p observe start).1 = StackMachine.execute p s.limits observe start :=
  s.machine.executeAgain_eq p s.limits observe start

-- What a run leaves behind is not cleared before the next one: here, a call that was cut off.
example :
    (({ limits := { fuel := 5 } } : Session).run .addition).2.machine.callers.depth = 1 := by
  decide +kernel

theorem steps_runWith {σ : Type} (p : Program) (observe : σ → Event → σ) (start : σ) :
    (s.runWith p observe start).2.steps =
      (StackMachine.execute p s.limits observe start).steps := by
  rw [← s.runWith_eq]
  rfl

theorem run_eq (p : Program) : (s.run p).1 = (StackMachine.run p s.limits).result :=
  congrArg Outcome.result (s.runWith_eq p _ ())

theorem steps_run (p : Program) : (s.run p).2.steps = (StackMachine.run p s.limits).steps :=
  s.steps_runWith p _ ()

/-- The result and the number of instructions are the same for all observers. -/
theorem runWith_run {σ : Type} (p : Program) (observe : σ → Event → σ) (start : σ) :
    (s.runWith p observe start).1.result = (s.run p).1 ∧
      (s.runWith p observe start).2.steps = (s.run p).2.steps := by
  obtain ⟨_, _, _, steps, _, result, -, -, hrun⟩ := Machine.execute_eq_foldl p s.limits
  rw [runWith_eq, run_eq, steps_runWith, steps_run, StackMachine.run, hrun, hrun]
  exact ⟨rfl, rfl⟩

theorem tryExecute_of_error {image : List UInt8} {reason : LoadError}
    (h : Program.load image = .error reason) :
    s.tryExecute image = (.error (.load reason), s) := by
  rw [tryExecute, h]

theorem tryExecute_of_ok {image : List UInt8} {p : Program} (h : Program.load image = .ok p) :
    s.tryExecute image = ((s.run p).1.mapError .fault, (s.run p).2) := by
  simp only [tryExecute, h]
  generalize s.run p = x
  obtain ⟨result, s'⟩ := x
  cases result <;> rfl

/-- The status and the value that a result is folded into. -/
def report : Except ExecutionError Value → Status × Value
  | .ok v => (.ok, v)
  | .error err => (.error, .error err.code)

theorem execute_eq (image : List UInt8) :
    s.execute image = (report (s.tryExecute image).1, (s.tryExecute image).2) := by
  rw [execute]
  generalize s.tryExecute image = x
  obtain ⟨result, s'⟩ := x
  cases result <;> rfl

/-! ## Any call -/

namespace Call

variable {s t : Session} (c : Call)

/-- A call does not change the limits. -/
theorem limits_perform (s : Session) : (c.perform s).2.limits = s.limits := by
  have htry (image : List UInt8) : (s.tryExecute image).2.limits = s.limits := by
    cases hload : Program.load image with
    | error reason => rw [tryExecute_of_error s hload]
    | ok p =>
      rw [tryExecute_of_ok s hload]
      rfl
  cases c with
  | execute image =>
    rw [perform, execute_eq]
    exact htry image
  | tryExecute image => exact htry image
  | run p => rfl
  | runWith p observe start => rfl

/-- The answer to a call depends on the limits, and on nothing else in the session. -/
theorem answer_eq (h : s.limits = t.limits) : (c.perform s).1 = (c.perform t).1 := by
  have hrun (p : Program) : (s.run p).1 = (t.run p).1 := by
    rw [run_eq, run_eq, h]
  have htry (image : List UInt8) : (s.tryExecute image).1 = (t.tryExecute image).1 := by
    cases hload : Program.load image with
    | error reason => rw [tryExecute_of_error s hload, tryExecute_of_error t hload]
    | ok p => rw [tryExecute_of_ok s hload, tryExecute_of_ok t hload, hrun]
  cases c with
  | execute image => rw [perform, perform, execute_eq, execute_eq, htry]
  | tryExecute image => exact htry image
  | run p => exact hrun p
  | runWith p observe start => exact (runWith_eq s _ _ _).trans (h ▸ (runWith_eq t _ _ _).symm)

/-- An image that is rejected leaves the session as it is. -/
theorem perform_of_rejected (h : c.program? = none) : (c.perform s).2 = s := by
  have htry {image : List UInt8} (h : (Program.load image).toOption = none) :
      (s.tryExecute image).2 = s := by
    cases hload : Program.load image with
    | error reason => rw [tryExecute_of_error s hload]
    | ok p =>
      rw [hload] at h
      cases h
  cases c with
  | execute image =>
    rw [perform, execute_eq]
    exact htry h
  | tryExecute image => exact htry h
  | run p => cases h
  | runWith p observe start => cases h

/-- Every other call sets the number of instructions to that of the run. -/
theorem steps_perform {p : Program} (h : c.program? = some p) :
    (c.perform s).2.steps = (StackMachine.run p s.limits).steps := by
  have htry {image : List UInt8} (h : (Program.load image).toOption = some p) :
      (s.tryExecute image).2.steps = (StackMachine.run p s.limits).steps := by
    cases hload : Program.load image with
    | error reason =>
      rw [hload] at h
      cases h
    | ok q =>
      rw [hload] at h
      cases h
      rw [tryExecute_of_ok s hload, steps_run]
  cases c with
  | execute image =>
    rw [perform, execute_eq]
    exact htry h
  | tryExecute image => exact htry h
  | run q =>
    cases h
    exact s.steps_run p
  | runWith q observe start =>
    cases h
    exact (runWith_run s p observe start).2.trans (s.steps_run p)

end Call

/-! ## Any history -/

/-- The limits never change. -/
theorem limits_after (s : Session) (history : List Call) : (s.after history).limits = s.limits := by
  induction history generalizing s with
  | nil => rfl
  | cons c history ih => exact (ih (c.perform s).2).trans (c.limits_perform s)

/-- A session does not remember its calls. After any of them the next one is answered as by a new
    session with the same limits, also where events are observed. If an image is rejected, the
    number of instructions stays, and otherwise it is that of the new session; the limits stay in
    any case.

    The calls agree with each other too: `tryExecute` gives the error of loading or what `run`
    gives, which is the same under any observer, and `execute` folds this into a status and a
    value. -/
theorem after_forgets (s : Session) (history : List Call) :
    (∀ c : Call, (c.perform (s.after history)).1 = (c.perform { limits := s.limits }).1 ∧
      (c.perform (s.after history)).2.limits = s.limits ∧
      (c.program? = none → (c.perform (s.after history)).2.steps = (s.after history).steps) ∧
      (c.program? ≠ none → (c.perform (s.after history)).2.steps =
        (c.perform { limits := s.limits }).2.steps)) ∧
    ∀ image,
      (∀ reason, Program.load image = .error reason →
        ((s.after history).tryExecute image).1 = .error (.load reason)) ∧
      (∀ p, Program.load image = .ok p →
        ((s.after history).tryExecute image).1 = ((s.after history).run p).1.mapError .fault ∧
        ∀ {σ : Type} (observe : σ → Event → σ) (start : σ),
          ((s.after history).runWith p observe start).1.result = ((s.after history).run p).1) ∧
      (∀ v, ((s.after history).execute image).1 = (.ok, v) ↔
        ((s.after history).tryExecute image).1 = .ok v) ∧
      ∀ err, ((s.after history).tryExecute image).1 = .error err →
        ((s.after history).execute image).1 = (.error, .error err.code) := by
  have hlimits := limits_after s history
  generalize s.after history = t at hlimits ⊢
  refine ⟨fun c => ⟨c.answer_eq hlimits, (c.limits_perform t).trans hlimits, fun h => ?_,
    fun h => ?_⟩, fun image => ⟨fun reason h => ?_, fun p h => ⟨?_, fun observe start => ?_⟩,
    fun v => ?_, fun err h => ?_⟩⟩
  · rw [c.perform_of_rejected h]
  · obtain ⟨p, hp⟩ := Option.ne_none_iff_exists'.1 h
    rw [c.steps_perform hp, c.steps_perform hp, hlimits]
  · rw [tryExecute_of_error t h]
  · rw [tryExecute_of_ok t h]
  · exact (runWith_run t p observe start).1
  · rw [execute_eq]
    cases (t.tryExecute image).1 <;> simp [report]
  · rw [execute_eq, h, report]

/-- A new session in which runs have fuel for five instructions. -/
def fiveSteps : Session :=
  { limits := { fuel := 5 } }

/-- `Program.addition` is cut off in its call then, and the session is left with a machine in which
    this call is active. -/
def cutOff : Session :=
  fiveSteps.after [.run .addition]

theorem after_forgets_cutOff :
    (cutOff.run .addition).1 = (fiveSteps.run .addition).1 ∧
      (cutOff.run .addition).2.steps = (fiveSteps.run .addition).2.steps ∧
      (cutOff.execute []).2.steps = cutOff.steps ∧
      (cutOff.execute []).1 = (.error, .error 1) ∧
      (cutOff.tryExecute Program.addition.bytes).1 = (cutOff.run .addition).1.mapError .fault := by
  -- rewriting names the sessions, as unfolding them would run the program
  have hnew : ({ limits := fiveSteps.limits } : Session) = fiveSteps := rfl
  have hcut : fiveSteps.after [.run .addition] = cutOff := rfl
  obtain ⟨hcalls, himages⟩ := after_forgets fiveSteps [.run .addition]
  rw [hcut] at himages
  rw [hcut, hnew] at hcalls
  obtain ⟨hanswer, -, -, hsteps⟩ := hcalls (.run .addition)
  obtain ⟨-, -, hrejected, -⟩ := hcalls (.execute [])
  obtain ⟨hshort, -, -, hfailed⟩ := himages []
  dsimp only [Call.perform, Call.Answer] at hanswer hsteps hrejected
  exact ⟨hanswer, hsteps (Option.some_ne_none _), hrejected rfl, hfailed _ (hshort (.tooShort 0) rfl),
    ((himages Program.addition.bytes).2.1 .addition Program.load_addition).1⟩

end Session

end StackMachine
