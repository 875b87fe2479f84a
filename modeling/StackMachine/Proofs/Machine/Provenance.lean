import StackMachine.Proofs.Machine.Windows
import StackMachine.Proofs.Session

/-!
# Where error values come from

An error value in a result can be a value that the program has computed with, or stand for a fault.
The status tells the two apart, and no instruction confuses them: errors are never computed, so each
one that a run holds is a constant of the program.

* `Program.Provides`: the values that a program can get at;
* `Machine.Provided`: a state that holds no others;
* `provenance`: instructions lead from such states to such states;
* `error_mem_constants`: what this says of all runs and of the results of sessions.
-/

namespace StackMachine

theorem mem_of_mem_extract {α : Type} {xs : Array α} {i j : Nat} {x : α} (h : x ∈ xs.extract i j) :
    x ∈ xs := by
  obtain ⟨k, hk, rfl⟩ := Array.mem_extract_iff_getElem.1 h
  exact Array.getElem_mem _

theorem mem_of_mem_shrink {α : Type} {xs : Array α} {n : Nat} {x : α} (h : x ∈ xs.shrink n) :
    x ∈ xs :=
  mem_of_mem_extract (Array.shrink_eq_take ▸ h)

/-- A value that is no error, or that is a constant of the program. -/
def Program.Provides (p : Program) (v : Value) : Prop :=
  v.isError = true → v ∈ p.constants

theorem Program.provides_of_not_isError {p : Program} {v : Value} (h : v.isError = false) :
    p.Provides v := fun hv => by
  rw [h] at hv
  cases hv

theorem Program.provides_of_constant? {p : Program} {index : Nat} {v : Value}
    (h : p.constant? index = some v) : p.Provides v :=
  fun _ => Array.mem_of_getElem? h

namespace Machine

variable {p : Program} {limits : Limits} {m m' : Machine} {v : Value}

/-- The operands and the local slots of all active calls hold values that the program provides. -/
structure Provided (p : Program) (m : Machine) : Prop where
  stack : ∀ v ∈ m.stack, p.Provides v
  locals : ∀ v ∈ m.locals, p.Provides v

/-- So does the state that a transition leads to, and so is the value that a run halts with. -/
structure LeadsToProvided (p : Program) (τ : Transition Machine) : Prop where
  state : ∀ m, τ.state? = some m → Provided p m
  value : ∀ v m, τ = .halted v m → p.Provides v

theorem Provided.leadsTo {τ : Transition Machine} (h : Provided p m) (hτ : τ.state? = some m) :
    LeadsToProvided p τ where
  state m' hm := by
    rw [hτ] at hm
    cases hm
    exact h
  value v m' hm := by
    rw [hm] at hτ
    cases hτ

theorem leadsToProvided_halted (hv : p.Provides v) : LeadsToProvided p (.halted v m) where
  state _ hm := by cases hm
  value _ _ hm := by
    cases hm
    exact hv

theorem provided_start : Provided p .start where
  stack v hv := absurd hv (Array.not_mem_empty v)
  locals v hv := by
    obtain ⟨-, rfl⟩ := Array.mem_replicate.1 hv
    exact Program.provides_of_not_isError rfl

namespace Provided

theorem push (h : Provided p m) (hv : p.Provides v) (hm : m.push limits v = .ok m') :
    Provided p m' := by
  obtain ⟨-, rfl⟩ := push_ok hm
  refine { h with stack := fun w hw => ?_ }
  rcases Array.mem_push.1 hw with hw | rfl
  · exact h.stack w hw
  · exact hv

theorem pop (h : Provided p m) {op : Opcode} (hm : m.pop op = .ok (v, m')) :
    p.Provides v ∧ Provided p m' := by
  obtain ⟨-, hv, rfl⟩ := pop_ok hm
  exact ⟨h.stack v (Array.mem_of_back? hv),
    { h with stack := fun w hw => h.stack w (mem_of_mem_extract (Array.extract_eq_pop rfl ▸ hw)) }⟩

theorem load (h : Provided p m) {slot : UInt16} (hm : m.load slot = .ok v) : p.Provides v := by
  obtain ⟨index, -, hm⟩ := bind_eq_ok.1 hm
  cases hm
  rw [Array.getD_eq_getD_getElem?]
  cases hslot : m.locals[index]? with
  | none => exact Program.provides_of_not_isError rfl
  | some w => exact h.locals w (Array.mem_of_getElem? hslot)

theorem store (h : Provided p m) {slot : UInt16} (hm : m.store slot = .ok m') :
    Provided p m' := by
  obtain ⟨index, v, m₁, -, hpop, rfl⟩ := store_ok hm
  obtain ⟨hv, hm₁⟩ := h.pop hpop
  refine { hm₁ with locals := fun w hw => ?_ }
  rcases Array.mem_or_eq_of_mem_setIfInBounds hw with hw | rfl
  · exact hm₁.locals w hw
  · exact hv

/-- The slots of a callee are filled with arguments and with nothing else. -/
theorem openFrame (h : Provided p m) (entry argc localsLen : Nat) :
    Provided p (m.openFrame entry argc localsLen) where
  stack w hw := h.stack w (mem_of_mem_shrink hw)
  locals w hw := by
    rw [Machine.openFrame] at hw
    rcases Array.mem_append.1 hw with hw | hw
    · rcases Array.mem_append.1 hw with hw | hw
      · exact h.locals w hw
      · exact h.stack w (mem_of_mem_extract hw)
    · obtain ⟨-, rfl⟩ := Array.mem_replicate.1 hw
      exact Program.provides_of_not_isError rfl

theorem closeFrame (h : Provided p m) (caller : Frame) (callers : CallStack) :
    Provided p (m.closeFrame caller callers) where
  stack w hw := h.stack w (mem_of_mem_shrink hw)
  locals w hw := h.locals w (mem_of_mem_shrink hw)

theorem enter (h : Provided p m) {target : UInt32} {argc : UInt8} {locals : UInt16}
    (hm : m.enter p limits target argc locals = .ok m') : Provided p m' := by
  obtain ⟨-, -, entry, -, -, rfl⟩ := enter_ok hm
  exact h.openFrame entry _ _

theorem leave (h : Provided p m) {τ : Transition Machine} (hm : m.leave limits = .ok τ) :
    LeadsToProvided p τ := by
  obtain ⟨v, m₁, hpop, ⟨-, rfl⟩ | ⟨caller, callers, m₂, -, hpush, rfl⟩⟩ := leave_ok hm
  · obtain ⟨hv, -⟩ := h.pop hpop
    exact leadsToProvided_halted hv
  · obtain ⟨hv, hm₁⟩ := h.pop hpop
    exact ((hm₁.closeFrame caller callers).push hv hpush).leadsTo rfl

end Provided

/-- Instructions get at values that the program provides, and at no others. -/
theorem provenance (p : Program) (limits : Limits) :
    (Comparison.agreement Eq).Correspondence p p Eq p.Provides (storage p limits)
      (storage p limits) (fun m n => m = n ∧ Provided p m) (fun τ _ => LeadsToProvided p τ) where
  constant _ := rfl
  ofConstant := Program.provides_of_constant?
  ofNotError := Program.provides_of_not_isError
  fault _ _ := .error rfl
  push := by
    rintro m _ v hv ⟨rfl, h⟩
    exact .refl (fun _ hm => ⟨rfl, h.push hv hm⟩) fun _ _ => rfl
  pop := by
    rintro m _ op ⟨rfl, h⟩
    exact .refl (fun _ hm => ⟨rfl, (h.pop hm).1, rfl, (h.pop hm).2⟩) fun _ _ => rfl
  load := by
    rintro m _ slot ⟨rfl, h⟩
    exact .refl (fun _ hm => ⟨rfl, h.load hm⟩) fun _ _ => rfl
  store := by
    rintro m _ slot ⟨rfl, h⟩
    exact .refl (fun _ hm => ⟨rfl, h.store hm⟩) fun _ _ => rfl
  jump := by
    rintro m _ target _ rfl ⟨rfl, h⟩
    refine .refl (fun m' hm => ⟨rfl, ?_⟩) fun _ _ => rfl
    rw [Storage.jump] at hm
    split at hm <;> cases hm
    exact ⟨h.stack, h.locals⟩
  enter := by
    rintro m _ target _ argc locals rfl ⟨rfl, h⟩
    exact .refl (fun _ hm => (h.enter hm).leadsTo rfl) fun _ _ => rfl
  leave := by
    rintro m _ ⟨rfl, h⟩
    exact .refl (fun _ hm => h.leave hm) fun _ _ => rfl
  next h := h.2.leadsTo rfl
  halted hv _ := leadsToProvided_halted hv

theorem Provided.advance (h : Provided p m) {τ : Transition Machine}
    (hm : Machine.advance p limits m = .ok τ) : LeadsToProvided p τ := by
  obtain ⟨i, -, hstep⟩ := advance_ok hm
  have hagree := (provenance p limits).step (.refl (fun _ => rfl) i.instruction)
    (s := { m with pc := m.pc + 1 }) ⟨rfl, h.stack, h.locals⟩
  rw [show (storage p limits).step p i.instruction _ = _ from hstep] at hagree
  cases hagree with
  | ok hτ => exact hτ

theorem Reached.provided {n : Nat} (h : Reached p limits n m) : Provided p m := by
  induction h with
  | start => exact provided_start
  | step _ _ hτ hm ih => exact (ih.advance hτ).state _ hm

end Machine

/-- The value of a run is one that the program provides. -/
theorem provides_of_run {p : Program} {limits : Limits} {v : Value}
    (h : (run p limits).result = .ok v) : p.Provides v := by
  obtain ⟨n, m, hm, hend⟩ := Machine.execute_ends p limits (fun _ _ => ()) ()
  rw [show (execute p limits (fun _ _ => ()) ()).result = .ok v from h] at hend
  generalize (execute p limits (fun _ _ => ()) ()).steps = steps at hend
  cases hend with
  | halted _ _ hv => exact (hm.provided.advance hv).value _ _ rfl

/-- A session that executes an image with the status `ok` has run its program. -/
theorem Session.run_of_execute_ok {s : Session} {image : List UInt8} {v : Value}
    (h : (s.execute image).1 = (.ok, v)) :
    ∃ p, Program.load image = .ok p ∧ (StackMachine.run p s.limits).result = .ok v := by
  rw [execute_eq] at h
  cases hload : Program.load image with
  | error reason =>
    rw [tryExecute_of_error s hload] at h
    cases h
  | ok p =>
    refine ⟨p, rfl, ?_⟩
    rw [tryExecute_of_ok s hload, run_eq] at h
    cases hresult : (StackMachine.run p s.limits).result with
    | error f =>
      rw [hresult] at h
      cases h
    | ok w =>
      rw [hresult] at h
      cases h
      rfl

/-- Error values come from the constants of the program, and from nowhere else. Each one that a run
    holds, in any operand or local slot of any active call, is one of them. So if an execution
    reports an error value with the status `ok`, then it is a constant of the program, and without
    such constants every error value stands for a failure. -/
theorem error_mem_constants :
    (∀ (p : Program) (limits : Limits) (n : Nat) (m : Machine), Machine.Reached p limits n m →
      ∀ c, .error c ∈ m.stack ∨ .error c ∈ m.locals → .error c ∈ p.constants) ∧
    (∀ (s : Session) (image : List UInt8) (c : Int64), (s.execute image).1 = (.ok, .error c) →
      ∃ p, Program.load image = .ok p ∧ .error c ∈ p.constants) ∧
    ∀ (s : Session) (image : List UInt8) (p : Program), Program.load image = .ok p →
      (∀ c, .error c ∉ p.constants) →
      ∀ status c, (s.execute image).1 = (status, .error c) → status = .error := by
  have hreport {s : Session} {image : List UInt8} {c : Int64}
      (h : (s.execute image).1 = (.ok, .error c)) :
      ∃ p, Program.load image = .ok p ∧ .error c ∈ p.constants := by
    obtain ⟨p, hload, hrun⟩ := Session.run_of_execute_ok h
    exact ⟨p, hload, provides_of_run hrun rfl⟩
  refine ⟨fun p limits n m hm c hc => ?_, fun s image c => hreport,
    fun s image p hload hnone status c h => ?_⟩
  · rcases hc with hc | hc
    · exact hm.provided.stack _ hc rfl
    · exact hm.provided.locals _ hc rfl
  · cases status with
    | error => rfl
    | ok =>
      obtain ⟨q, hq, hmem⟩ := hreport h
      cases hload.symm.trans hq
      exact absurd hmem (hnone c)

/-- A program that hands its only constant, an error value, to a function that returns it. -/
def Program.keptError : Program where
  bytes :=
    [86, 69, 76, 65, 1, 0, 0, 0, 2, 0, 0, 0,
      1, 0, 0, 0, 36, 0, 0, 0, 13, 0, 0, 0, 2, 0, 0, 0, 49, 0, 0, 0, 18, 0, 0, 0,
      1, 0, 0, 0, 4, 7, 0, 0, 0, 0, 0, 0, 0,
      6, 0, 0, 0, 0, 72, 14, 0, 0, 0, 1, 0, 0, 79, 16, 0, 0, 73]
  header := { sectionCount := 2 }
  sections := ⟨[⟨.constants, 36, 13⟩, ⟨.code, 49, 18⟩]⟩
  constants := #[.error 7]
  code := #[⟨0, .pushConst 0⟩, ⟨5, .call 14 1 0⟩, ⟨13, .halt⟩, ⟨14, .load 0⟩, ⟨17, .ret⟩]
  lines := #[]

example : Program.load Program.keptError.bytes = .ok .keptError := by decide +kernel

set_option maxRecDepth 4096 in
/-- In its call the error value is in a local slot. It is the result, with the status `ok`.
    `Program.addition` has no such constant, and yields an error value only if it is cut off. -/
theorem error_mem_constants_keptError :
    (∃ m, Machine.Reached .keptError {} 2 m ∧ .error 7 ∈ m.locals ∧
      .error 7 ∈ Program.keptError.constants) ∧
    (({} : Session).execute Program.keptError.bytes).1 = (.ok, .error 7) ∧
    (∃ p, Program.load Program.keptError.bytes = .ok p ∧ .error 7 ∈ p.constants) ∧
    ∃ status, (Session.fiveSteps.execute Program.addition.bytes).1 = (status, .error 104) ∧
      status = .error := by
  have hbefore : Machine.Reached .keptError {} 1
      { Machine.start with stack := #[.error 7], pc := 1 } :=
    .step .start (by decide) rfl rfl
  have hm : Machine.Reached .keptError {} 2
      ({ Machine.start with stack := #[.error 7], pc := 2 }.openFrame 3 1 1) :=
    .step hbefore (by decide) rfl rfl
  have hslot : .error 7 ∈
      ({ Machine.start with stack := #[.error 7], pc := 2 }.openFrame 3 1 1).locals := by
    decide +kernel
  have hkept : (({} : Session).execute Program.keptError.bytes).1 = (.ok, .error 7) := by
    decide +kernel
  have hcut : (Session.fiveSteps.execute Program.addition.bytes).1 = (.error, .error 104) := by
    decide +kernel
  obtain ⟨hheld, hreported, hfailed⟩ := error_mem_constants
  exact ⟨⟨_, hm, hslot, hheld _ _ _ _ hm 7 (.inr hslot)⟩, hkept, hreported _ _ _ hkept, _, hcut,
    hfailed _ _ _ Program.load_addition (fun _ => Array.not_mem_empty _) _ _ hcut⟩

end StackMachine
