import StackMachine.Machine.Reuse
import StackMachine.Proofs.Machine.Reach

/-!
# Nothing is left of a run

A run on a machine that was used before is the run that starts with nothing. Wherever the last run
ended, and whatever it left on the two stacks, in the frames and in the program counter, clearing
the machine leads to the same state (`Machine.reset_eq_start`). From there on the machine that is
changed in place does what the machine does whose states are kept apart.

* `InPlace.simulation`: the operations agree, and a fault is raised in place for the same reason;
* `InPlace.executeFrom_eq`: so do runs, which also count the same instructions;
* `Machine.executeAgain_eq`: the outcome of a run does not depend on the machine.
-/

namespace StackMachine

namespace Machine

/-- Whatever a run has left behind is cleared. -/
theorem reset_eq_start (m : Machine) : m.reset = start := by
  have hstack : m.stack.shrink 0 = #[] := by simp
  have hlocals : m.locals.shrink 0 = #[] := by simp
  have hcallers : m.callers.clear = {} := by simp [CallStack.clear]
  simp only [reset, start, hstack, hlocals, hcallers, Array.empty_append]

namespace InPlace

variable {p : Program} {limits : Limits} {m : Machine}

/-! ## The operations in place -/

/-- A fault is the reason for which the machine stops. -/
def Raised (f : Fault) (stop : Stop) : Prop :=
  f = stop.fault

theorem agree_mapError {α : Type} (x : Except Fault α) (m : Machine) :
    Agree Raised Eq x (x.mapError (⟨·, m⟩)) := by
  cases x with
  | ok a => exact .ok rfl
  | error f => exact .error rfl

theorem agree_push (m : Machine) (v : Value) :
    Agree Raised Eq (m.push limits v) (push limits v m) := by
  rw [Machine.push, push]
  split
  · exact .error rfl
  · exact .ok rfl

theorem agree_pop (m : Machine) (op : Opcode) : Agree Raised Eq (m.pop op) (pop op m) := by
  rw [Machine.pop, pop]
  split
  · exact .error rfl
  · cases m.stack.back? with
    | none => exact .error rfl
    | some v => exact .ok rfl

theorem agree_store (m : Machine) (slot : UInt16) :
    Agree Raised Eq (m.store slot) (store slot m) := by
  refine .bind (agree_mapError (m.localIndex slot) m) ?_
  rintro index _ rfl
  refine .bind (agree_pop m .store) ?_
  rintro ⟨v, m⟩ _ rfl
  exact .ok rfl

theorem agree_enter (m : Machine) (target : UInt32) (argc : UInt8) (locals : UInt16) :
    Agree Raised Eq (m.enter p limits target argc locals)
      (enter p limits target argc locals m) := by
  rw [Machine.enter, enter]
  split
  · exact .error rfl
  split
  · exact .error rfl
  cases p.indexOf? target.toNat with
  | none => exact .error rfl
  | some entry =>
    simp only
    split
    · exact .error rfl
    · exact .ok rfl

theorem agree_leave (m : Machine) : Agree Raised Eq (m.leave limits) (leave limits m) := by
  refine .bind (agree_pop m .ret) ?_
  rintro ⟨v, m⟩ _ rfl
  cases hcallers : m.callers.pop? with
  | none =>
    simp only [hcallers]
    exact .ok rfl
  | some x =>
    simp only [hcallers]
    refine .bind (agree_push _ v) ?_
    rintro m _ rfl
    exact .ok rfl

/-- The operations do in place what those of the machine do. -/
theorem simulation (p : Program) (limits : Limits) :
    Simulation p (Machine.storage p limits) (storage p limits) Raised Eq Eq where
  fault _ _ := rfl
  goTo _ hmn := hmn ▸ rfl
  push v hmn := hmn ▸ agree_push _ v
  pop op hmn := hmn ▸ (agree_pop _ op).imp fun _ _ h => h ▸ ⟨rfl, rfl⟩
  load _ hmn := hmn ▸ agree_mapError _ _
  store slot hmn := hmn ▸ agree_store _ slot
  enter target argc locals hmn :=
    hmn ▸ (agree_enter _ target argc locals).imp fun _ _ h => h ▸ rfl
  leave hmn := hmn ▸ agree_leave _
  next hmn := hmn ▸ rfl
  halted _ hmn := hmn ▸ rfl

/-! ## Runs in place -/

/-- A run in place is the run, where `steps` counts the fuel that is used. -/
theorem executeFrom_eq {σ : Type} (p : Program) (observe : σ → Event → σ) (fuel steps : Nat)
    (m : Machine) (s : σ) (hsteps : steps + fuel = limits.fuel) :
    (executeFrom p limits observe fuel steps m s).1 =
      ⟨(Machine.executeFrom p limits observe fuel m s).1,
        limits.fuel - (Machine.executeFrom p limits observe fuel m s).2.1,
        (Machine.executeFrom p limits observe fuel m s).2.2⟩ := by
  induction fuel generalizing steps m s with
  | zero =>
    have hused : limits.fuel - 0 = steps := by omega
    cases hi : p.fetch? m.pc <;> simp only [executeFrom, Machine.executeFrom, hi, hused]
  | succ fuel ih =>
    cases hi : p.fetch? m.pc with
    | none =>
      have hused : limits.fuel - (fuel + 1) = steps := by omega
      simp only [executeFrom, Machine.executeFrom, hi, hused]
    | some i =>
      have hused : limits.fuel - fuel = steps + 1 := by omega
      have hagree := (simulation p limits).step i.instruction
        (rfl : { m with pc := m.pc + 1 } = { m with pc := m.pc + 1 })
      rw [executeFrom, Machine.executeFrom]
      simp only [hi, Machine.step]
      generalize (Machine.storage p limits).step p i.instruction _ = x at hagree ⊢
      generalize (storage p limits).step p i.instruction _ = y at hagree ⊢
      cases hagree with
      | error he =>
        cases he
        simp only [hused]
      | @ok τ _ hτ =>
        cases hτ
        cases τ with
        | halted v m' => simp only [hused]
        | next m' | called _ m' | returned _ m' =>
          -- the instruction counts, and the fuel is one less
          exact ih (steps + 1) m' _ (by omega)

end InPlace

/-- A run on a machine that was used before is the run that starts with nothing. -/
theorem executeAgain_eq {σ : Type} (p : Program) (limits : Limits) (observe : σ → Event → σ)
    (m : Machine) (s : σ) :
    (m.executeAgain p limits observe s).1 = execute p limits observe s := by
  have heq := InPlace.executeFrom_eq p observe limits.fuel 0 start s (Nat.zero_add _)
  rw [executeAgain, reset_eq_start, execute]
  generalize Machine.executeFrom p limits observe limits.fuel start s = x at heq ⊢
  generalize InPlace.executeFrom p limits observe limits.fuel 0 start s = y at heq ⊢
  obtain ⟨result, left, s'⟩ := x
  obtain ⟨o, m'⟩ := y
  cases heq
  cases result <;> rfl

end Machine

end StackMachine
