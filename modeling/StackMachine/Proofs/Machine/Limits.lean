import StackMachine.Proofs.Machine.Fuel

/-!
# Raising the limits

Like the fuel, the limits on values and on calls are only bounds. A run that does not hit them is
the same under higher ones. A run that does is the beginning of the run under higher limits, and
says which limit it hit.

* `Fault.Hits`: a fault says which of the limits was hit;
* `Machine.raise_simulation`: under higher limits the operations agree, unless the lower limits are
  hit;
* `Machine.executeFrom_raise`: so do runs;
* `events_raise`: what this says of the events of a whole run.
-/

namespace StackMachine

/-- The limits `higher` leave room for as many values and calls as `limits`, and the fuel is the
    same. -/
structure Limits.Raised (limits higher : Limits) : Prop where
  fuel_eq : higher.fuel = limits.fuel
  stackLimit_le : limits.stackLimit ≤ higher.stackLimit
  callDepth_le : limits.callDepth ≤ higher.callDepth

namespace Fault

/-- Whether the fault says that there is no room for a value or a call. -/
def isLimit : Fault → Bool
  | stackOverflow _ => true
  | callDepthExceeded _ => true
  | _ => false

/-- The fault says which of the limits was hit. -/
inductive Hits (limits : Limits) : Fault → Prop
  | stackLimit : Hits limits (.stackOverflow limits.stackLimit)
  | callDepth : Hits limits (.callDepthExceeded limits.callDepth)

theorem Intrinsic.isLimit_eq_false {f : Fault} (h : f.Intrinsic) : f.isLimit = false := by
  cases f <;> trivial

theorem Hits.isLimit_eq_true {limits : Limits} {f : Fault} (h : f.Hits limits) :
    f.isLimit = true := by
  cases h <;> rfl

end Fault

/-- The faults are the same, and no limit was hit. -/
def SameFault (e f : Fault) : Prop :=
  e = f ∧ e.isLimit = false

/-- The first result hits the limits, or both agree and no limit was hit. -/
def Comparison.unlessHit (limits : Limits) : Comparison Fault Fault where
  Holds R x y := (∃ f, x = .error f ∧ f.Hits limits) ∨ Agree SameFault R x y
  ok h := .inr (.ok h)
  bind := by
    rintro α β γ δ R Q x y f g (⟨e, rfl, he⟩ | hxy) hfg
    · exact .inl ⟨e, rfl, he⟩
    · cases hxy with
      | ok hab => exact hfg _ _ hab
      | error he => exact .inr (.error he)

namespace Machine

variable {p : Program} {limits higher : Limits} {m : Machine}

/-! ## Operations under higher limits -/

theorem raise_push (h : limits.Raised higher) (m : Machine) (v : Value) :
    (Comparison.unlessHit limits).Holds Eq (m.push limits v) (m.push higher v) := by
  have hle := h.stackLimit_le
  rw [push, push]
  split
  · exact .inl ⟨_, rfl, .stackLimit⟩
  · rw [if_neg (by omega)]
    exact .inr (.ok rfl)

theorem pop_sameFault (m : Machine) (op : Opcode) : Agree SameFault Eq (m.pop op) (m.pop op) := by
  refine .refl (fun _ _ => rfl) fun f hm => ⟨rfl, ?_⟩
  obtain ⟨-, rfl⟩ := pop_error hm
  rfl

theorem localIndex_sameFault (m : Machine) (slot : UInt16) :
    Agree SameFault Eq (m.localIndex slot) (m.localIndex slot) := by
  refine .refl (fun _ _ => rfl) fun f hm => ⟨rfl, ?_⟩
  rw [localIndex] at hm
  split at hm <;> cases hm
  rfl

theorem load_sameFault (m : Machine) (slot : UInt16) :
    Agree SameFault Eq (m.load slot) (m.load slot) := by
  refine .bind (localIndex_sameFault m slot) ?_
  rintro index _ rfl
  exact .ok rfl

theorem store_sameFault (m : Machine) (slot : UInt16) :
    Agree SameFault Eq (m.store slot) (m.store slot) := by
  refine .bind (localIndex_sameFault m slot) ?_
  rintro index _ rfl
  refine .bind (pop_sameFault m .store) ?_
  rintro ⟨v, m⟩ _ rfl
  exact .ok rfl

theorem raise_enter (h : limits.Raised higher) (m : Machine) (target : UInt32) (argc : UInt8)
    (locals : UInt16) :
    (Comparison.unlessHit limits).Holds Eq (m.enter p limits target argc locals)
      (m.enter p higher target argc locals) := by
  have hstack := h.stackLimit_le
  have hdepth := h.callDepth_le
  rw [enter, enter]
  split
  · exact .inl ⟨_, rfl, .callDepth⟩
  rw [if_neg (show ¬ higher.callDepth ≤ m.callers.depth by omega)]
  split
  · exact .inr (.error ⟨rfl, rfl⟩)
  cases p.indexOf? target.toNat with
  | none => exact .inr (.error ⟨rfl, rfl⟩)
  | some entry =>
    simp only
    split
    · exact .inl ⟨_, rfl, .stackLimit⟩
    · rw [if_neg (by omega)]
      exact .inr (.ok rfl)

theorem raise_leave (h : limits.Raised higher) (m : Machine) :
    (Comparison.unlessHit limits).Holds Eq (m.leave limits) (m.leave higher) := by
  refine (Comparison.unlessHit limits).bind (.inr (pop_sameFault m .ret)) ?_
  rintro ⟨v, m⟩ _ rfl
  cases hcallers : m.callers.pop? with
  | none =>
    simp only [hcallers]
    exact .inr (.ok rfl)
  | some x =>
    simp only [hcallers]
    refine (Comparison.unlessHit limits).bind (raise_push h _ v) ?_
    rintro m _ rfl
    exact .inr (.ok rfl)

/-- Unless the limits are hit, the operations agree with those under higher limits. -/
theorem raise_simulation (p : Program) (h : limits.Raised higher) :
    (Comparison.unlessHit limits).Simulation p (storage p limits) (storage p higher) Eq Eq where
  fault hf _ := .inr (.error ⟨rfl, hf.isLimit_eq_false⟩)
  goTo _ hmn := hmn ▸ rfl
  push v hmn := hmn ▸ raise_push h _ v
  pop op hmn := hmn ▸ .inr ((pop_sameFault _ op).imp fun _ _ h => h ▸ ⟨rfl, rfl⟩)
  load slot hmn := hmn ▸ .inr (load_sameFault _ slot)
  store slot hmn := hmn ▸ .inr (store_sameFault _ slot)
  enter target argc locals hmn :=
    hmn ▸ (raise_enter h _ target argc locals).imp_right (·.imp fun _ _ h => h ▸ rfl)
  leave hmn := hmn ▸ raise_leave h _
  next hmn := hmn ▸ rfl
  halted _ hmn := hmn ▸ rfl

/-- Unless the limits are hit, an instruction does the same under higher limits. -/
theorem advance_raise (p : Program) (h : limits.Raised higher) (m : Machine) :
    (∃ f, advance p limits m = .error f ∧ f.Hits limits) ∨
      advance p higher m = advance p limits m ∧
        ∀ f, advance p limits m = .error f → f.isLimit = false := by
  rcases (raise_simulation p h).advance (fun _ _ hmn => hmn ▸ rfl) (.inr (.error ⟨rfl, rfl⟩))
    (rfl : m = m) with hhit | hagree
  · exact .inl hhit
  · refine .inr ?_
    rw [advance, advance]
    generalize (storage p limits).advance p m = x at hagree ⊢
    generalize (storage p higher).advance p m = y at hagree ⊢
    cases hagree with
    | ok heq => exact ⟨heq ▸ rfl, nofun⟩
    | error heq =>
      obtain ⟨rfl, hlimit⟩ := heq
      exact ⟨rfl, fun f hf => by cases hf; exact hlimit⟩

/-! ## Runs under higher limits -/

/-- The announcement of an instruction is among the events, whatever it leads to. -/
theorem executeFrom_announces {i : Placed} (hi : p.fetch? m.pc = some i) (fuel : Nat)
    (es : Array Event) :
    (es.push (.step i.offset i.instruction m.depth)).toList <+:
      (executeFrom p limits Array.push (fuel + 1) m es).2.2.toList := by
  rcases advance_cases p limits m with hnone | ⟨j, hj, ⟨f, hm⟩ | ⟨v, _, hm⟩ | ⟨τ, m', hm, hτ⟩⟩
  · cases hi.symm.trans hnone
  · cases hi.symm.trans hj
    simp only [executeFrom_fault es hi hm, List.prefix_refl]
  · cases hi.symm.trans hj
    rw [executeFrom_halted es hi hm]
    simp
  · cases hi.symm.trans hj
    rw [executeFrom_state es hi hm hτ]
    refine List.IsPrefix.trans ?_ (executeFrom_extends p limits fuel m' _).2
    simp

/-- A run that does not hit the limits is the same under higher limits. One that does is the
    beginning of that run. -/
theorem executeFrom_raise (p : Program) (h : limits.Raised higher) (fuel : Nat) (m : Machine)
    (es : Array Event) :
    (∃ f left es', executeFrom p limits Array.push fuel m es = (.error f, left, es') ∧
      f.Hits limits ∧ es'.toList <+: (executeFrom p higher Array.push fuel m es).2.2.toList) ∨
    executeFrom p higher Array.push fuel m es = executeFrom p limits Array.push fuel m es ∧
      ∀ f, (executeFrom p limits Array.push fuel m es).1 = .error f → f.isLimit = false := by
  induction fuel generalizing m es with
  | zero =>
    refine .inr ?_
    rcases advance_cases p limits m with hi | ⟨i, hi, -⟩
    · rw [executeFrom_incomplete es hi, executeFrom_incomplete es hi]
      exact ⟨rfl, fun f hf => by cases hf; rfl⟩
    · rw [executeFrom_exhausted es hi, executeFrom_exhausted es hi, h.fuel_eq]
      exact ⟨rfl, fun f hf => by cases hf; rfl⟩
  | succ fuel ih =>
    have hraise := advance_raise p h m
    rcases advance_cases p limits m with hi | ⟨i, hi, ⟨f, hm⟩ | ⟨v, _, hm⟩ | ⟨τ, m', hm, hτ⟩⟩
    · rw [executeFrom_incomplete es hi, executeFrom_incomplete es hi]
      exact .inr ⟨rfl, fun f hf => by cases hf; rfl⟩
    · rw [executeFrom_fault es hi hm]
      rcases hraise with ⟨f', hf', hhit⟩ | ⟨hsame, hlimit⟩
      · -- this is where the runs part
        cases hm.symm.trans hf'
        exact .inl ⟨_, _, _, rfl, hhit, executeFrom_announces hi fuel es⟩
      · rw [executeFrom_fault es hi (hsame.trans hm)]
        exact .inr ⟨rfl, fun f' hf' => by cases hf'; exact hlimit f hm⟩
    · rcases hraise with ⟨f', hf', -⟩ | ⟨hsame, -⟩
      · cases hm.symm.trans hf'
      · rw [executeFrom_halted es hi hm, executeFrom_halted es hi (hsame.trans hm)]
        exact .inr ⟨rfl, nofun⟩
    · rcases hraise with ⟨f', hf', -⟩ | ⟨hsame, -⟩
      · cases hm.symm.trans hf'
      · rw [executeFrom_state es hi hm hτ, executeFrom_state es hi (hsame.trans hm) hτ]
        exact ih m' _

end Machine

/-- Raising the limits does not change a run that does not hit them. If a run does, its fault says
    which limit that is, and all its events but the fault are the first events of the run under the
    higher limits. -/
theorem events_raise (p : Program) {limits higher : Limits} (h : limits.Raised higher) :
    ((∀ f, (events p limits).result = .error f → f.isLimit = false) →
      events p higher = events p limits) ∧
    ∀ f, (events p limits).result = .error f → f.isLimit = true → f.Hits limits ∧
      ∃ es : Array Event, (events p limits).observed = es.push (.fault f) ∧
        es.toList <+: (events p higher).observed.toList := by
  have hfuel := h.fuel_eq
  rcases hrun : Machine.executeFrom p limits Array.push limits.fuel .start #[]
    with ⟨result, left, es⟩
  rcases hrun' : Machine.executeFrom p higher Array.push higher.fuel .start #[]
    with ⟨result', left', es'⟩
  have hlower : events p limits = _ := execute_eq hrun
  have hhigher : events p higher = _ := execute_eq hrun'
  have hraise := Machine.executeFrom_raise p h limits.fuel .start #[]
  rw [hfuel] at hrun'
  rw [hrun, hrun'] at hraise
  rw [hlower, hhigher, hfuel]
  rcases hraise with ⟨f, _, _, heq, hhit, hprefix⟩ | ⟨heq, hlimit⟩
  · cases heq
    refine ⟨fun hlimit => ?_, fun f' hf' _ => ?_⟩
    · cases hhit.isLimit_eq_true.symm.trans (hlimit f rfl)
    · cases hf'
      refine ⟨hhit, es, rfl, hprefix.trans ?_⟩
      cases result' <;> simp [Event.observeEnd]
  · cases heq
    refine ⟨fun _ => rfl, fun f hf htrue => ?_⟩
    cases (hlimit f hf).symm.trans htrue

set_option maxRecDepth 4096 in
/-- Room for five values is enough for `Program.addition`: the three slots of its call, and both
    operands of the sum. With room for one value the run ends at the second push. -/
theorem events_raise_addition :
    events .addition {} = events .addition { stackLimit := 5 } ∧
      ∃ es : Array Event, (events .addition { stackLimit := 1 }).observed =
        es.push (.fault (.stackOverflow 1)) ∧
        es.toList <+: (events .addition {}).observed.toList := by
  have hresult : (events .addition { stackLimit := 5 }).result = .ok (.int 42) := rfl
  have hfault : (events .addition { stackLimit := 1 }).result = .error (.stackOverflow 1) := rfl
  have hfive : ({ stackLimit := 5 } : Limits).Raised {} := ⟨rfl, by decide, by decide⟩
  have hone : ({ stackLimit := 1 } : Limits).Raised {} := ⟨rfl, by decide, by decide⟩
  refine ⟨(events_raise .addition hfive).1 ?_, ((events_raise .addition hone).2 _ hfault rfl).2⟩
  rw [hresult]
  exact nofun

end StackMachine
