import StackMachine.Proofs.Machine.Windows

/-!
# Fuel

The fuel is only a bound. A run that gets along with some fuel does so with every other amount that
is not less than the number of its instructions, and in the same way. With less fuel it is cut
off when the fuel is used up, after the same events.

* `Machine.fault_of_advance`: no instruction uses up the budget by itself;
* `Machine.executeFrom_add`: more fuel does not change a run that did not use up what it had;
* `Machine.executeFrom_cut`: it continues a run that did.
-/

namespace StackMachine

/-- The same limits, but for the fuel. -/
def Limits.withFuel (limits : Limits) (fuel : Nat) : Limits :=
  { limits with fuel }

namespace Machine

variable {p : Program} {limits : Limits} {m : Machine}

/-! ## The faults of instructions -/

theorem fault_of_push {v : Value} {f : Fault} (hm : m.push limits v = .error f) :
    f.FromInstruction := by
  obtain ⟨-, rfl⟩ := push_error hm
  trivial

theorem fault_of_pop {op : Opcode} {f : Fault} (hm : m.pop op = .error f) :
    f.FromInstruction := by
  obtain ⟨-, rfl⟩ := pop_error hm
  trivial

theorem fault_of_localIndex {slot : UInt16} {f : Fault} (hm : m.localIndex slot = .error f) :
    f.FromInstruction := by
  rw [localIndex] at hm
  split at hm <;> cases hm
  trivial

theorem fault_of_load {slot : UInt16} {f : Fault} (hm : m.load slot = .error f) :
    f.FromInstruction := by
  rcases bind_eq_error.1 hm with hindex | ⟨_, _, hm⟩
  · exact fault_of_localIndex hindex
  · cases hm

theorem fault_of_store {slot : UInt16} {f : Fault} (hm : m.store slot = .error f) :
    f.FromInstruction := by
  rcases bind_eq_error.1 hm with hindex | ⟨_, _, hm⟩
  · exact fault_of_localIndex hindex
  rcases bind_eq_error.1 hm with hpop | ⟨_, _, hm⟩
  · exact fault_of_pop hpop
  · cases hm

theorem fault_of_enter {target : UInt32} {argc : UInt8} {locals : UInt16} {f : Fault}
    (hm : m.enter p limits target argc locals = .error f) : f.FromInstruction := by
  rw [enter] at hm
  split at hm
  · cases hm
    trivial
  split at hm
  · cases hm
    trivial
  split at hm
  · cases hm
    trivial
  simp only at hm
  split at hm <;> cases hm
  trivial

theorem fault_of_leave {f : Fault} (hm : m.leave limits = .error f) : f.FromInstruction := by
  rcases bind_eq_error.1 hm with hpop | ⟨⟨v, m'⟩, -, hm⟩
  · exact fault_of_pop hpop
  simp only at hm
  split at hm
  · cases hm
  rcases bind_eq_error.1 hm with hpush | ⟨_, _, hm⟩
  · exact fault_of_push hpush
  · cases hm

/-- The operations of the machine raise only faults of instructions. -/
theorem fault_simulation (p : Program) (limits : Limits) :
    Simulation p (storage p limits) (storage p limits) (fun e f => e = f ∧ f.FromInstruction)
      Eq Eq where
  fault hf _ := ⟨rfl, hf.fromInstruction⟩
  goTo := fun _ hmn => hmn ▸ rfl
  push := fun _ hmn => hmn ▸ .refl (fun _ _ => rfl) fun _ hm => ⟨rfl, fault_of_push hm⟩
  pop := fun _ hmn => hmn ▸ .refl (fun _ _ => ⟨rfl, rfl⟩) fun _ hm => ⟨rfl, fault_of_pop hm⟩
  load := fun _ hmn => hmn ▸ .refl (fun _ _ => rfl) fun _ hm => ⟨rfl, fault_of_load hm⟩
  store := fun _ hmn => hmn ▸ .refl (fun _ _ => rfl) fun _ hm => ⟨rfl, fault_of_store hm⟩
  enter := fun _ _ _ hmn => hmn ▸ .refl (fun _ _ => rfl) fun _ hm => ⟨rfl, fault_of_enter hm⟩
  leave := fun hmn => hmn ▸ .refl (fun _ _ => rfl) fun _ hm => ⟨rfl, fault_of_leave hm⟩
  next hmn := hmn ▸ rfl
  halted _ hmn := hmn ▸ rfl

theorem fault_of_advance {i : Placed} {f : Fault} (hi : p.fetch? m.pc = some i)
    (hm : advance p limits m = .error f) : f.FromInstruction := by
  rw [advance_eq hi] at hm
  have hagree := (fault_simulation p limits).step i.instruction
    (s := { m with pc := m.pc + 1 }) rfl
  rw [show (storage p limits).step p i.instruction _ = _ from hm] at hagree
  cases hagree with
  | error hf => exact hf.2

/-! ## More fuel -/

/-- A run that does not use up its fuel does not use more of it if there is more. -/
theorem executeFrom_add {limits' : Limits} {σ : Type} {observe : σ → Event → σ}
    {fuel left : Nat} {s s' : σ} {result : Except Fault Value}
    (hsame : ∀ m, advance p limits' m = advance p limits m)
    (h : executeFrom p limits observe fuel m s = (result, left, s'))
    (hresult : ∀ b, result ≠ .error (.budgetExceeded b)) (k : Nat) :
    executeFrom p limits' observe (fuel + k) m s = (result, left + k, s') := by
  induction fuel generalizing m s with
  | zero =>
    rcases advance_cases p limits m with hi | ⟨i, hi, -⟩
    · -- At the end of the code the fuel does not matter, even if there is none.
      rw [executeFrom_incomplete s hi] at h ⊢
      cases h
      rfl
    · rw [executeFrom_exhausted s hi] at h
      cases h
      exact absurd rfl (hresult _)
  | succ fuel ih =>
    rw [Nat.add_right_comm]
    rcases advance_cases p limits m with hi | ⟨i, hi, ⟨f, hm⟩ | ⟨v, _, hm⟩ | ⟨τ, m', hm, hτ⟩⟩
    · rw [executeFrom_incomplete s hi] at h ⊢
      cases h
      rw [Nat.add_right_comm]
    · rw [executeFrom_fault s hi hm] at h
      rw [executeFrom_fault s hi ((hsame m).trans hm)]
      cases h
      rfl
    · rw [executeFrom_halted s hi hm] at h
      rw [executeFrom_halted s hi ((hsame m).trans hm)]
      cases h
      rfl
    · rw [executeFrom_state s hi hm hτ] at h
      rw [executeFrom_state s hi ((hsame m).trans hm) hτ]
      exact ih h

/-- A run does not get fuel, and does not take back events. -/
theorem executeFrom_extends (p : Program) (limits : Limits) (fuel : Nat) (m : Machine)
    (es : Array Event) :
    (executeFrom p limits Array.push fuel m es).2.1 ≤ fuel ∧
      es.toList <+: (executeFrom p limits Array.push fuel m es).2.2.toList := by
  induction fuel generalizing m es with
  | zero =>
    rcases advance_cases p limits m with hi | ⟨i, hi, -⟩
    · rw [executeFrom_incomplete es hi]
      exact ⟨Nat.le_refl _, List.prefix_refl _⟩
    · rw [executeFrom_exhausted es hi]
      exact ⟨Nat.le_refl _, List.prefix_refl _⟩
  | succ fuel ih =>
    rcases advance_cases p limits m with hi | ⟨i, hi, ⟨f, hm⟩ | ⟨v, _, hm⟩ | ⟨τ, m', hm, hτ⟩⟩
    · rw [executeFrom_incomplete es hi]
      exact ⟨Nat.le_refl _, List.prefix_refl _⟩
    · rw [executeFrom_fault es hi hm]
      exact ⟨Nat.le_succ _, by simp⟩
    · rw [executeFrom_halted es hi hm]
      exact ⟨Nat.le_succ _, by simp⟩
    · rw [executeFrom_state es hi hm hτ]
      obtain ⟨hleft, hevents⟩ := ih m' _
      refine ⟨Nat.le_succ_of_le hleft, List.IsPrefix.trans ?_ hevents⟩
      simp

/-- Where an instruction is, more fuel is used. -/
theorem executeFrom_left_lt {i : Placed} (hi : p.fetch? m.pc = some i) {k : Nat} (hk : 0 < k)
    (es : Array Event) : (executeFrom p limits Array.push k m es).2.1 < k := by
  obtain ⟨k, rfl⟩ := Nat.exists_eq_add_one_of_ne_zero (Nat.ne_of_gt hk)
  rcases advance_cases p limits m with hi' | ⟨j, hj, ⟨f, hm⟩ | ⟨v, _, hm⟩ | ⟨τ, m', hm, hτ⟩⟩
  · cases hi.symm.trans hi'
  · rw [executeFrom_fault es hj hm]
    exact Nat.lt_succ_self k
  · rw [executeFrom_halted es hj hm]
    exact Nat.lt_succ_self k
  · rw [executeFrom_state es hj hm hτ]
    exact Nat.lt_succ_of_le (executeFrom_extends p limits k m' _).1

/-- A run that uses up its fuel is continued if there is more. -/
theorem executeFrom_cut {limits' : Limits} {fuel left b : Nat} {es es' : Array Event}
    (hsame : ∀ m, advance p limits' m = advance p limits m)
    (h : executeFrom p limits Array.push fuel m es = (.error (.budgetExceeded b), left, es'))
    (k : Nat) :
    b = limits.fuel ∧ left = 0 ∧
      (0 < k → (executeFrom p limits' Array.push (fuel + k) m es).2.1 < k) ∧
      es'.toList <+: (executeFrom p limits' Array.push (fuel + k) m es).2.2.toList := by
  induction fuel generalizing m es with
  | zero =>
    rcases advance_cases p limits m with hi | ⟨i, hi, -⟩
    · rw [executeFrom_incomplete es hi] at h
      cases h
    · -- The run is cut off here. With more fuel it starts from here.
      rw [executeFrom_exhausted es hi] at h
      cases h
      rw [Nat.zero_add]
      exact ⟨rfl, rfl, fun hk => executeFrom_left_lt hi hk _,
        (executeFrom_extends p limits' k m _).2⟩
  | succ fuel ih =>
    rw [Nat.add_right_comm]
    rcases advance_cases p limits m with hi | ⟨i, hi, ⟨f, hm⟩ | ⟨v, _, hm⟩ | ⟨τ, m', hm, hτ⟩⟩
    · rw [executeFrom_incomplete es hi] at h
      cases h
    · -- No instruction says that the budget is exceeded.
      rw [executeFrom_fault es hi hm] at h
      cases h
      exact absurd (fault_of_advance hi hm) id
    · rw [executeFrom_halted es hi hm] at h
      cases h
    · rw [executeFrom_state es hi hm hτ] at h
      rw [executeFrom_state es hi ((hsame m).trans hm) hτ]
      exact ih h

end Machine

/-! ## Whole runs -/

/-- What an observer sees of the end of a run. -/
def Event.observeEnd {σ : Type} (observe : σ → Event → σ) : Except Fault Value → σ → σ
  | .ok _, s => s
  | .error f, s => observe s (.fault f)

section

variable {p : Program} {limits : Limits} {f g : Nat}

/-- Instructions do not look at the fuel. -/
theorem advance_withFuel (p : Program) (limits : Limits) (f g : Nat) (m : Machine) :
    Machine.advance p (limits.withFuel g) m = Machine.advance p (limits.withFuel f) m :=
  rfl

theorem execute_eq {σ : Type} {observe : σ → Event → σ} {s s' : σ} {left : Nat}
    {result : Except Fault Value}
    (h : Machine.executeFrom p limits observe limits.fuel .start s = (result, left, s')) :
    execute p limits observe s =
      ⟨result, limits.fuel - left, Event.observeEnd observe result s'⟩ := by
  rw [execute, h]
  cases result <;> rfl

/-- A run that gets along with its fuel is the same with more. -/
theorem execute_withFuel {σ : Type} {observe : σ → Event → σ} {s : σ} (hfg : f ≤ g)
    (h : ∀ b, (execute p (limits.withFuel f) observe s).result ≠ .error (.budgetExceeded b)) :
    execute p (limits.withFuel g) observe s = execute p (limits.withFuel f) observe s := by
  obtain ⟨k, rfl⟩ := Nat.exists_eq_add_of_le hfg
  rcases hrun : Machine.executeFrom p (limits.withFuel f) observe f .start s
    with ⟨result, left, s'⟩
  have hf := execute_eq hrun
  rw [hf] at h ⊢
  have hadd := Machine.executeFrom_add (advance_withFuel p limits f (f + k)) hrun h k
  rw [execute_eq hadd]
  simp only [Limits.withFuel, Nat.add_sub_add_right]

/-- A run that is cut off goes on with more fuel. -/
theorem events_cut (hfg : f ≤ g) {b : Nat}
    (h : (events p (limits.withFuel f)).result = .error (.budgetExceeded b)) :
    b = f ∧ (events p (limits.withFuel f)).steps = f ∧
      (f < g → f < (events p (limits.withFuel g)).steps) ∧
      ∃ es : Array Event,
        (events p (limits.withFuel f)).observed = es.push (.fault (.budgetExceeded f)) ∧
        es.toList <+: (events p (limits.withFuel g)).observed.toList := by
  obtain ⟨k, rfl⟩ := Nat.exists_eq_add_of_le hfg
  rcases hrun : Machine.executeFrom p (limits.withFuel f) Array.push f .start #[]
    with ⟨result, left, es⟩
  have hf : events p (limits.withFuel f) = _ := execute_eq hrun
  rcases hrun' : Machine.executeFrom p (limits.withFuel (f + k)) Array.push (f + k) .start #[]
    with ⟨result', left', es'⟩
  have hg : events p (limits.withFuel (f + k)) = _ := execute_eq hrun'
  rw [hf] at h ⊢
  rw [hg]
  cases h
  have hcut := Machine.executeFrom_cut (advance_withFuel p limits f (f + k)) hrun k
  rw [hrun'] at hcut
  obtain ⟨rfl, rfl, hleft, hevents⟩ := hcut
  refine ⟨rfl, rfl, fun hlt => ?_, es, rfl, hevents.trans ?_⟩
  · -- Of the `k` units that there are more, the longer run has used some.
    have := hleft (Nat.pos_of_lt_add_right hlt)
    simp only [Limits.withFuel] at this ⊢
    omega
  · -- The fault that may end the longer run comes after all its other events.
    cases result' <;> simp [Event.observeEnd]

/-- Let `f ≤ g`. If a run gets along with the fuel `f`, then with `g` it has the same result, the
    same number of instructions and the same events. Otherwise it is cut off after exactly `f`
    instructions, and all its events but the fault are the first events of the run with `g`.

    So the number of instructions of a run is a threshold. With at least that much fuel the run
    ends in the same way, and with less it is cut off. -/
theorem fuel_threshold (p : Program) (limits : Limits) :
    (∀ f g, f ≤ g →
      ((∀ b, (events p (limits.withFuel f)).result ≠ .error (.budgetExceeded b)) →
        events p (limits.withFuel g) = events p (limits.withFuel f)) ∧
      ∀ b, (events p (limits.withFuel f)).result = .error (.budgetExceeded b) →
        b = f ∧ (events p (limits.withFuel f)).steps = f ∧
          ∃ es : Array Event,
            (events p (limits.withFuel f)).observed = es.push (.fault (.budgetExceeded f)) ∧
            es.toList <+: (events p (limits.withFuel g)).observed.toList) ∧
    ∀ f, (∀ b, (events p (limits.withFuel f)).result ≠ .error (.budgetExceeded b)) → ∀ g,
      ((events p (limits.withFuel f)).steps ≤ g →
        events p (limits.withFuel g) = events p (limits.withFuel f)) ∧
      (g < (events p (limits.withFuel f)).steps →
        (events p (limits.withFuel g)).result = .error (.budgetExceeded g)) := by
  refine ⟨fun f g hfg => ⟨execute_withFuel hfg, fun b hb => ?_⟩, fun f hf g => ?_⟩
  · obtain ⟨hb, hsteps, -, hevents⟩ := events_cut hfg hb
    exact ⟨hb, hsteps, hevents⟩
  by_cases hg : ∃ b, (events p (limits.withFuel g)).result = .error (.budgetExceeded b)
  · obtain ⟨b, hb⟩ := hg
    have hlt : g < f := by
      refine Nat.lt_of_not_le fun hle => ?_
      rw [show events p (limits.withFuel g) = _ from execute_withFuel hle hf] at hb
      exact hf b hb
    -- the run with `f` goes on where that with `g` is cut off
    obtain ⟨rfl, -, hlonger, -⟩ := events_cut (Nat.le_of_lt hlt) hb
    exact ⟨fun hle => absurd (hlonger hlt) (Nat.not_lt_of_le hle), fun _ => hb⟩
  · rw [not_exists] at hg
    have hsame : events p (limits.withFuel g) = events p (limits.withFuel f) := by
      rcases Nat.le_total f g with hle | hle
      · exact execute_withFuel hle hf
      · exact (execute_withFuel hle hg).symm
    refine ⟨fun _ => hsame, fun hlt => ?_⟩
    have hsteps := Machine.steps_le_fuel p (limits.withFuel g) Array.push #[]
    rw [show execute p (limits.withFuel g) Array.push #[] = _ from hsame] at hsteps
    exact absurd hlt (Nat.not_lt_of_le hsteps)

set_option maxRecDepth 4096 in
/-- The threshold of `Program.addition` is eight instructions. -/
theorem fuel_threshold_addition :
    events .addition {} = events .addition (({} : Limits).withFuel 8) ∧
      (events .addition (({} : Limits).withFuel 7)).result = .error (.budgetExceeded 7) := by
  have hresult : (events .addition (({} : Limits).withFuel 8)).result = .ok (.int 42) := rfl
  have hsteps : (events .addition (({} : Limits).withFuel 8)).steps = 8 := rfl
  have hends (b : Nat) : (events .addition (({} : Limits).withFuel 8)).result ≠
      .error (.budgetExceeded b) := by
    rw [hresult]
    exact nofun
  obtain ⟨hmore, hless⟩ := fuel_threshold .addition {}
  exact ⟨(hmore 8 1000000 (by decide)).1 hends, (hless 8 hends 7).2 (by rw [hsteps]; decide)⟩

end

end StackMachine
