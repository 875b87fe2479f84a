import Mathlib.Control.Monad.Basic
import StackMachine.Machine.Run
import StackMachine.Proofs.Machine.Simulation

/-!
# Reachable states

A run goes from state to state, one instruction at a time, until the program ends or the fuel
is used up.

* `Storage.advance`: what the next instruction of a program does;
* `Storage.Reached`: the states in a run, with the number of instructions executed before them;
* `Simulation.reached`: related machines go through related states;
* `Machine.execute_ends`: the outcome of a run is read off the last state in it.
-/

namespace StackMachine

/-- A sequence of two computations has a value if both have. -/
theorem bind_eq_ok {ε α β : Type} {x : Except ε α} {f : α → Except ε β} {b : β} :
    x >>= f = .ok b ↔ ∃ a, x = .ok a ∧ f a = .ok b := by
  cases x with
  | ok a => exact ⟨fun h => ⟨a, rfl, h⟩, fun ⟨_, ha, h⟩ => by cases ha; exact h⟩
  | error e => exact ⟨fun h => (nomatch h), fun ⟨_, ha, _⟩ => (nomatch ha)⟩

/-- It has an error if the first one has, or else the second one. -/
theorem bind_eq_error {ε α β : Type} {x : Except ε α} {f : α → Except ε β} {e : ε} :
    x >>= f = .error e ↔ x = .error e ∨ ∃ a, x = .ok a ∧ f a = .error e := by
  cases x with
  | ok a =>
    refine ⟨fun h => .inr ⟨a, rfl, h⟩, ?_⟩
    rintro (h | ⟨_, ha, h⟩)
    · cases h
    · cases ha
      exact h
  | error e' =>
    refine ⟨fun h => by cases h; exact .inl rfl, ?_⟩
    rintro (h | ⟨_, ha, -⟩)
    · cases h
      rfl
    · cases ha

namespace Transition

variable {S T : Type}

/-- The state in which the run goes on. -/
def state? : Transition S → Option S
  | next s => some s
  | called _ s => some s
  | returned _ s => some s
  | halted _ _ => none

/-- The same transition between translated states. -/
def map (f : S → T) : Transition S → Transition T
  | next s => .next (f s)
  | called target s => .called target (f s)
  | returned v s => .returned v (f s)
  | halted v s => .halted v (f s)

theorem state?_map {τ : Transition S} {s : S} {f : S → T} (h : τ.state? = some s) :
    (τ.map f).state? = some (f s) := by
  cases τ <;> cases h <;> rfl

/-- What an observer of the machine sees of a transition. -/
def events : Transition Machine → List Event
  | next _ => []
  | called target m => [.call target m.callers.depth]
  | returned v _ => [.ret v]
  | halted v _ => [.halt v]

/-- Two transitions of the same kind, to states related by `R`. -/
inductive Related (R : S → T → Prop) : Transition S → Transition T → Prop
  | next {s : S} {t : T} : R s t → Related R (.next s) (.next t)
  | called {target : UInt32} {s : S} {t : T} :
      R s t → Related R (.called target s) (.called target t)
  | returned {v : Value} {s : S} {t : T} : R s t → Related R (.returned v s) (.returned v t)
  | halted {v : Value} {s : S} {t : T} : R s t → Related R (.halted v s) (.halted v t)

/-- A relation that translates states translates transitions. -/
theorem Related.map_eq {R : S → T → Prop} {τ : Transition S} {υ : Transition T} {f : S → T}
    (h : Related R τ υ) (hR : ∀ s t, R s t → f s = t) : τ.map f = υ := by
  cases h with
  | next hst | called hst | returned hst | halted hst => rw [map, hR _ _ hst]

theorem Related.state {R : S → T → Prop} {τ : Transition S} {υ : Transition T}
    (h : Related R τ υ) {s : S} (hs : τ.state? = some s) : ∃ t, υ.state? = some t ∧ R s t := by
  cases h with
  | next hst | called hst | returned hst => cases hs; exact ⟨_, rfl, hst⟩
  | halted => cases hs

end Transition

namespace Storage

variable {ε S : Type} (A : Storage ε S) (p : Program)

/-- What the next instruction does. -/
def advance (s : S) : Except ε (Transition S) :=
  match p.fetch? (A.pc s) with
  | none => .error (A.fault .incompleteProgram s)
  | some i => A.step p i.instruction (A.goTo (A.pc s + 1) s)

/-- `Reached n s`: a run from `start` with the given fuel gets to the state `s` after `n`
    instructions. -/
inductive Reached (fuel : Nat) (start : S) : Nat → S → Prop
  | start : Reached fuel start 0 start
  | step {n : Nat} {s s' : S} {τ : Transition S} : Reached fuel start n s → n ≠ fuel →
      A.advance p s = .ok τ → τ.state? = some s' → Reached fuel start (n + 1) s'

variable {A p}

/-- Only calls, returns and the end of a run are not followed by the next state of the same
    call. -/
theorem step_cases {i : Instruction} {s : S} {τ : Transition S} (h : A.step p i s = .ok τ) :
    (∃ s', τ = .next s') ∨
      (∃ target argc locals s', i = .call target argc locals ∧
        A.enter target argc locals s = .ok s' ∧ τ = .called target s') ∨
      (i = .ret ∧ A.leave s = .ok τ) ∨
      (∃ v s', i = .halt ∧ A.pop .halt s = .ok (v, s') ∧ τ = .halted v s') := by
  cases i with
  | call target argc locals =>
    obtain ⟨s', hs', h⟩ := bind_eq_ok.1 h
    cases h
    exact .inr (.inl ⟨target, argc, locals, s', rfl, hs', rfl⟩)
  | ret => exact .inr (.inr (.inl ⟨rfl, h⟩))
  | halt =>
    obtain ⟨⟨v, s'⟩, hs', h⟩ := bind_eq_ok.1 h
    cases h
    exact .inr (.inr (.inr ⟨v, s', rfl, hs', rfl⟩))
  | pushConst index =>
    simp only [step] at h
    split at h
    · cases h
    · obtain ⟨s', -, h⟩ := bind_eq_ok.1 h
      cases h
      exact .inl ⟨s', rfl⟩
  | _ =>
    refine .inl ?_
    simp only [step, bind_eq_ok, pure, Except.pure, Except.ok.injEq] at h
    grind

theorem advance_of_fetch {s : S} {i : Placed} (hi : p.fetch? (A.pc s) = some i) :
    A.advance p s = A.step p i.instruction (A.goTo (A.pc s + 1) s) := by
  rw [advance, hi]

/-- No more instructions are executed than there is fuel. -/
theorem Reached.le_fuel {fuel n : Nat} {start s : S} (h : A.Reached p fuel start n s) :
    n ≤ fuel := by
  induction h with
  | start => exact Nat.zero_le _
  | step _ hn _ _ ih => exact Nat.lt_of_le_of_ne ih hn

/-- A run has only one state after `n` instructions. -/
theorem Reached.unique {fuel n : Nat} {start s t : S} (hs : A.Reached p fuel start n s)
    (ht : A.Reached p fuel start n t) : s = t := by
  induction hs generalizing t with
  | start => cases ht; rfl
  | step _ _ hτ hs' ih =>
    cases ht with
    | step ht _ hυ ht' =>
      cases ih ht
      cases hτ.symm.trans hυ
      exact Option.some.inj (hs'.symm.trans ht')

end Storage

/-- A position with an instruction is one below the number of instructions. -/
theorem Program.lt_of_fetch? {p : Program} {index : Nat} {i : Placed}
    (h : p.fetch? index = some i) : index < p.code.size :=
  (Array.getElem?_eq_some_iff.1 h).1

theorem Comparison.Simulation.advance {ε ε' S T : Type} {C : Comparison ε ε'} {p : Program}
    {A : Storage ε S} {B : Storage ε' T} {R : S → T → Prop}
    {Q : Transition S → Transition T → Prop} (h : C.Simulation p A B R Q)
    (hpc : ∀ s t, R s t → A.pc s = B.pc t)
    (hend : ∀ {s : S} {t : T}, C.Holds Q (.error (A.fault .incompleteProgram s))
      (.error (B.fault .incompleteProgram t)))
    {s : S} {t : T} (hst : R s t) : C.Holds Q (A.advance p s) (B.advance p t) := by
  rw [Storage.advance, Storage.advance, ← hpc s t hst]
  split
  · -- Both are at the end of the code.
    exact hend
  · rename_i hi
    exact h.step _ (h.goTo (Program.lt_of_fetch? hi) hst)

namespace Simulation

variable {ε ε' S T : Type} {p : Program} {A : Storage ε S} {B : Storage ε' T}
  {E : ε → ε' → Prop} {R : S → T → Prop}

theorem advance {Q : Transition S → Transition T → Prop} (h : Simulation p A B E R Q)
    (hpc : ∀ s t, R s t → A.pc s = B.pc t)
    (hend : ∀ {s : S} {t : T}, E (A.fault .incompleteProgram s) (B.fault .incompleteProgram t))
    {s : S} {t : T} (hst : R s t) : Agree E Q (A.advance p s) (B.advance p t) :=
  h.comparison.advance hpc (.error hend) hst

/-- A run of a machine is accompanied by a run of every machine that simulates it. -/
theorem reached (h : Simulation p A B E R (Transition.Related R))
    (hpc : ∀ s t, R s t → A.pc s = B.pc t)
    (hend : ∀ {s : S} {t : T}, E (A.fault .incompleteProgram s) (B.fault .incompleteProgram t))
    {fuel n : Nat} {start s : S} {start' : T} (hstart : R start start')
    (hs : A.Reached p fuel start n s) :
    ∃ t, B.Reached p fuel start' n t ∧ R s t := by
  induction hs with
  | start => exact ⟨start', .start, hstart⟩
  | step _ hn hτ hs' ih =>
    obtain ⟨t, ht, hst⟩ := ih
    have hτυ := h.advance hpc hend hst
    rw [hτ] at hτυ
    obtain ⟨υ, hυ, hrel⟩ := hτυ.ok_left
    obtain ⟨t', ht', hst'⟩ := hrel.state hs'
    exact ⟨t', .step ht hn hυ ht', hst'⟩

end Simulation

namespace Machine

variable (p : Program) (limits : Limits)

/-- What the next instruction does. -/
def advance (m : Machine) : Except Fault (Transition Machine) :=
  (storage p limits).advance p m

/-- `Reached n m`: a run of `p` gets to the state `m` after `n` instructions. -/
def Reached (n : Nat) (m : Machine) : Prop :=
  (storage p limits).Reached p limits.fuel .start n m

/-- `Ends n m steps result`: a run that got to the state `m` after `n` instructions ends there
    or with the next instruction, which counts then. -/
inductive Ends (n : Nat) (m : Machine) : (steps : Nat) → Except Fault Value → Prop
  | incomplete : p.fetch? m.pc = none → Ends n m n (.error .incompleteProgram)
  | exhausted {i : Placed} : p.fetch? m.pc = some i → n = limits.fuel →
      Ends n m n (.error (.budgetExceeded limits.fuel))
  | fault {i : Placed} {f : Fault} : p.fetch? m.pc = some i → n ≠ limits.fuel →
      advance p limits m = .error f → Ends n m (n + 1) (.error f)
  | halted {i : Placed} {v : Value} {m' : Machine} : p.fetch? m.pc = some i → n ≠ limits.fuel →
      advance p limits m = .ok (.halted v m') → Ends n m (n + 1) (.ok v)

variable {p limits}

theorem advance_eq {m : Machine} {i : Placed} (hi : p.fetch? m.pc = some i) :
    advance p limits m = step p limits i.instruction { m with pc := m.pc + 1 } :=
  Storage.advance_of_fetch hi

theorem Ends.steps_le {n steps : Nat} {m : Machine} {result : Except Fault Value}
    (h : Ends p limits n m steps result) (hn : n ≤ limits.fuel) : steps ≤ limits.fuel := by
  cases h with
  | incomplete | exhausted => exact hn
  | fault _ hne | halted _ hne => exact Nat.lt_of_le_of_ne hn hne

/-- A state that is not the first one comes from another one. -/
theorem Reached.pred {n : Nat} {m : Machine} (h : Reached p limits (n + 1) m) :
    ∃ m₀ τ, Reached p limits n m₀ ∧ advance p limits m₀ = .ok τ ∧ τ.state? = some m := by
  cases h with
  | step hm₀ _ hτ hm => exact ⟨_, _, hm₀, hτ, hm⟩

/-- A run that gets somewhere has been everywhere before. -/
theorem Reached.of_le {n k : Nat} {m : Machine} (h : Reached p limits k m) (hnk : n ≤ k) :
    ∃ m₀, Reached p limits n m₀ := by
  induction k generalizing m with
  | zero =>
    cases Nat.le_zero.1 hnk
    exact ⟨m, h⟩
  | succ k ih =>
    rcases Nat.eq_or_lt_of_le hnk with rfl | hlt
    · exact ⟨m, h⟩
    · obtain ⟨m₀, _, hm₀, -, -⟩ := h.pred
      exact ih hm₀ (Nat.le_of_lt_succ hlt)

/-- The states after an instruction. -/
theorem Reached.succ {n k : Nat} {s m : Machine} (hs : Reached p limits n s)
    (hm : Reached p limits k m) (hnk : n < k) :
    ∃ τ s', advance p limits s = .ok τ ∧ τ.state? = some s' ∧ Reached p limits (n + 1) s' := by
  obtain ⟨s', hs'⟩ := hm.of_le hnk
  obtain ⟨s₀, τ, hs₀, hτ, hstate⟩ := hs'.pred
  cases hs.unique hs₀
  exact ⟨τ, s', hτ, hstate, hs'⟩

/-- What can come next: the end of the code, or an instruction that raises a fault, halts, or
    leads to another state. -/
theorem advance_cases (p : Program) (limits : Limits) (m : Machine) :
    p.fetch? m.pc = none ∨ ∃ i, p.fetch? m.pc = some i ∧
      ((∃ f, advance p limits m = .error f) ∨ (∃ v m', advance p limits m = .ok (.halted v m')) ∨
        ∃ τ m', advance p limits m = .ok τ ∧ τ.state? = some m') := by
  cases hi : p.fetch? m.pc with
  | none => exact .inl rfl
  | some i =>
    refine .inr ⟨i, rfl, ?_⟩
    cases advance p limits m with
    | error f => exact .inl ⟨f, rfl⟩
    | ok τ =>
      cases τ with
      | halted v m' => exact .inr (.inl ⟨v, m', rfl⟩)
      | next m' | called _ m' | returned _ m' => exact .inr (.inr ⟨_, m', rfl, rfl⟩)

/-! ## The run function

One equation for each thing that can come next. -/

section

variable {σ : Type} {observe : σ → Event → σ} {m : Machine} {i : Placed} (s : σ)

theorem executeFrom_incomplete (hi : p.fetch? m.pc = none) (fuel : Nat) :
    executeFrom p limits observe fuel m s = (.error .incompleteProgram, fuel, s) := by
  cases fuel <;> simp only [executeFrom, hi]

theorem executeFrom_exhausted (hi : p.fetch? m.pc = some i) :
    executeFrom p limits observe 0 m s = (.error (.budgetExceeded limits.fuel), 0, s) := by
  simp only [executeFrom, hi]

theorem executeFrom_fault (hi : p.fetch? m.pc = some i) {f : Fault}
    (hm : advance p limits m = .error f) (fuel : Nat) :
    executeFrom p limits observe (fuel + 1) m s =
      (.error f, fuel, observe s (.step i.offset i.instruction m.depth)) := by
  rw [advance_eq hi] at hm
  simp only [executeFrom, hi, hm]

theorem executeFrom_halted (hi : p.fetch? m.pc = some i) {v : Value} {m' : Machine}
    (hm : advance p limits m = .ok (.halted v m')) (fuel : Nat) :
    executeFrom p limits observe (fuel + 1) m s =
      (.ok v, fuel, observe (observe s (.step i.offset i.instruction m.depth)) (.halt v)) := by
  rw [advance_eq hi] at hm
  simp only [executeFrom, hi, hm]

theorem executeFrom_state (hi : p.fetch? m.pc = some i) {τ : Transition Machine} {m' : Machine}
    (hm : advance p limits m = .ok τ) (hτ : τ.state? = some m') (fuel : Nat) :
    executeFrom p limits observe (fuel + 1) m s =
      executeFrom p limits observe fuel m'
        (τ.events.foldl observe (observe s (.step i.offset i.instruction m.depth))) := by
  rw [advance_eq hi] at hm
  cases τ with
  | halted v _ => cases hτ
  | next m' | called target m' | returned v m' =>
    cases hτ
    rw [executeFrom]
    simp only [hi, hm]
    rfl

end

/-- The outcome of a run is read off a state that it reaches. -/
theorem execute_ends (p : Program) (limits : Limits) {σ : Type} (observe : σ → Event → σ)
    (s : σ) : ∃ n m, Reached p limits n m ∧
      Ends p limits n m (execute p limits observe s).steps (execute p limits observe s).result := by
  -- From every state of the run on, the fuel that is left being what the run has not used.
  suffices h : ∀ fuel n m s, Reached p limits n m → n + fuel = limits.fuel →
      ∃ n' m', Reached p limits n' m' ∧ Ends p limits n' m'
        (limits.fuel - (executeFrom p limits observe fuel m s).2.1)
        (executeFrom p limits observe fuel m s).1 by
    obtain ⟨n, m, hm, hend⟩ := h limits.fuel 0 .start s .start (Nat.zero_add _)
    refine ⟨n, m, hm, ?_⟩
    rw [execute]
    split <;> rename_i heq <;> simpa only [heq] using hend
  intro fuel
  induction fuel with
  | zero =>
    -- The end of the code is noticed even now.
    intro n m s hm hn
    refine ⟨n, m, hm, ?_⟩
    rcases advance_cases p limits m with hi | ⟨i, hi, -⟩
    · rw [executeFrom_incomplete s hi, show limits.fuel - 0 = n by omega]
      exact .incomplete hi
    · rw [executeFrom_exhausted s hi, show limits.fuel - 0 = n by omega]
      exact .exhausted hi hn
  | succ fuel ih =>
    intro n m s hm hn
    have hne : n ≠ limits.fuel := by omega
    have hsteps : limits.fuel - fuel = n + 1 := by omega
    rcases advance_cases p limits m with hi | ⟨i, hi, ⟨f, hf⟩ | ⟨v, _, hv⟩ | ⟨τ, m', hτ, hm'⟩⟩
    · refine ⟨n, m, hm, ?_⟩
      rw [executeFrom_incomplete s hi, show limits.fuel - (fuel + 1) = n by omega]
      exact .incomplete hi
    · refine ⟨n, m, hm, ?_⟩
      rw [executeFrom_fault s hi hf, hsteps]
      exact .fault hi hne hf
    · refine ⟨n, m, hm, ?_⟩
      rw [executeFrom_halted s hi hv, hsteps]
      exact .halted hi hne hv
    · -- The run goes on with one instruction less.
      rw [executeFrom_state s hi hτ hm']
      exact ih (n + 1) m' _ (.step hm hne hτ hm') (by omega)

theorem steps_le_fuel (p : Program) (limits : Limits) {σ : Type} (observe : σ → Event → σ)
    (s : σ) : (execute p limits observe s).steps ≤ limits.fuel := by
  obtain ⟨n, m, hm, hend⟩ := execute_ends p limits observe s
  exact hend.steps_le hm.le_fuel

end Machine

/-! ## An example -/

/-- A program that adds two numbers in a function with one local slot more. -/
def Program.addition : Program where
  bytes :=
    [86, 69, 76, 65, 1, 0, 0, 0, 2, 0, 0, 0,
      1, 0, 0, 0, 36, 0, 0, 0, 4, 0, 0, 0, 2, 0, 0, 0, 40, 0, 0, 0, 35, 0, 0, 0,
      0, 0, 0, 0,
      1, 20, 0, 0, 0, 0, 0, 0, 0, 1, 22, 0, 0, 0, 0, 0, 0, 0, 72, 27, 0, 0, 0, 2, 3, 0, 79,
      16, 0, 0, 16, 1, 0, 32, 73]
  header := { sectionCount := 2 }
  sections := ⟨[⟨.constants, 36, 4⟩, ⟨.code, 40, 35⟩]⟩
  constants := #[]
  code :=
    #[⟨0, .pushInt 20⟩, ⟨9, .pushInt 22⟩, ⟨18, .call 27 2 3⟩, ⟨26, .halt⟩,
      ⟨27, .load 0⟩, ⟨30, .load 1⟩, ⟨33, .binary (.arithmetic .add)⟩, ⟨34, .ret⟩]
  lines := #[]

theorem Program.load_addition : load addition.bytes = .ok addition := by
  decide +kernel

namespace Machine

/-- The state of `Program.addition` before its call. -/
def beforeAddition : Machine :=
  { start with stack := #[.int 20, .int 22], pc := 2 }

/-- The state of `Program.addition` after its call. -/
def inAddition : Machine :=
  { beforeAddition with pc := 3 }.openFrame 4 2 3

set_option maxRecDepth 4096 in
theorem reached_beforeAddition : Reached .addition {} 2 beforeAddition :=
  .step (.step .start (by decide) rfl rfl) (by decide) rfl rfl

set_option maxRecDepth 4096 in
theorem advance_beforeAddition :
    advance .addition {} beforeAddition = .ok (.called 27 inAddition) :=
  rfl

theorem reached_inAddition : Reached .addition {} 3 inAddition :=
  .step reached_beforeAddition (by decide) advance_beforeAddition rfl

end Machine

end StackMachine
