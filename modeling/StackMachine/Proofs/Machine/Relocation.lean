import Mathlib.Data.List.Forall2
import StackMachine.Proofs.Machine.CallFrame
import StackMachine.Proofs.Machine.Fuel

/-!
# Code in other places

A `nop` between two instructions moves all that comes after it. Jumps and calls go to other places
then, and calls return to other places, but a run does not do anything else than before. It only
takes more instructions: at most one `nop` before each of the others.

* `Shifted`: a position, and where it is found after the insertion;
* `Program.Inserted`: a program with a `nop` more, whose jumps and calls go to where the old ones
  did;
* `Machine.Relocated`: states that differ in nothing but positions;
* `Machine.relocation`, `Machine.Relocated.advance`: instructions keep this relation;
* `Machine.Relocated.executeFrom`, `run_of_inserted`: so the value of a run is the same.
-/

namespace StackMachine

/-- A position in the code, and the same place once there is an instruction more at the position
    `k`. The place where that one is inserted may be before or after it. -/
inductive Shifted (k : Nat) : Nat → Nat → Prop
  | before {i : Nat} : i ≤ k → Shifted k i i
  | after {i : Nat} : k ≤ i → Shifted k i (i + 1)

namespace Shifted

variable {k i j : Nat}

/-- Unless the new instruction is next, the places after the next instruction are the same too. -/
theorem succ (h : Shifted k i j) (hj : j ≠ k) : Shifted k (i + 1) (j + 1) := by
  cases h with
  | before hi => exact .before (Nat.lt_of_le_of_ne hi hj)
  | after hi => exact .after (Nat.le_succ_of_le hi)

/-- The place before the new instruction is also the one after it. -/
theorem skip (h : Shifted k i k) : Shifted k i (k + 1) := by
  cases h with
  | before hk => exact .after hk
  | after hi => exact absurd hi (Nat.not_succ_le_self _)

end Shifted

namespace Program

/-- Two offsets are of the same place, if the first one is of any. -/
def SamePlace (k : Nat) (p q : Program) (target target' : UInt32) : Prop :=
  ∀ i, p.indexOf? target.toNat = some i →
    ∃ j, q.indexOf? target'.toNat = some j ∧ Shifted k i j

/-- `q` is `p` with a `nop` at the position `k`. -/
structure Inserted (k : Nat) (p q : Program) : Prop where
  constants (index : Nat) : p.constant? index = q.constant? index
  nop : ∃ i, q.fetch? k = some i ∧ i.instruction = .nop
  fetch {i j : Nat} {placed : Placed} : p.fetch? i = some placed → Shifted k i j → j ≠ k →
    ∃ placed', q.fetch? j = some placed' ∧
      placed.instruction.Moved (SamePlace k p q) placed'.instruction

end Program

/-- Two transitions with which a run goes on in states related by `R`, or halts with one value. -/
inductive Transition.Onward {S T : Type} (R : S → T → Prop) : Transition S → Transition T → Prop
  | state {τ : Transition S} {υ : Transition T} {s : S} {t : T} :
      τ.state? = some s → υ.state? = some t → R s t → Onward R τ υ
  | halted {v : Value} {s : S} {t : T} : Onward R (.halted v s) (.halted v t)

/-- Two frames differ at most in where their callers are resumed, and this is the same place. -/
structure Frame.Relocated (k : Nat) (f g : Frame) : Prop where
  returnIndex : Shifted k f.returnIndex g.returnIndex
  stackBase : g.stackBase = f.stackBase
  localsBase : g.localsBase = f.localsBase
  localsLen : g.localsLen = f.localsLen

namespace Machine

/-- Two states hold the same values in the same windows, and are at the same places. -/
structure Relocated (k : Nat) (m n : Machine) : Prop where
  stack : n.stack = m.stack
  locals : n.locals = m.locals
  frames : List.Forall₂ (Frame.Relocated k) m.frames n.frames
  pc : Shifted k m.pc n.pc

variable {k : Nat} {p q : Program} {limits : Limits} {m m' n : Machine} {v : Value}

theorem relocated_start : Relocated k .start .start where
  stack := rfl
  locals := rfl
  frames := .cons ⟨.before (Nat.zero_le k), rfl, rfl, rfl⟩ .nil
  pc := .before (Nat.zero_le k)

namespace Relocated

section

variable (h : Relocated k m n)

include h

theorem frame : Frame.Relocated k m.frame n.frame :=
  (List.forall₂_cons.1 h.frames).1

theorem callers : List.Forall₂ (Frame.Relocated k) m.callers.toList n.callers.toList :=
  (List.forall₂_cons.1 h.frames).2

theorem depth_callers : n.callers.depth = m.callers.depth := by
  rw [← CallStack.length_toList, ← CallStack.length_toList, h.callers.length_eq]

theorem depth_eq : n.depth = m.depth := by
  rw [depth, depth, h.stack, h.frame.stackBase]

theorem used_eq : n.used = m.used := by
  rw [used, used, h.stack, h.locals]

theorem localIndex_eq (slot : UInt16) : n.localIndex slot = m.localIndex slot := by
  rw [localIndex, localIndex, h.frame.localsLen, h.frame.localsBase]

theorem goTo {i j : Nat} (hij : Shifted k i j) :
    Relocated k { m with pc := i } { n with pc := j } :=
  ⟨h.stack, h.locals, h.frames, hij⟩

end

/-! ## The operations -/

theorem push (h : Relocated k m n) (hm : m.push limits v = .ok m') :
    ∃ n', n.push limits v = .ok n' ∧ Relocated k m' n' := by
  obtain ⟨hroom, rfl⟩ := push_ok hm
  refine ⟨{ n with stack := n.stack.push v }, ?_,
    { h with stack := congrArg (·.push v) h.stack }⟩
  rw [Machine.push, h.used_eq, if_neg (Nat.not_le_of_lt hroom)]

theorem pop (h : Relocated k m n) {op : Opcode} (hm : m.pop op = .ok (v, m')) :
    ∃ n', n.pop op = .ok (v, n') ∧ Relocated k m' n' := by
  obtain ⟨hdepth, hv, rfl⟩ := pop_ok hm
  refine ⟨{ n with stack := n.stack.pop }, ?_, { h with stack := congrArg Array.pop h.stack }⟩
  rw [Machine.pop, h.depth_eq, if_neg (Nat.ne_of_gt hdepth), h.stack, hv]

theorem load (h : Relocated k m n) (slot : UInt16) : n.load slot = m.load slot := by
  rw [Machine.load, Machine.load, h.localIndex_eq, h.locals]

theorem store (h : Relocated k m n) {slot : UInt16} (hm : m.store slot = .ok m') :
    ∃ n', n.store slot = .ok n' ∧ Relocated k m' n' := by
  obtain ⟨index, v, m₁, hindex, hpop, rfl⟩ := store_ok hm
  obtain ⟨n₁, hpop', h₁⟩ := h.pop hpop
  refine ⟨{ n₁ with locals := n₁.locals.setIfInBounds index v }, ?_,
    { h₁ with locals := congrArg (·.setIfInBounds index v) h₁.locals }⟩
  rw [Machine.store, h.localIndex_eq, hindex]
  simp only [bind, Except.bind, hpop']
  rfl

theorem openFrame (h : Relocated k m n) {entry entry' : Nat} (hentry : Shifted k entry entry')
    (argc localsLen : Nat) :
    Relocated k (m.openFrame entry argc localsLen) (n.openFrame entry' argc localsLen) where
  stack := by simp only [Machine.openFrame, h.stack]
  locals := by simp only [Machine.openFrame, h.stack, h.locals]
  frames := by
    simp only [Machine.openFrame, Machine.frames, CallStack.toList_push, h.stack, h.locals]
    exact .cons ⟨h.pc, rfl, rfl, rfl⟩ h.frames
  pc := hentry

theorem enter (h : Relocated k m n) {target target' : UInt32}
    (htarget : p.SamePlace k q target target') {argc : UInt8} {locals : UInt16}
    (hm : m.enter p limits target argc locals = .ok m') :
    ∃ n', n.enter q limits target' argc locals = .ok n' ∧ Relocated k m' n' := by
  obtain ⟨hdepth, hargc, entry, hentry, hroom, rfl⟩ := enter_ok hm
  obtain ⟨entry', hentry', hshifted⟩ := htarget entry hentry
  refine ⟨_, ?_, h.openFrame hshifted _ _⟩
  rw [Machine.enter, h.depth_callers, if_neg (Nat.not_le_of_lt hdepth), h.depth_eq,
    if_neg (Nat.not_lt_of_le hargc), hentry']
  dsimp only
  rw [h.used_eq, if_neg (Nat.not_lt_of_le hroom)]

/-- A caller is found in one state if it is found in the other one. -/
theorem pop?_callers (h : Relocated k m n) {caller : Frame} {callers : CallStack}
    (hm : m.callers.pop? = some (caller, callers)) :
    ∃ caller' callers', n.callers.pop? = some (caller', callers') ∧
      Frame.Relocated k caller caller' ∧
      List.Forall₂ (Frame.Relocated k) callers.toList callers'.toList := by
  have hcallers := h.callers
  rw [CallStack.toList_of_pop? hm] at hcallers
  cases hn : n.callers.pop? with
  | none =>
    rw [CallStack.toList_of_pop?_none hn] at hcallers
    cases hcallers
  | some x =>
    obtain ⟨caller', callers'⟩ := x
    rw [CallStack.toList_of_pop? hn, List.forall₂_cons] at hcallers
    exact ⟨caller', callers', rfl, hcallers⟩

theorem pop?_callers_none (h : Relocated k m n) (hm : m.callers.pop? = none) :
    n.callers.pop? = none := by
  have hcallers := h.callers
  rw [CallStack.toList_of_pop?_none hm] at hcallers
  cases hn : n.callers.pop? with
  | none => rfl
  | some x =>
    rw [CallStack.toList_of_pop? hn] at hcallers
    cases hcallers

theorem leave (h : Relocated k m n) {τ : Transition Machine} (hm : m.leave limits = .ok τ) :
    ∃ υ, n.leave limits = .ok υ ∧ Transition.Onward (Relocated k) τ υ := by
  obtain ⟨v, m₁, hpop, ⟨hnone, rfl⟩ | ⟨caller, callers, m₂, hsome, hpush, rfl⟩⟩ := leave_ok hm
  · obtain ⟨n₁, hpop', h₁⟩ := h.pop hpop
    refine ⟨.halted v n₁, ?_, .halted⟩
    rw [Machine.leave, hpop']
    simp only [bind, Except.bind, h₁.pop?_callers_none hnone]
    rfl
  · obtain ⟨n₁, hpop', h₁⟩ := h.pop hpop
    obtain ⟨caller', callers', hsome', hcaller, hcallers⟩ := h₁.pop?_callers hsome
    have hclosed : Relocated k (m₁.closeFrame caller callers)
        (n₁.closeFrame caller' callers') :=
      { stack := by simp only [closeFrame, h₁.stack, h₁.frame.stackBase]
        locals := by simp only [closeFrame, h₁.locals, h₁.frame.localsBase]
        frames := .cons hcaller hcallers
        pc := h₁.frame.returnIndex }
    obtain ⟨n₂, hpush', h₂⟩ := hclosed.push hpush
    refine ⟨.returned v n₂, ?_, .state rfl rfl h₂⟩
    rw [Machine.leave, hpop']
    simp only [bind, Except.bind, hsome', hpush']
    rfl

end Relocated

/-! ## Instructions -/

/-- The operations of the machine keep states at the same places. -/
theorem relocation (hpq : p.Inserted k q) (limits : Limits) :
    Comparison.onward.Correspondence p q (p.SamePlace k q) (fun _ => True) (storage p limits)
      (storage q limits) (Relocated k) (Transition.Onward (Relocated k)) where
  constant := hpq.constants
  ofConstant _ := trivial
  ofNotError _ := trivial
  fault _ _ := nofun
  push _ h m' hm := h.push hm
  pop _ h x hm := by
    obtain ⟨n', hn, hx⟩ := h.pop hm
    exact ⟨(x.1, n'), hn, rfl, trivial, hx⟩
  load slot h v hm := ⟨v, (h.load slot).trans hm, rfl, trivial⟩
  store _ h m' hm := h.store hm
  jump := by
    intro m n target target' htarget h m' hm
    rw [Storage.jump] at hm
    split at hm <;> cases hm
    rename_i i hi
    obtain ⟨j, hj, hij⟩ := htarget i hi
    refine ⟨{ n with pc := j }, ?_, h.goTo hij⟩
    rw [Storage.jump, hj]
    rfl
  enter := by
    intro m n target target' argc locals htarget h m' hm
    obtain ⟨n', hn, h'⟩ := h.enter htarget hm
    exact ⟨n', hn, .state rfl rfl h'⟩
  leave h τ hm := h.leave hm
  next h := .state rfl rfl h
  halted _ _ := .halted

/-- The new instruction only goes on to the one after it. -/
theorem advance_of_pc_eq (hpq : p.Inserted k q) (hn : n.pc = k) :
    ∃ i, q.fetch? n.pc = some i ∧ advance q limits n = .ok (.next { n with pc := k + 1 }) := by
  obtain ⟨i, hi, hnop⟩ := hpq.nop
  rw [← hn] at hi
  refine ⟨i, hi, ?_⟩
  rw [advance_eq hi, hnop, hn]
  rfl

namespace Relocated

/-- Any other instruction does the same as before. -/
theorem advance (hpq : p.Inserted k q) (h : Relocated k m n) (hn : n.pc ≠ k)
    {τ : Transition Machine} (hm : Machine.advance p limits m = .ok τ) :
    ∃ υ, Machine.advance q limits n = .ok υ ∧ Transition.Onward (Relocated k) τ υ := by
  obtain ⟨i, hi, hstep⟩ := advance_ok hm
  obtain ⟨j, hj, hmoved⟩ := hpq.fetch hi h.pc hn
  rw [advance_eq hj]
  exact (relocation hpq limits).step hmoved (h.goTo (h.pc.succ hn)) τ hstep

/-- A run that ends with a value does so in the new program too, with twice as much fuel. -/
theorem executeFrom (hpq : p.Inserted k q) {limits' : Limits} {σ : Type}
    {observe : σ → Event → σ} {fuel fuel' left : Nat} {s s' t : σ}
    (hlimits : ∀ m, Machine.advance q limits' m = Machine.advance q limits m)
    (h : Relocated k m n) (hfuel : 2 * fuel ≤ fuel')
    (hm : Machine.executeFrom p limits observe fuel m s = (.ok v, left, s')) :
    ∃ left' t', Machine.executeFrom q limits' observe fuel' n t = (.ok v, left', t') := by
  induction fuel generalizing fuel' m n s t with
  | zero =>
    rcases advance_cases p limits m with hi | ⟨i, hi, -⟩
    · rw [executeFrom_incomplete s hi] at hm
      cases hm
    · rw [executeFrom_exhausted s hi] at hm
      cases hm
  | succ fuel ih =>
    -- If the new instruction is not the next one, then the two runs do the same.
    have hsame {n : Machine} {fuel' : Nat} {t : σ} (h : Relocated k m n) (hn : n.pc ≠ k)
        (hfuel : 2 * fuel ≤ fuel') : ∃ left' t',
          Machine.executeFrom q limits' observe (fuel' + 1) n t = (.ok v, left', t') := by
      rcases advance_cases p limits m with hi | ⟨i, hi, ⟨_, hf⟩ | ⟨w, _, hw⟩ | ⟨τ, m', hτ, hm'⟩⟩
      · rw [executeFrom_incomplete s hi] at hm
        cases hm
      · rw [executeFrom_fault s hi hf] at hm
        cases hm
      · rw [executeFrom_halted s hi hw] at hm
        cases hm
        obtain ⟨υ, hυ, honward⟩ := h.advance hpq hn hw
        obtain ⟨j, hj, -⟩ := advance_ok hυ
        cases honward with
        | state hstate => cases hstate
        | halted => exact ⟨_, _, executeFrom_halted t hj ((hlimits n).trans hυ) fuel'⟩
      · rw [executeFrom_state s hi hτ hm'] at hm
        obtain ⟨υ, hυ, honward⟩ := h.advance hpq hn hτ
        obtain ⟨j, hj, -⟩ := advance_ok hυ
        cases honward with
        | halted => cases hm'
        | state hs ht hst =>
          cases hm'.symm.trans hs
          rw [executeFrom_state t hj ((hlimits n).trans hυ) ht]
          exact ih hst hfuel hm
    obtain ⟨fuel', rfl⟩ := Nat.exists_eq_add_of_le' (Nat.le_of_add_left_le hfuel)
    by_cases hn : n.pc = k
    · obtain ⟨i, hi, hnop⟩ := advance_of_pc_eq hpq hn
      rw [executeFrom_state t hi ((hlimits n).trans hnop) rfl]
      exact hsame (h.goTo (hn ▸ h.pc).skip) (Nat.succ_ne_self k) (by omega)
    · exact hsame h hn (by omega)

end Relocated

end Machine

/-- The value of a run is not changed by a `nop` more, if there is twice as much fuel. -/
theorem run_of_inserted {k : Nat} {p q : Program} (hpq : p.Inserted k q) {limits : Limits}
    {v : Value} (h : (run p limits).result = .ok v) {fuel : Nat} (hfuel : 2 * limits.fuel ≤ fuel) :
    (run q (limits.withFuel fuel)).result = .ok v := by
  rcases hrun : Machine.executeFrom p limits (fun _ _ => ()) limits.fuel .start ()
    with ⟨result, left, s'⟩
  rw [run, execute_eq hrun] at h
  cases h
  obtain ⟨left', t', hrun'⟩ := Machine.relocated_start.executeFrom hpq
    (advance_withFuel q limits limits.fuel fuel) hfuel hrun
  rw [run, execute_eq hrun']

end StackMachine
