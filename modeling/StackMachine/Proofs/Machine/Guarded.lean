import Mathlib.Data.List.Chain
import StackMachine.Proofs.Machine.Windows

/-!
# Guarded runs

The machine subtracts positions and indexes with them without looking whether it may. The guarded
machine looks: where a subtraction would get below zero or an index is out of range, it *aborts*.
In a run this never happens, so it does what the machine does.

* `Guarded.storage`, `Guarded.execute`: the guarded machine and its runs;
* `Sound.guarded_push`, `Sound.guarded_pop`, ...: its operations do not abort in a sound state;
* `Sound.guarded_executeFrom`: nor do its runs.
-/

namespace StackMachine

namespace Machine

namespace Guarded

/-- `a - b`, if that is a natural number. -/
def sub? (a b : Nat) : Option Nat :=
  if b ≤ a then some (a - b) else none

/-- The entries from the position `start` on, if that is one of `xs`, or its end. -/
def suffix? (xs : Array Value) (start : Nat) : Option (Array Value) :=
  if start ≤ xs.size then some (xs.extract start xs.size) else none

/-- The value, if there is one. An abort is the error `none`, the others are faults. -/
def orAbort {α : Type} : Option α → Except (Option Fault) α
  | none => .error none
  | some a => .ok a

/-- The number of operands of the active call. -/
def depth (m : Machine) : Except (Option Fault) Nat :=
  orAbort (sub? m.stack.size m.frame.stackBase)

/-- The number of operands, and of local slots but those of the top level. -/
def used (m : Machine) : Except (Option Fault) Nat :=
  orAbort (sub? (m.stack.size + m.locals.size) topLocals)

/-- The state with an operand more, unless the limit is reached. -/
def push (limits : Limits) (v : Value) (m : Machine) : Except (Option Fault) Machine := do
  if limits.stackLimit ≤ (← used m) then throw (some (.stackOverflow limits.stackLimit))
  else return { m with stack := m.stack.push v }

/-- The last operand of the active call and the state without it. -/
def pop (op : Opcode) (m : Machine) : Except (Option Fault) (Value × Machine) := do
  if (← depth m) = 0 then throw (some (.stackUnderflow op))
  else
    match m.stack.back? with
    | none => throw (some (.stackUnderflow op))
    | some v => return (v, { m with stack := m.stack.pop })

/-- The value in a local slot of the active call. -/
def load (slot : UInt16) (m : Machine) : Except (Option Fault) Value := do
  let index ← (m.localIndex slot).mapError some
  orAbort m.locals[index]?

/-- The state in which the last operand has moved to a local slot of the active call. -/
def store (slot : UInt16) (m : Machine) : Except (Option Fault) Machine := do
  let index ← (m.localIndex slot).mapError some
  let (v, m) ← pop .store m
  if index < m.locals.size then return { m with locals := m.locals.setIfInBounds index v }
  else throw none

/-- The state in a callee whose first instruction has the position `entry`. -/
def openFrame (entry argc localsLen : Nat) (m : Machine) : Except (Option Fault) Machine := do
  let base ← orAbort (sub? m.stack.size argc)
  let args ← orAbort (suffix? m.stack base)
  let padding ← orAbort (sub? localsLen argc)
  return {
    stack := m.stack.shrink base
    locals := m.locals ++ args ++ Array.replicate padding .none
    callers := m.callers.push m.frame
    frame := ⟨m.pc, base, m.locals.size, localsLen⟩
    pc := entry }

/-- A call. -/
def enter (p : Program) (limits : Limits) (target : UInt32) (argc : UInt8) (locals : UInt16)
    (m : Machine) : Except (Option Fault) Machine := do
  if limits.callDepth ≤ m.callers.depth then throw (some (.callDepthExceeded limits.callDepth))
  else if (← depth m) < argc.toNat then throw (some (.stackUnderflow .call))
  else
    match p.indexOf? target.toNat with
    | none => throw (some (.invalidJumpTarget target))
    | some entry => do
      let localsLen := max argc.toNat locals.toNat
      let padding ← orAbort (sub? localsLen argc.toNat)
      if limits.stackLimit < (← used m) + padding then
        throw (some (.stackOverflow limits.stackLimit))
      else openFrame entry argc.toNat localsLen m

/-- A return. At the top level it ends the run. -/
def leave (limits : Limits) (m : Machine) : Except (Option Fault) (Transition Machine) := do
  let (v, m) ← pop .ret m
  match m.callers.pop? with
  | none => return .halted v m
  | some (caller, callers) =>
    let m ← push limits v (m.closeFrame caller callers)
    return .returned v m

/-- The operations of the guarded machine that executes `p`. -/
def storage (p : Program) (limits : Limits) : Storage (Option Fault) Machine where
  fault f _ := some f
  pc := Machine.pc
  goTo pc m := { m with pc }
  push := push limits
  pop := pop
  load := load
  store := store
  enter := enter p limits
  leave := leave limits

/-- The event of the next instruction. -/
def stepEvent (p : Program) (i : Placed) (m : Machine) : Except (Option Fault) Event := do
  let placed ← orAbort p.code[m.pc]?
  return .step placed.offset i.instruction (← depth m)

variable {σ : Type}

/-- Execute from the state `m` on, with `fuel` instructions left; `none` if the machine aborts. -/
def executeFrom (p : Program) (limits : Limits) (observe : σ → Event → σ) :
    (fuel : Nat) → Machine → σ → Option (Except Fault Value × Nat × σ)
  | fuel, m, s =>
    match p.fetch? m.pc with
    | none => some (.error .incompleteProgram, fuel, s)
    | some i =>
      match fuel with
      | 0 => some (.error (.budgetExceeded limits.fuel), 0, s)
      | fuel + 1 =>
        match stepEvent p i m with
        | .error _ => none
        | .ok event =>
          let s := observe s event
          match (storage p limits).step p i.instruction { m with pc := m.pc + 1 } with
          | .error none => none
          | .error (some fault) => some (.error fault, fuel, s)
          | .ok (.next m) => executeFrom p limits observe fuel m s
          | .ok (.called target m) =>
            executeFrom p limits observe fuel m (observe s (.call target m.callers.depth))
          | .ok (.returned v m) => executeFrom p limits observe fuel m (observe s (.ret v))
          | .ok (.halted v _) => some (.ok v, fuel, observe s (.halt v))

/-- A run of a program; `none` if the machine aborts. -/
def execute (p : Program) (limits : Limits) (observe : σ → Event → σ) (s : σ) :
    Option (Outcome σ) :=
  match executeFrom p limits observe limits.fuel .start s with
  | none => none
  | some (.ok v, left, s) => some ⟨.ok v, limits.fuel - left, s⟩
  | some (.error fault, left, s) =>
    some ⟨.error fault, limits.fuel - left, observe s (.fault fault)⟩

end Guarded

variable {p : Program} {limits : Limits} {m : Machine}

namespace Sound

/-! ## The guarded operations -/

theorem orAbort_sub? {a b : Nat} (h : b ≤ a) :
    Guarded.orAbort (Guarded.sub? a b) = .ok (a - b) := by
  rw [Guarded.sub?, if_pos h, Guarded.orAbort]

theorem guarded_depth (h : Sound p limits m) : Guarded.depth m = .ok m.depth :=
  orAbort_sub? h.stackBase_le

/-- In a state that no run gets to, the guarded machine does abort. -/
example : Guarded.depth { Machine.start with frame := ⟨0, 1, 0, topLocals⟩ } = .error none := rfl

theorem guarded_used (h : Sound p limits m) : Guarded.used m = .ok m.used :=
  orAbort_sub? (Nat.le_trans h.topLocals_le (Nat.le_add_left _ _))

theorem guarded_push (h : Sound p limits m) (v : Value) :
    Guarded.push limits v m = (m.push limits v).mapError some := by
  rw [Guarded.push, Machine.push]
  rw [h.guarded_used]
  simp only [bind, Except.bind]
  split <;> rfl

theorem guarded_pop (h : Sound p limits m) (op : Opcode) :
    Guarded.pop op m = (m.pop op).mapError some := by
  rw [Guarded.pop, Machine.pop]
  rw [h.guarded_depth]
  simp only [bind, Except.bind]
  split
  · rfl
  · cases m.stack.back? <;> rfl

theorem guarded_load (h : Sound p limits m) (slot : UInt16) :
    Guarded.load slot m = (m.load slot).mapError some := by
  rw [Guarded.load, Machine.load]
  cases hindex : m.localIndex slot with
  | error f => rfl
  | ok index =>
    -- The slots of the active call are the last ones, so the index is below the end of all.
    obtain ⟨hslot, rfl⟩ := localIndex_ok hindex
    have hlt : m.frame.localsBase + slot.toNat < m.locals.size := by
      have := h.locals_eq
      omega
    simp only [Except.mapError, bind, Except.bind, Array.getElem?_eq_getElem hlt, Guarded.orAbort]
    exact congrArg Except.ok (Array.getElem_eq_getD _)

theorem guarded_store (h : Sound p limits m) (slot : UInt16) :
    Guarded.store slot m = (m.store slot).mapError some := by
  rw [Guarded.store, Machine.store]
  rw [h.guarded_pop]
  cases hindex : m.localIndex slot with
  | error f => rfl
  | ok index =>
    cases hpop : m.pop .store with
    | error f => rfl
    | ok x =>
      obtain ⟨v, m'⟩ := x
      obtain ⟨hslot, rfl⟩ := localIndex_ok hindex
      have hlt : m.frame.localsBase + slot.toNat < m'.locals.size := by
        have := h.locals_eq
        obtain ⟨-, -, rfl⟩ := pop_ok hpop
        simp only
        omega
      simp only [Except.mapError, bind, Except.bind, if_pos hlt]
      rfl

theorem guarded_openFrame {entry argc localsLen : Nat} (hargc : argc ≤ m.depth)
    (hlen : argc ≤ localsLen) :
    Guarded.openFrame entry argc localsLen m = .ok (m.openFrame entry argc localsLen) := by
  have hsize : argc ≤ m.stack.size := Nat.le_trans hargc (Nat.sub_le _ _)
  have hargs : Guarded.suffix? m.stack (m.stack.size - argc) =
      some (m.stack.extract (m.stack.size - argc) m.stack.size) :=
    if_pos (Nat.sub_le _ _)
  rw [Guarded.openFrame]
  rw [orAbort_sub? hsize, orAbort_sub? hlen]
  simp only [bind, Except.bind, hargs]
  rfl

theorem guarded_enter (h : Sound p limits m) (target : UInt32) (argc : UInt8) (locals : UInt16) :
    Guarded.enter p limits target argc locals m =
      (m.enter p limits target argc locals).mapError some := by
  rw [Guarded.enter, Machine.enter]
  rw [h.guarded_depth, h.guarded_used]
  split
  · rfl
  simp only [bind, Except.bind, orAbort_sub? (Nat.le_max_left argc.toNat locals.toNat)]
  split
  · rfl
  rename_i hargc
  cases p.indexOf? target.toNat with
  | none => rfl
  | some entry =>
    simp only
    split
    · rfl
    · rw [guarded_openFrame (Nat.le_of_not_lt hargc) (Nat.le_max_left _ _)]
      rfl

theorem guarded_leave (h : Sound p limits m) :
    Guarded.leave limits m = (m.leave limits).mapError some := by
  rw [Guarded.leave, Machine.leave]
  rw [h.guarded_pop]
  cases hm : m.pop .ret with
  | error f => rfl
  | ok x =>
    obtain ⟨v, m'⟩ := x
    cases hpop : m'.callers.pop? with
    | none =>
      simp only [Except.mapError, bind, Except.bind, hpop]
      rfl
    | some x =>
      -- The value is pushed in the state of the caller, which is sound as well.
      obtain ⟨caller, callers⟩ := x
      have hclosed := (h.pop hm).closeFrame hpop
      simp only [Except.mapError, bind, Except.bind, hpop, hclosed.guarded_push]
      cases (m'.closeFrame caller callers).push limits v <;> rfl

/-- The guarded operations do not abort, and do what those of the machine do. -/
theorem guarded_simulation (p : Program) (limits : Limits) :
    Simulation p (Guarded.storage p limits) (storage p limits) (fun e f => e = some f)
      (fun m n => m = n ∧ Sound p limits m)
      (Transition.Related fun m n => m = n ∧ Sound p limits m) where
  fault _ _ := rfl
  goTo := fun hpc ⟨hmn, h⟩ => ⟨hmn ▸ rfl, h.goTo hpc⟩
  push := by
    rintro m _ v ⟨rfl, h⟩
    change Agree _ _ (Guarded.push limits v m) (m.push limits v)
    rw [h.guarded_push]
    exact .mapError fun _ hm => ⟨rfl, h.push hm⟩
  pop := by
    rintro m _ op ⟨rfl, h⟩
    change Agree _ _ (Guarded.pop op m) (m.pop op)
    rw [h.guarded_pop]
    exact .mapError fun _ hm => ⟨rfl, rfl, h.pop hm⟩
  load := by
    rintro m _ slot ⟨rfl, h⟩
    change Agree _ _ (Guarded.load slot m) (m.load slot)
    rw [h.guarded_load]
    exact .mapError fun _ _ => rfl
  store := by
    rintro m _ slot ⟨rfl, h⟩
    change Agree _ _ (Guarded.store slot m) (m.store slot)
    rw [h.guarded_store]
    exact .mapError fun _ hm => ⟨rfl, h.store hm⟩
  enter := by
    rintro m _ target argc locals ⟨rfl, h⟩
    change Agree _ _ (Guarded.enter p limits target argc locals m)
      (m.enter p limits target argc locals)
    rw [h.guarded_enter]
    exact .mapError fun _ hm => .called ⟨rfl, h.enter hm⟩
  leave := by
    rintro m _ ⟨rfl, h⟩
    change Agree _ _ (Guarded.leave limits m) (m.leave limits)
    rw [h.guarded_leave]
    exact .mapError fun _ hm => h.leave hm
  next h := .next h
  halted _ h := .halted h

theorem guarded_stepEvent (h : Sound p limits m) {i : Placed} (hi : p.fetch? m.pc = some i) :
    Guarded.stepEvent p i m = .ok (.step i.offset i.instruction m.depth) := by
  rw [Guarded.stepEvent]
  rw [show p.code[m.pc]? = some i from hi, h.guarded_depth]
  rfl

/-- A guarded run does not abort, and is what the run is. -/
theorem guarded_executeFrom {σ : Type} {observe : σ → Event → σ} (h : Sound p limits m)
    (fuel : Nat) (s : σ) :
    Guarded.executeFrom p limits observe fuel m s =
      some (executeFrom p limits observe fuel m s) := by
  induction fuel generalizing m s with
  | zero =>
    cases hi : p.fetch? m.pc <;> simp only [Guarded.executeFrom, executeFrom, hi]
  | succ fuel ih =>
    cases hi : p.fetch? m.pc with
    | none => simp only [Guarded.executeFrom, executeFrom, hi]
    | some i =>
      have hgo : Sound p limits { m with pc := m.pc + 1 } := h.goTo (Program.lt_of_fetch? hi)
      have hagree := (guarded_simulation p limits).step i.instruction ⟨rfl, hgo⟩
      rw [Guarded.executeFrom, executeFrom]
      simp only [hi, h.guarded_stepEvent hi, step]
      generalize (Guarded.storage p limits).step p i.instruction _ = x at hagree ⊢
      generalize (storage p limits).step p i.instruction _ = y at hagree ⊢
      cases hagree with
      | error he =>
        -- What ends the guarded run is a fault, and not an abort.
        cases he
        rfl
      | ok hτ =>
        cases hτ with
        | halted => rfl
        | next hm | called hm | returned hm =>
          obtain ⟨rfl, hm⟩ := hm
          exact ih hm _

end Sound

theorem guarded_execute (p : Program) (limits : Limits) {σ : Type} (observe : σ → Event → σ)
    (s : σ) : Guarded.execute p limits observe s = some (execute p limits observe s) := by
  rw [Guarded.execute, execute]
  rw [Sound.start.guarded_executeFrom]
  rcases executeFrom p limits observe limits.fuel .start s with ⟨_ | _, _, _⟩ <;> rfl

end Machine

/-! ## The windows of a run -/

namespace Tiled

variable {f : Frame} {fs : List Frame} {height slots : Nat}

theorem mem_stackBase_le (h : Tiled fs height slots) (hf : f ∈ fs) : f.stackBase ≤ height := by
  cases fs with
  | nil => cases hf
  | cons g fs => exact Nat.le_trans (h.bases_le hf).1 h.stackBase_le

/-- The bases of the operands are in order. -/
theorem pairwise_stackBase (h : Tiled fs height slots) :
    fs.Pairwise fun f g => g.stackBase ≤ f.stackBase := by
  induction h with
  | top => exact List.pairwise_singleton _ _
  | call _ hfs ih => exact .cons (fun _ hg => hfs.mem_stackBase_le hg) ih

/-- The slots of a call begin where those of its caller end. -/
theorem isChain_slots (h : Tiled fs height slots) :
    fs.IsChain fun f g => g.localsBase + g.localsLen = f.localsBase := by
  induction h with
  | top => exact .singleton _
  | @call f fs _ _ hfs ih =>
    cases fs with
    | nil => exact .singleton _
    | cons g fs => exact .cons_cons hfs.slots_eq ih

theorem getLast?_eq (h : Tiled fs height slots) : fs.getLast? = some (Frame.top topLocals) := by
  induction h with
  | top => rfl
  | @call f fs _ _ hfs ih =>
    cases fs with
    | nil => cases ih
    | cons g fs => rw [List.getLast?_cons_cons, ih]

end Tiled

namespace Machine

/-- What holds of a state that a run gets to after `n` instructions. The frames are those of all
    active calls, the innermost first and the top level last. -/
structure InBounds (p : Program) (limits : Limits) (n : Nat) (m : Machine) : Prop where
  steps_le : n ≤ limits.fuel
  depth_le : m.callers.depth ≤ limits.callDepth
  used_le : m.used ≤ limits.stackLimit
  stackBase_sorted : m.frames.Pairwise fun f g => g.stackBase ≤ f.stackBase
  stackBase_le : ∀ f ∈ m.frames, f.stackBase ≤ m.stack.size
  slots_start : m.frames.getLast? = some (Frame.top topLocals)
  slots_tiled : m.frames.IsChain fun f g => g.localsBase + g.localsLen = f.localsBase
  slots_end : m.frame.localsBase + m.frame.localsLen = m.locals.size
  pc_le : m.pc ≤ p.code.size
  return_le : ∀ f ∈ m.frames, f.returnIndex ≤ p.code.size

variable {p : Program} {limits : Limits} {m : Machine}

/-- All states of a run are within the limits and their windows are in order. So the machine does
    not abort, and it ends in one of them, after no more instructions than there is fuel. -/
theorem run_in_bounds (p : Program) (limits : Limits) :
    (∀ n m, Reached p limits n m → InBounds p limits n m) ∧
      ∀ (σ : Type) (observe : σ → Event → σ) (s : σ),
        Guarded.execute p limits observe s = some (execute p limits observe s) ∧
          (execute p limits observe s).steps ≤ limits.fuel ∧
          ∃ n m, Reached p limits n m ∧ Ends p limits n m (execute p limits observe s).steps
            (execute p limits observe s).result := by
  refine ⟨fun n m hm => ?_, fun σ observe s => ⟨guarded_execute p limits observe s,
    steps_le_fuel p limits observe s, execute_ends p limits observe s⟩⟩
  have hsound := hm.sound
  exact
    { steps_le := hm.le_fuel
      depth_le := hsound.depth_le
      used_le := hsound.used_le
      stackBase_sorted := hsound.tiled.pairwise_stackBase
      stackBase_le := fun _ hf => hsound.tiled.mem_stackBase_le hf
      slots_start := hsound.tiled.getLast?_eq
      slots_tiled := hsound.tiled.isChain_slots
      slots_end := hsound.locals_eq
      pc_le := hsound.pc_le
      return_le := hsound.return_le }

theorem run_in_bounds_addition :
    InBounds .addition {} 3 inAddition ∧
      Guarded.execute .addition {} Array.push #[] = some (events .addition {}) := by
  obtain ⟨hstates, hruns⟩ := run_in_bounds .addition {}
  exact ⟨hstates 3 inAddition reached_inAddition, (hruns _ Array.push #[]).1⟩

end Machine

end StackMachine
