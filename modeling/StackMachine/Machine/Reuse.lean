import StackMachine.Machine.Run

/-!
# Machines that are used again

A machine serves one run after the other, and a run changes it in place. Wherever a run ends, it
leaves the machine as it is then: with the operands and the local slots of all calls that were
active, and after a fault in the middle of an instruction. The next run clears the machine first.

* `Machine.unused`: a machine that no run has used yet;
* `Machine.reset`: a machine that is cleared for a run;
* `Machine.InPlace.storage`: the operations of the machine, which keep the state in which a fault
  is raised;
* `Machine.executeAgain`: a run, and the machine after it.
-/

namespace StackMachine

namespace CallStack

/-- The call stack without the callers. -/
def clear (s : CallStack) : CallStack :=
  ⟨s.frames.shrink 0⟩

end CallStack

/-- A fault, and the state that the machine is left in. -/
structure Stop where
  fault : Fault
  machine : Machine

namespace Machine

/-- A machine that no run has used yet. -/
def unused : Machine where
  stack := #[]
  locals := #[]
  callers := {}
  frame := Frame.top 0
  pc := 0

/-- The machine cleared for a run, with the local slots of the top level. -/
def reset (m : Machine) : Machine where
  stack := m.stack.shrink 0
  locals := m.locals.shrink 0 ++ Array.replicate topLocals .none
  callers := m.callers.clear
  frame := Frame.top topLocals
  pc := 0

namespace InPlace

/-- One operand more, unless the limit is reached. -/
def push (limits : Limits) (v : Value) (m : Machine) : Except Stop Machine :=
  if limits.stackLimit ≤ m.used then .error ⟨.stackOverflow limits.stackLimit, m⟩
  else .ok { m with stack := m.stack.push v }

/-- The last operand of the active call, which is taken off. -/
def pop (op : Opcode) (m : Machine) : Except Stop (Value × Machine) :=
  if m.depth = 0 then .error ⟨.stackUnderflow op, m⟩
  else
    match m.stack.back? with
    | none => .error ⟨.stackUnderflow op, m⟩
    | some v => .ok (v, { m with stack := m.stack.pop })

/-- The value in a local slot of the active call. -/
def load (slot : UInt16) (m : Machine) : Except Stop Value :=
  (m.load slot).mapError (⟨·, m⟩)

/-- Move the last operand to a local slot of the active call. -/
def store (slot : UInt16) (m : Machine) : Except Stop Machine := do
  let index ← (m.localIndex slot).mapError (⟨·, m⟩)
  let (v, m) ← pop .store m
  return { m with locals := m.locals.setIfInBounds index v }

/-- A call. Nothing is changed before all checks have passed. -/
def enter (p : Program) (limits : Limits) (target : UInt32) (argc : UInt8) (locals : UInt16)
    (m : Machine) : Except Stop Machine :=
  if limits.callDepth ≤ m.callers.depth then .error ⟨.callDepthExceeded limits.callDepth, m⟩
  else if m.depth < argc.toNat then .error ⟨.stackUnderflow .call, m⟩
  else
    match p.indexOf? target.toNat with
    | none => .error ⟨.invalidJumpTarget target, m⟩
    | some entry =>
      let localsLen := max argc.toNat locals.toNat
      if limits.stackLimit < m.used + (localsLen - argc.toNat) then
        .error ⟨.stackOverflow limits.stackLimit, m⟩
      else .ok (m.openFrame entry argc.toNat localsLen)

/-- A return. At the top level it ends the run. -/
def leave (limits : Limits) (m : Machine) : Except Stop (Transition Machine) := do
  let (v, m) ← pop .ret m
  match m.callers.pop? with
  | none => return .halted v m
  | some (caller, callers) =>
    let m ← push limits v (m.closeFrame caller callers)
    return .returned v m

/-- The operations of the machine that executes `p` in place. -/
def storage (p : Program) (limits : Limits) : Storage Stop Machine where
  fault := Stop.mk
  pc := pc
  goTo pc m := { m with pc }
  push := push limits
  pop := pop
  load := load
  store := store
  enter := enter p limits
  leave := leave limits

variable {σ : Type}

/-- Execute in place from the state `m` on, with `fuel` instructions left after `steps`. The
    outcome comes with the state that is left. -/
def executeFrom (p : Program) (limits : Limits) (observe : σ → Event → σ) :
    (fuel steps : Nat) → Machine → σ → Outcome σ × Machine
  | fuel, steps, m, s =>
    match p.fetch? m.pc with
    | none => (⟨.error .incompleteProgram, steps, s⟩, m)
    | some i =>
      match fuel with
      | 0 => (⟨.error (.budgetExceeded limits.fuel), steps, s⟩, m)
      | fuel + 1 =>
        let s := observe s (.step i.offset i.instruction m.depth)
        match (storage p limits).step p i.instruction { m with pc := m.pc + 1 } with
        | .error stop => (⟨.error stop.fault, steps + 1, s⟩, stop.machine)
        | .ok (.next m) => executeFrom p limits observe fuel (steps + 1) m s
        | .ok (.called target m) =>
          let s := observe s (.call target m.callers.depth)
          executeFrom p limits observe fuel (steps + 1) m s
        | .ok (.returned v m) =>
          executeFrom p limits observe fuel (steps + 1) m (observe s (.ret v))
        | .ok (.halted v m) => (⟨.ok v, steps + 1, observe s (.halt v)⟩, m)

end InPlace

variable {σ : Type}

/-- A run of a program on the machine `m`, which is cleared first, and the machine after it. A fault
    is the last thing that is observed. -/
def executeAgain (p : Program) (limits : Limits) (observe : σ → Event → σ) (m : Machine) (s : σ) :
    Outcome σ × Machine :=
  match InPlace.executeFrom p limits observe limits.fuel 0 m.reset s with
  | (⟨.ok v, steps, s⟩, m) => (⟨.ok v, steps, s⟩, m)
  | (⟨.error fault, steps, s⟩, m) => (⟨.error fault, steps, observe s (.fault fault)⟩, m)

end Machine

end StackMachine
