import StackMachine.Machine.State
import StackMachine.Machine.Storage

/-!
# Steps of the machine

The storage of the machine: all active calls share one stack of operands and one of local slots.

* `Machine.enter`: a call;
* `Machine.leave`: a return to a caller;
* `Machine.storage`, `Machine.step`: an instruction.
-/

namespace StackMachine

namespace Machine

/-- The value in a local slot of the active call. -/
def load (m : Machine) (slot : UInt16) : Except Fault Value := do
  let index ← m.localIndex slot
  return m.locals.getD index .none

/-- The state in which the last operand has moved to a local slot of the active call. -/
def store (m : Machine) (slot : UInt16) : Except Fault Machine := do
  let index ← m.localIndex slot
  let (v, m) ← m.pop .store
  return { m with locals := m.locals.setIfInBounds index v }

/-- The state in a callee whose first instruction has the position `entry`. The last `argc`
    operands become its first local slots, in the order in which they were pushed. -/
def openFrame (m : Machine) (entry argc localsLen : Nat) : Machine :=
  let base := m.stack.size - argc
  let args := m.stack.extract base m.stack.size
  { stack := m.stack.shrink base
    locals := m.locals ++ args ++ Array.replicate (localsLen - argc) .none
    callers := m.callers.push m.frame
    frame :=
      { returnIndex := m.pc
        stackBase := base
        localsBase := m.locals.size
        localsLen }
    pc := entry }

/-- A call. Its checks have an order: the number of active calls, the number of operands, the
    place called, and the room for the local slots that no argument fills. -/
def enter (m : Machine) (p : Program) (limits : Limits) (target : UInt32) (argc : UInt8)
    (locals : UInt16) : Except Fault Machine :=
  if limits.callDepth ≤ m.callers.depth then .error (.callDepthExceeded limits.callDepth)
  else if m.depth < argc.toNat then .error (.stackUnderflow .call)
  else
    match p.indexOf? target.toNat with
    | none => .error (.invalidJumpTarget target)
    | some entry =>
      let localsLen := max argc.toNat locals.toNat
      if limits.stackLimit < m.used + (localsLen - argc.toNat) then
        .error (.stackOverflow limits.stackLimit)
      else .ok (m.openFrame entry argc.toNat localsLen)

/-- The state in a caller, where the operands and the local slots of the active call are gone. -/
def closeFrame (m : Machine) (caller : Frame) (callers : CallStack) : Machine :=
  { stack := m.stack.shrink m.frame.stackBase
    locals := m.locals.shrink m.frame.localsBase
    callers
    frame := caller
    pc := m.frame.returnIndex }

/-- A return. At the top level it ends the run. -/
def leave (m : Machine) (limits : Limits) : Except Fault (Transition Machine) := do
  let (v, m) ← m.pop .ret
  match m.callers.pop? with
  | none => return .halted v m
  | some (caller, callers) =>
    let m ← (m.closeFrame caller callers).push limits v
    return .returned v m

/-- The operations of the machine that executes `p`. -/
def storage (p : Program) (limits : Limits) : Storage Fault Machine where
  fault f _ := f
  pc := pc
  goTo pc m := { m with pc }
  push v m := m.push limits v
  pop op m := m.pop op
  load slot m := m.load slot
  store slot m := m.store slot
  enter target argc locals m := m.enter p limits target argc locals
  leave m := m.leave limits

/-- What an instruction does. -/
def step (p : Program) (limits : Limits) (i : Instruction) (m : Machine) :
    Except Fault (Transition Machine) :=
  (storage p limits).step p i m

end Machine

end StackMachine
