import StackMachine.Machine.Fault
import StackMachine.Machine.Limits

/-!
# The state of the machine

The operands of all active calls lie in one stack and their local slots in another one. A frame
says where the part of a call begins; the frames of the suspended callers are kept in the
call stack.

* `Machine.start`: the state before the first instruction;
* `Machine.depth`: the number of operands that the active call can reach;
* `Machine.used`: the number of values that count against the limit;
* `Machine.push`, `Machine.pop`: an operand more, an operand less.
-/

namespace StackMachine

/-- The part of the state that belongs to a call. -/
structure Frame where
  /-- The position of the instruction to resume at in the caller. -/
  returnIndex : Nat
  /-- The position of the first operand. -/
  stackBase : Nat
  /-- The position of the first local slot. -/
  localsBase : Nat
  /-- The number of local slots. -/
  localsLen : Nat
deriving DecidableEq, Inhabited

namespace Frame

/-- The frame that a program starts in. -/
def top (localsLen : Nat) : Frame :=
  ⟨0, 0, 0, localsLen⟩

end Frame

/-- The frames of the suspended callers, the innermost last. -/
structure CallStack where
  frames : Array Frame := #[]
deriving DecidableEq, Inhabited

namespace CallStack

/-- A caller more. -/
def push (s : CallStack) (f : Frame) : CallStack :=
  ⟨s.frames.push f⟩

/-- The innermost caller and the others; `none` if only the top level is active. -/
def pop? (s : CallStack) : Option (Frame × CallStack) :=
  match s.frames.back? with
  | none => none
  | some f => some (f, ⟨s.frames.pop⟩)

/-- The number of active calls. -/
def depth (s : CallStack) : Nat :=
  s.frames.size

/-- Whether only the top level is active. -/
def isEmpty (s : CallStack) : Bool :=
  s.frames.isEmpty

end CallStack

/-- The number of local slots of the top level. -/
def topLocals : Nat := 256

/-- The state of a run. -/
structure Machine where
  /-- The operands of all active calls. -/
  stack : Array Value
  /-- The local slots of all active calls. -/
  locals : Array Value
  callers : CallStack
  /-- The frame of the active call. -/
  frame : Frame
  /-- The position of the next instruction. -/
  pc : Nat
deriving DecidableEq, Inhabited

namespace Machine

/-- The state before the first instruction. -/
def start : Machine where
  stack := #[]
  locals := Array.replicate topLocals .none
  callers := {}
  frame := Frame.top topLocals
  pc := 0

/-- The number of operands of the active call. -/
def depth (m : Machine) : Nat :=
  m.stack.size - m.frame.stackBase

/-- The number of operands, and of local slots but those of the top level. -/
def used (m : Machine) : Nat :=
  m.stack.size + m.locals.size - topLocals

/-- The state with an operand more, unless the limit is reached. -/
def push (m : Machine) (limits : Limits) (v : Value) : Except Fault Machine :=
  if limits.stackLimit ≤ m.used then .error (.stackOverflow limits.stackLimit)
  else .ok { m with stack := m.stack.push v }

/-- The last operand of the active call and the state without it. -/
def pop (m : Machine) (op : Opcode) : Except Fault (Value × Machine) :=
  if m.depth = 0 then .error (.stackUnderflow op)
  else
    match m.stack.back? with
    | none => .error (.stackUnderflow op)
    | some v => .ok (v, { m with stack := m.stack.pop })

/-- The position of a local slot of the active call. -/
def localIndex (m : Machine) (slot : UInt16) : Except Fault Nat :=
  if slot.toNat < m.frame.localsLen then .ok (m.frame.localsBase + slot.toNat)
  else .error (.invalidLocal slot)

end Machine

end StackMachine
