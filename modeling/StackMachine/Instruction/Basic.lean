import StackMachine.Instruction.Opcode
import StackMachine.Number.Binary64

/-!
# Instructions

An opcode with its operands. The places that branches and calls go to are byte
offsets from the start of the code.

* `Instruction.opcode`, `Instruction.size`;
* `Instruction.target?`, `Instruction.withTarget`: the place that an instruction goes to,
  and the same instruction with another one;
* `Opcode.simple?`: the instruction of an opcode without operands.
-/

namespace StackMachine

/-- The instructions. A call moves `argc` arguments into the first of at least `locals` fresh
    local slots. -/
inductive Instruction
  | nop
  | pushInt (n : Int64)
  | pushFloat (x : Binary64)
  | pushTrue
  | pushFalse
  | pushNone
  | pushConst (index : UInt32)
  | pop
  | dup
  | swap
  | load (slot : UInt16)
  | store (slot : UInt16)
  | unary (op : UnaryOp)
  | binary (op : BinaryOp)
  | jump (target : UInt32)
  | jumpIfFalse (target : UInt32)
  | jumpIfTrue (target : UInt32)
  | call (target : UInt32) (argc : UInt8) (locals : UInt16)
  | ret
  | halt
deriving DecidableEq, Inhabited

namespace Instruction

/-- The opcode of an instruction. -/
def opcode : Instruction → Opcode
  | nop => .nop
  | pushInt _ => .pushInt
  | pushFloat _ => .pushFloat
  | pushTrue => .pushTrue
  | pushFalse => .pushFalse
  | pushNone => .pushNone
  | pushConst _ => .pushConst
  | pop => .pop
  | dup => .dup
  | swap => .swap
  | load _ => .load
  | store _ => .store
  | unary op => .unary op
  | binary op => .binary op
  | jump _ => .jump
  | jumpIfFalse _ => .jumpIfFalse
  | jumpIfTrue _ => .jumpIfTrue
  | call .. => .call
  | ret => .ret
  | halt => .halt

/-- The number of bytes of an instruction. -/
def size (i : Instruction) : Nat :=
  i.opcode.size

/-- The place that a branch or call goes to. -/
def target? : Instruction → Option UInt32
  | jump target => some target
  | jumpIfFalse target => some target
  | jumpIfTrue target => some target
  | call target _ _ => some target
  | _ => none

/-- The same instruction, going to another place if it goes anywhere. -/
def withTarget (target : UInt32) : Instruction → Instruction
  | jump _ => jump target
  | jumpIfFalse _ => jumpIfFalse target
  | jumpIfTrue _ => jumpIfTrue target
  | call _ argc locals => call target argc locals
  | i => i

theorem size_pos (i : Instruction) : 0 < i.size := by
  unfold size Opcode.size
  omega

/-- Another target leaves the opcode alone, and with it the size. -/
@[simp] theorem opcode_withTarget (target : UInt32) (i : Instruction) :
    (i.withTarget target).opcode = i.opcode := by
  cases i <;> rfl

@[simp] theorem size_withTarget (target : UInt32) (i : Instruction) :
    (i.withTarget target).size = i.size := by
  unfold size
  rw [opcode_withTarget]

/-- Only the last target counts. -/
@[simp] theorem withTarget_withTarget (target target' : UInt32) (i : Instruction) :
    (i.withTarget target).withTarget target' = i.withTarget target' := by
  cases i <;> rfl

end Instruction

/-- The instruction of an opcode without operands. -/
def Opcode.simple? : Opcode → Option Instruction
  | .nop => some .nop
  | .pushTrue => some .pushTrue
  | .pushFalse => some .pushFalse
  | .pushNone => some .pushNone
  | .pop => some .pop
  | .dup => some .dup
  | .swap => some .swap
  | .unary op => some (.unary op)
  | .binary op => some (.binary op)
  | .ret => some .ret
  | .halt => some .halt
  | _ => none

end StackMachine
