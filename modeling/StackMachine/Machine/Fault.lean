import StackMachine.Instruction.Opcode
import StackMachine.Text.Numeral
import StackMachine.Value

/-!
# Faults

What ends a run without a value. Every fault has a code, which stands for it in values, and a
text.
-/

namespace StackMachine

/-- The faults of a run. -/
inductive Fault
  /-- An instruction does not take operands of these kinds. There is no second kind for an
      instruction with one operand. -/
  | typeMismatch (op : Opcode) (lhs : Tag) (rhs : Option Tag)
  | stackUnderflow (op : Opcode)
  | stackOverflow (limit : Nat)
  /-- No instruction starts at the offset that a branch or call goes to. -/
  | invalidJumpTarget (target : UInt32)
  | budgetExceeded (fuel : Nat)
  /-- The run went past the last instruction. -/
  | incompleteProgram
  | divisionByZero (op : Opcode)
  | callDepthExceeded (limit : Nat)
  | invalidConstant (index : UInt32)
  | invalidLocal (slot : UInt16)
deriving DecidableEq, Inhabited

namespace Fault

/-- The code that stands for a fault in values. -/
def code : Fault → Int64
  | typeMismatch .. => 100
  | stackUnderflow _ => 101
  | stackOverflow _ => 102
  | invalidJumpTarget _ => 103
  | budgetExceeded _ => 104
  | incompleteProgram => 105
  | divisionByZero _ => 106
  | callDepthExceeded _ => 107
  | invalidConstant _ => 108
  | invalidLocal _ => 109

/-- The kinds of the operands that do not fit. -/
def operandKinds (lhs : Tag) : Option Tag → String
  | some rhs => lhs.name ++ " and " ++ rhs.name
  | none => lhs.name

open Text in
/-- The text of a fault. -/
def message : Fault → String
  | typeMismatch op lhs rhs =>
    "type mismatch: `" ++ op.mnemonic ++ "` cannot take " ++ operandKinds lhs rhs
  | stackUnderflow op => "stack underflow in `" ++ op.mnemonic ++ "`"
  | stackOverflow limit => "stack overflow: more than " ++ decimal limit ++ " values"
  | invalidJumpTarget target => "invalid jump target " ++ decimal target.toNat
  | budgetExceeded fuel => "execution budget of " ++ decimal fuel ++ " instructions exceeded"
  | incompleteProgram => "program ended without halting"
  | divisionByZero op => "integer division by zero in `" ++ op.mnemonic ++ "`"
  | callDepthExceeded limit => "call depth limit of " ++ decimal limit ++ " exceeded"
  | invalidConstant index => "constant index " ++ decimal index.toNat ++ " out of range"
  | invalidLocal slot => "local slot " ++ decimal slot.toNat ++ " out of range"

end Fault

end StackMachine
