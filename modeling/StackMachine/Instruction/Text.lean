import StackMachine.Instruction.Basic
import StackMachine.Value.Text

/-!
# Instructions as text

The text of an instruction is its mnemonic and then its operands, each after a
blank. A place in the code is written as a label made from its offset.

* `labelName`: the label of a place, `L0009`;
* `Instruction.display`.
-/

namespace StackMachine

/-- An offset with at least four digits. -/
def offsetDigits (offset : Nat) : String :=
  String.ofList (Text.padLeft 4 '0' (Text.digits offset))

/-- The label of the place at a given offset. -/
def labelName (offset : Nat) : String :=
  "L" ++ offsetDigits offset

namespace Instruction

/-- The texts of the operands. -/
def operandTexts : Instruction → List String
  | pushInt n => [Text.decimalInt n.toInt]
  | pushFloat x => [Value.displayFloat x]
  | pushConst index => [Text.decimal index.toNat]
  | load slot => [Text.decimal slot.toNat]
  | store slot => [Text.decimal slot.toNat]
  | jump target => [labelName target.toNat]
  | jumpIfFalse target => [labelName target.toNat]
  | jumpIfTrue target => [labelName target.toNat]
  | call target argc locals =>
    [labelName target.toNat, Text.decimal argc.toNat, Text.decimal locals.toNat]
  | _ => []

/-- The text of an instruction. -/
def display (i : Instruction) : String :=
  " ".intercalate (i.opcode.mnemonic :: i.operandTexts)

end Instruction

end StackMachine
