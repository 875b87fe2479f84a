/-!
# Opcodes

What an instruction does, its operands aside. Every opcode has a byte, which
starts the encoding of its instructions, and a mnemonic, which starts their
text.

* `Opcode.ofByte?_byte`, `Opcode.ofMnemonic?_mnemonic`: byte and mnemonic tell
  the opcodes apart;
* `Opcode.operandSize`: the number of bytes after the opcode's.
-/

namespace StackMachine

/-- The operations that replace one value by another. -/
inductive UnaryOp
  | neg
  | not
  | toInt
  | toFloat
deriving DecidableEq, Inhabited

/-- The arithmetic operations on two numbers. -/
inductive ArithmeticOp
  | add
  | sub
  | mul
  | div
  | rem
deriving DecidableEq, Inhabited

/-- The comparisons by order. -/
inductive OrderOp
  | lt
  | le
  | gt
  | ge
deriving DecidableEq, Inhabited

/-- The operations that replace two values by one. -/
inductive BinaryOp
  | arithmetic (op : ArithmeticOp)
  | eq
  | ne
  | order (op : OrderOp)
  | and
  | or
deriving DecidableEq, Inhabited

/-- The opcodes. -/
inductive Opcode
  | nop
  | pushInt
  | pushFloat
  | pushTrue
  | pushFalse
  | pushNone
  | pushConst
  | pop
  | dup
  | swap
  | load
  | store
  | unary (op : UnaryOp)
  | binary (op : BinaryOp)
  | jump
  | jumpIfFalse
  | jumpIfTrue
  | call
  | ret
  | halt
deriving DecidableEq, Inhabited

namespace Opcode

abbrev add : Opcode := binary (.arithmetic .add)
abbrev sub : Opcode := binary (.arithmetic .sub)
abbrev mul : Opcode := binary (.arithmetic .mul)
abbrev div : Opcode := binary (.arithmetic .div)
abbrev rem : Opcode := binary (.arithmetic .rem)
abbrev neg : Opcode := unary .neg
abbrev eq : Opcode := binary .eq
abbrev ne : Opcode := binary .ne
abbrev lt : Opcode := binary (.order .lt)
abbrev le : Opcode := binary (.order .le)
abbrev gt : Opcode := binary (.order .gt)
abbrev ge : Opcode := binary (.order .ge)
abbrev and : Opcode := binary .and
abbrev or : Opcode := binary .or
abbrev not : Opcode := unary .not
abbrev toInt : Opcode := unary .toInt
abbrev toFloat : Opcode := unary .toFloat

/-- All opcodes, in the order of their bytes. -/
def all : List Opcode :=
  [nop, pushInt, pushFloat, pushTrue, pushFalse, pushNone, pushConst, pop, dup, swap,
   load, store, add, sub, mul, div, rem, neg, eq, ne, lt, le, gt, ge, and, or, not,
   toInt, toFloat, jump, jumpIfFalse, jumpIfTrue, call, ret, halt]

/-- The byte of an opcode. -/
def byte : Opcode → UInt8
  | nop => 0x00
  | pushInt => 0x01
  | pushFloat => 0x02
  | pushTrue => 0x03
  | pushFalse => 0x04
  | pushNone => 0x05
  | pushConst => 0x06
  | pop => 0x07
  | dup => 0x08
  | swap => 0x09
  | load => 0x10
  | store => 0x11
  | binary (.arithmetic .add) => 0x20
  | binary (.arithmetic .sub) => 0x21
  | binary (.arithmetic .mul) => 0x22
  | binary (.arithmetic .div) => 0x23
  | binary (.arithmetic .rem) => 0x24
  | unary .neg => 0x25
  | binary .eq => 0x30
  | binary .ne => 0x31
  | binary (.order .lt) => 0x32
  | binary (.order .le) => 0x33
  | binary (.order .gt) => 0x34
  | binary (.order .ge) => 0x35
  | binary .and => 0x38
  | binary .or => 0x39
  | unary .not => 0x3A
  | unary .toInt => 0x3C
  | unary .toFloat => 0x3D
  | jump => 0x40
  | jumpIfFalse => 0x41
  | jumpIfTrue => 0x42
  | call => 0x48
  | ret => 0x49
  | halt => 0x4F

/-- The mnemonic of an opcode. -/
def mnemonic : Opcode → String
  | nop => "nop"
  | pushInt => "push.i"
  | pushFloat => "push.f"
  | pushTrue => "push.true"
  | pushFalse => "push.false"
  | pushNone => "push.none"
  | pushConst => "push.const"
  | pop => "pop"
  | dup => "dup"
  | swap => "swap"
  | load => "load"
  | store => "store"
  | binary (.arithmetic .add) => "add"
  | binary (.arithmetic .sub) => "sub"
  | binary (.arithmetic .mul) => "mul"
  | binary (.arithmetic .div) => "div"
  | binary (.arithmetic .rem) => "rem"
  | unary .neg => "neg"
  | binary .eq => "eq"
  | binary .ne => "ne"
  | binary (.order .lt) => "lt"
  | binary (.order .le) => "le"
  | binary (.order .gt) => "gt"
  | binary (.order .ge) => "ge"
  | binary .and => "and"
  | binary .or => "or"
  | unary .not => "not"
  | unary .toInt => "to.int"
  | unary .toFloat => "to.float"
  | jump => "jmp"
  | jumpIfFalse => "jmp.false"
  | jumpIfTrue => "jmp.true"
  | call => "call"
  | ret => "ret"
  | halt => "halt"

/-- The opcode with a given byte. -/
def ofByte? (b : UInt8) : Option Opcode :=
  all.find? fun op => op.byte == b

/-- The opcode with a given mnemonic. -/
def ofMnemonic? (name : String) : Option Opcode :=
  all.find? fun op => op.mnemonic == name

/-- The number of bytes of the operands. -/
def operandSize : Opcode → Nat
  | pushInt | pushFloat => 8
  | pushConst | jump | jumpIfFalse | jumpIfTrue => 4
  | load | store => 2
  | call => 7
  | _ => 0

/-- The number of bytes of an instruction. -/
def size (op : Opcode) : Nat :=
  1 + op.operandSize

/-- The number of words that the operands take in the text of an instruction. -/
def operandCount : Opcode → Nat
  | call => 3
  | op => if 0 < op.operandSize then 1 else 0

/-- Whether an instruction has a place in the code as its first operand. -/
def isBranch : Opcode → Bool
  | jump | jumpIfFalse | jumpIfTrue | call => true
  | _ => false

/-- Every opcode is listed. -/
theorem mem_all (op : Opcode) : op ∈ all := by
  cases op with
  | unary op => cases op <;> decide
  | binary op =>
    cases op with
    | arithmetic op => cases op <;> decide
    | order op => cases op <;> decide
    | _ => decide
  | _ => decide

/-- The byte tells the opcodes apart. -/
@[simp] theorem ofByte?_byte (op : Opcode) : ofByte? op.byte = some op := by
  have h : ∀ op ∈ all, ofByte? op.byte = some op := by decide
  exact h op op.mem_all

/-- Only the byte of an opcode is accepted. -/
theorem byte_of_ofByte? {b : UInt8} {op : Opcode} (h : ofByte? b = some op) : op.byte = b := by
  have := List.find?_some h
  simpa using this

/-- The mnemonic tells the opcodes apart. -/
@[simp] theorem ofMnemonic?_mnemonic (op : Opcode) : ofMnemonic? op.mnemonic = some op := by
  have h : ∀ op ∈ all, ofMnemonic? op.mnemonic = some op := by decide
  exact h op op.mem_all

end Opcode

end StackMachine
