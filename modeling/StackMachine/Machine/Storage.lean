import StackMachine.Image.Program
import StackMachine.Machine.Operation

/-!
# Instructions over a storage

What an instruction does is said here once, over any way to keep the operands, the local
slots and the active calls. Such a way is a *storage*. The program counter is past the
instruction already when it is executed.

* `Storage`: the operations that instructions are made of;
* `Storage.step`: an instruction.
-/

namespace StackMachine

/-- The result of an instruction that raises no fault, the states of the machine being `S`. -/
inductive Transition (S : Type)
  /-- The run goes on. -/
  | next (s : S)
  /-- The run goes on in a callee, which starts at `target`. -/
  | called (target : UInt32) (s : S)
  /-- The run goes on in the caller, which received `value`. -/
  | returned (value : Value) (s : S)
  /-- The run is over, and `s` is left. -/
  | halted (value : Value) (s : S)
deriving DecidableEq

/-- The operations of a machine with the states `S`. An operation that cannot be executed ends the
    run with an `ε`. -/
structure Storage (ε S : Type) where
  /-- What a fault ends the run with, if it is raised in a given state. -/
  fault : Fault → S → ε
  /-- The position of the next instruction. -/
  pc : S → Nat
  /-- The state with another next instruction. -/
  goTo : Nat → S → S
  /-- The state with an operand more. -/
  push : Value → S → Except ε S
  /-- The last operand of the active call and the state without it. -/
  pop : Opcode → S → Except ε (Value × S)
  /-- The value in a local slot of the active call. -/
  load : UInt16 → S → Except ε Value
  /-- The state in which the last operand has moved to a local slot of the active call. -/
  store : UInt16 → S → Except ε S
  /-- A call. -/
  enter : (target : UInt32) → (argc : UInt8) → (locals : UInt16) → S → Except ε S
  /-- A return. At the top level it ends the run. -/
  leave : S → Except ε (Transition S)

namespace Storage

variable {ε S : Type} (A : Storage ε S)

/-- The result of an operation on values in the state `s`. -/
def compute {α : Type} (r : Except Fault α) (s : S) : Except ε α :=
  r.mapError (A.fault · s)

/-- The state in which the instruction at the offset `target` is the next one. -/
def jump (p : Program) (target : UInt32) (s : S) : Except ε S :=
  match p.indexOf? target.toNat with
  | none => .error (A.fault (.invalidJumpTarget target) s)
  | some pc => .ok (A.goTo pc s)

/-- A jump that is taken if the last operand is `taken`. -/
def branch (p : Program) (op : Opcode) (taken : Bool) (target : UInt32) (s : S) :
    Except ε S := do
  let (v, s) ← A.pop op s
  match v with
  | .bool b => if b = taken then A.jump p target s else return s
  | v => throw (A.fault (.typeMismatch op v.tag none) s)

/-- What an instruction does. -/
def step (p : Program) (i : Instruction) (s : S) : Except ε (Transition S) :=
  match i with
  | .nop => return .next s
  | .pushInt n => return .next (← A.push (.int n) s)
  | .pushFloat x => return .next (← A.push (.float x) s)
  | .pushTrue => return .next (← A.push (.bool true) s)
  | .pushFalse => return .next (← A.push (.bool false) s)
  | .pushNone => return .next (← A.push .none s)
  | .pushConst index =>
    match p.constant? index.toNat with
    | none => throw (A.fault (.invalidConstant index) s)
    | some v => return .next (← A.push v s)
  | .pop => do
    let (_, s) ← A.pop .pop s
    return .next s
  | .dup => do
    let (v, s) ← A.pop .dup s
    let s ← A.push v s
    return .next (← A.push v s)
  | .swap => do
    let (w, s) ← A.pop .swap s
    let (v, s) ← A.pop .swap s
    let s ← A.push w s
    return .next (← A.push v s)
  | .load slot => do
    let v ← A.load slot s
    return .next (← A.push v s)
  | .store slot => return .next (← A.store slot s)
  | .unary op => do
    let (v, s) ← A.pop (.unary op) s
    let result ← A.compute (op.apply v) s
    return .next (← A.push result s)
  | .binary op => do
    let (w, s) ← A.pop (.binary op) s
    let (v, s) ← A.pop (.binary op) s
    let result ← A.compute (op.apply v w) s
    return .next (← A.push result s)
  | .jump target => return .next (← A.jump p target s)
  | .jumpIfFalse target => return .next (← A.branch p .jumpIfFalse false target s)
  | .jumpIfTrue target => return .next (← A.branch p .jumpIfTrue true target s)
  | .call target argc locals => return .called target (← A.enter target argc locals s)
  | .ret => A.leave s
  | .halt => do
    let (v, s) ← A.pop .halt s
    return .halted v s

end Storage

end StackMachine
