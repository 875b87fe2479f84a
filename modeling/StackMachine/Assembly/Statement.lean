import StackMachine.Image.Builder
import StackMachine.Value.Text

/-!
# Assembly statements

A line of assembly text holds a label, a directive or an instruction, or a label and then
one of the others, or nothing. A comment goes from `;` to the end of the line.

```text
.const 2.5          ; a constant
.line 3             ; the source line of the next instruction
start: push.const 0
    jmp.false done
    call square 1 0
done:
    halt
```

* `splitLabel`: the label of a line and what follows it;
* `readStatement`: the build step of a directive or instruction;
* `AssemblyError.Reason`: what may be wrong with a line or a program.
-/

namespace StackMachine

open Text

/-- What may be wrong with an assembly text. -/
inductive AssemblyError.Reason
  | unknownMnemonic (name : String)
  | unknownDirective (name : String)
  | operandCount (name : String) (expected found : Nat)
  | invalidOperand (text : String)
  | invalidLiteral (text : String)
  | invalidLabel (name : String)
  | duplicateLabel (name : String)
  | undefinedLabel (name : String)
  /-- There is no instruction. -/
  | emptyProgram
  | build (reason : BuildError)
deriving DecidableEq, Inhabited

/-- What is wrong with an assembly text, and in which line, the first one being `1`. -/
structure AssemblyError where
  line : Nat
  reason : AssemblyError.Reason
deriving DecidableEq, Inhabited

namespace AssemblyError

/-- The text of a reason. -/
def Reason.message : Reason → String
  | unknownMnemonic name => "unknown mnemonic `" ++ name ++ "`"
  | unknownDirective name => "unknown directive `" ++ name ++ "`"
  | operandCount name expected found =>
    "`" ++ name ++ "` expects " ++ decimal expected ++ " operand(s), found " ++ decimal found
  | invalidOperand text => "invalid operand `" ++ text ++ "`"
  | invalidLiteral text => "invalid literal `" ++ text ++ "`"
  | invalidLabel name => "invalid label name `" ++ name ++ "`"
  | duplicateLabel name => "label `" ++ name ++ "` defined more than once"
  | undefinedLabel name => "undefined label `" ++ name ++ "`"
  | emptyProgram => "program has no instructions"
  | build reason => reason.message

/-- The text of an assembly error. -/
def message (e : AssemblyError) : String :=
  "line " ++ decimal e.line ++ ": " ++ e.reason.message

end AssemblyError

namespace Assembly

open AssemblyError (Reason)

/-- Whether `cs` can name a label: a letter or `_`, and then letters, digits, `_` and `.`, all
    of them in ASCII. -/
def isLabel : List Char → Bool
  | [] => false
  | c :: cs =>
    (c.isAlpha || c == '_') && cs.all fun c => c.isAlphanum || c == '_' || c == '.'

/-- A line without its comment and the blanks around. -/
def code (line : List Char) : List Char :=
  trim (cutAt ';' line).1

/-- The label of a line and what follows it. -/
def splitLabel (code : List Char) : Except Reason (Option String × List Char) :=
  match cutAt ':' code with
  | (_, none) => .ok (none, code)
  | (name, some rest) =>
    let name := trim name
    if isLabel name then .ok (some (String.ofList name), trim rest)
    else .error (.invalidLabel (String.ofList name))

/-- An operand, read by `reader?`. -/
def readOperand {α : Type} (reader? : List Char → Option α) (text : List Char) :
    Except Reason α :=
  match reader? text with
  | some a => .ok a
  | none => .error (.invalidOperand (String.ofList text))

/-- The step that emits an instruction which goes to a label. -/
def readReference (i : Instruction) (label : List Char) : Except Reason BuildStep :=
  if isLabel label then .ok (.emitTo i (String.ofList label))
  else .error (.invalidLabel (String.ofList label))

/-- The step of an instruction with the given operands, their number being right. -/
def readOperands (op : Opcode) (args : List (List Char)) : Except Reason BuildStep :=
  match op, args with
  | .pushInt, [n] => (readOperand signed? n).map fun n => .emit (.pushInt n)
  | .pushFloat, [x] => (readOperand Binary64.read? x).map fun x => .emit (.pushFloat x)
  | .pushConst, [n] =>
    (readOperand (unsigned? UInt32.size) n).map fun n => .emit (.pushConst (UInt32.ofNat n))
  | .load, [n] =>
    (readOperand (unsigned? UInt16.size) n).map fun n => .emit (.load (UInt16.ofNat n))
  | .store, [n] =>
    (readOperand (unsigned? UInt16.size) n).map fun n => .emit (.store (UInt16.ofNat n))
  | .jump, [label] => readReference (.jump 0) label
  | .jumpIfFalse, [label] => readReference (.jumpIfFalse 0) label
  | .jumpIfTrue, [label] => readReference (.jumpIfTrue 0) label
  | .call, [label, argc, locals] =>
    match readOperand (unsigned? UInt8.size) argc with
    | .error reason => .error reason
    | .ok argc =>
      match readOperand (unsigned? UInt16.size) locals with
      | .error reason => .error reason
      | .ok locals => readReference (.call 0 (UInt8.ofNat argc) (UInt16.ofNat locals)) label
  | op, args =>
    match op.simple? with
    | some i => .ok (.emit i)
    | none => .error (.operandCount op.mnemonic op.operandCount args.length)

/-- The step of an instruction. -/
def readInstruction (op : Opcode) (args : List (List Char)) : Except Reason BuildStep :=
  if args.length = op.operandCount then readOperands op args
  else .error (.operandCount op.mnemonic op.operandCount args.length)

/-- The constant of a directive. -/
def readLiteral (text : List Char) : Except Reason Value :=
  match Value.read? text with
  | some v => .ok v
  | none => .error (.invalidLiteral (String.ofList text))

/-- The step of a directive. -/
def readDirective (name : String) (args : List (List Char)) : Except Reason BuildStep :=
  if name = ".const" then
    match args with
    | [text] => (readLiteral text).map .constant
    | args => .error (.operandCount name 1 args.length)
  else if name = ".line" then
    match args with
    | [text] => (readOperand (unsigned? UInt32.size) text).map fun n => .line (UInt32.ofNat n)
    | args => .error (.operandCount name 1 args.length)
  else .error (.unknownDirective name)

/-- The step of a directive or instruction, whose words are `ws`; no words make no step. -/
def readStatement (ws : List (List Char)) : Except Reason (Option BuildStep) :=
  match ws with
  | [] => .ok none
  | head :: args =>
    let name := String.ofList head
    if head.head? = some '.' then (readDirective name args).map some
    else
      match Opcode.ofMnemonic? name with
      | none => .error (.unknownMnemonic name)
      | some op => (readInstruction op args).map some

end Assembly

end StackMachine
