import StackMachine.Machine.Fault

/-!
# Operations on values

What the unary and binary instructions compute. Two integers are combined as integers, modulo
`2 ^ 64`; an integer and a float are combined as floats; all other combinations are faults,
except in `eq` and `ne`, which compare values of any kinds.

* `UnaryOp.apply`, `BinaryOp.apply`;
* `equal`: the equality of `eq` and `ne`.
-/

namespace StackMachine

namespace ArithmeticOp

/-- The operation on integers. The quotient is truncated, and the remainder has the sign of the
    dividend. -/
def onInts (op : ArithmeticOp) (a b : Int64) : Except Fault Int64 :=
  match op with
  | add => .ok (a + b)
  | sub => .ok (a - b)
  | mul => .ok (a * b)
  | div => if b = 0 then .error (.divisionByZero .div) else .ok (a / b)
  | rem => if b = 0 then .error (.divisionByZero .rem) else .ok (a % b)

/-- The operation on floats. -/
def onFloats (op : ArithmeticOp) (x y : Binary64) : Binary64 :=
  match op with
  | add => x.add y
  | sub => x.sub y
  | mul => x.mul y
  | div => x.div y
  | rem => x.rem y

/-- The operation on two values. -/
def apply (op : ArithmeticOp) (v w : Value) : Except Fault Value :=
  match v, w with
  | .int a, .int b => (op.onInts a b).map .int
  | v, w =>
    match v.toNumber?, w.toNumber? with
    | some x, some y => .ok (.float (op.onFloats x y))
    | _, _ => .error (.typeMismatch (.binary (.arithmetic op)) v.tag (some w.tag))

end ArithmeticOp

namespace OrderOp

/-- The comparison of integers. -/
def onInts (op : OrderOp) (a b : Int64) : Bool :=
  match op with
  | lt => a < b
  | le => a ≤ b
  | gt => b < a
  | ge => b ≤ a

/-- The comparison of floats; every one fails for a NaN. -/
def onFloats (op : OrderOp) (x y : Binary64) : Bool :=
  match op with
  | lt => x.lt y
  | le => x.le y
  | gt => y.lt x
  | ge => y.le x

/-- The comparison of two values. -/
def apply (op : OrderOp) (v w : Value) : Except Fault Value :=
  match v, w with
  | .int a, .int b => .ok (.bool (op.onInts a b))
  | v, w =>
    match v.toNumber?, w.toNumber? with
    | some x, some y => .ok (.bool (op.onFloats x y))
    | _, _ => .error (.typeMismatch (.binary (.order op)) v.tag (some w.tag))

end OrderOp

/-- Whether two values are equal: numbers by what they denote, an integer next to a float
    rounded to a float, and all other values by kind and payload. -/
def equal (v w : Value) : Bool :=
  match v, w with
  | .int a, .int b => a == b
  | v, w =>
    match v.toNumber?, w.toNumber? with
    | some x, some y => x.same y
    | _, _ => v.same w

namespace BinaryOp

/-- The operation on two truth values, the opcode being `op`. -/
def onBools (op : BinaryOp) (f : Bool → Bool → Bool) (v w : Value) : Except Fault Value :=
  match v, w with
  | .bool a, .bool b => .ok (.bool (f a b))
  | v, w => .error (.typeMismatch (.binary op) v.tag (some w.tag))

/-- The operation on two values, of which the second was pushed last. -/
def apply (op : BinaryOp) (v w : Value) : Except Fault Value :=
  match op with
  | arithmetic op => op.apply v w
  | eq => .ok (.bool (equal v w))
  | ne => .ok (.bool (!equal v w))
  | order op => op.apply v w
  | and => onBools and (· && ·) v w
  | or => onBools or (· || ·) v w

end BinaryOp

namespace UnaryOp

/-- The operation on a value. -/
def apply (op : UnaryOp) (v : Value) : Except Fault Value :=
  match op, v with
  | neg, .int n => .ok (.int (-n))
  | neg, .float x => .ok (.float x.negate)
  | not, .bool b => .ok (.bool !b)
  | toInt, .int n => .ok (.int n)
  | toInt, .float x => .ok (.int x.toInt64)
  | toFloat, .int n => .ok (.float (Binary64.ofInt n.toInt))
  | toFloat, .float x => .ok (.float x)
  | op, v => .error (.typeMismatch (.unary op) v.tag none)

end UnaryOp

end StackMachine
