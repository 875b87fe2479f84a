import StackMachine.Value

/-!
# Raw values

A value as it is handed to C: the number of its kind and two payload fields, of which at most one
is used. Truth values and error codes are in the integer field.

* `RawValue.ofValue`, `RawValue.toValue?`: a value as a raw value and back
  (`RawValue.toValue?_ofValue`).
-/

namespace StackMachine

/-- A tag and two payload fields. -/
structure RawValue where
  tag : UInt32 := 0
  int : Int64 := 0
  float : Binary64 := Binary64.zero false
deriving DecidableEq, Inhabited

namespace RawValue

/-- The raw value of a value. A field that is not used is zero. -/
def ofValue (v : Value) : RawValue :=
  let tag := v.tag.number.toUInt32
  match v with
  | .none => { tag }
  | .int n => { tag, int := n }
  | .float x => { tag, float := x }
  | .bool b => { tag, int := if b then 1 else 0 }
  | .error code => { tag, int := code }

/-- The kind of a raw value. Its tag is more than a byte wide. -/
def kind? (r : RawValue) : Option Tag :=
  if r.tag.toNat < 256 then Tag.ofNumber? r.tag.toUInt8 else none

/-- The value of a raw value; `none` if there is no kind with its tag. Every integer but zero is
    `true`. -/
def toValue? (r : RawValue) : Option Value :=
  r.kind?.map fun
    | .none => .none
    | .int => .int r.int
    | .float => .float r.float
    | .bool => .bool (r.int != 0)
    | .error => .error r.int

/-- A value is read back. -/
theorem toValue?_ofValue (v : Value) : (ofValue v).toValue? = some v := by
  cases v with
  | bool b => cases b <;> rfl
  | _ => rfl

end RawValue

end StackMachine
