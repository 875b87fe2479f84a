import StackMachine.Number.Arithmetic

/-!
# Values

What programs compute with. A value is one of five kinds, and its kind has a
number, the *tag*, that stands for it in program images and at the boundary to
C.

* `Tag.ofNumber?`: the kind with a given number, and `Tag.ofNumber?_number`;
* `Value.toInt?`, `toFloat?`, `toBool?`: the payload of a value of one kind;
* `Value.toNumber?`: the floating-point number of an integer or float;
* `Value.isError`, `isNaN`: the values that are errors, and the floats that are no numbers;
* `Value.same`: equality in which floats are compared as numbers;
* `Value.identical`: equality in which the bits of floats are compared. This is equality in the
  sense of `=` (`Value.identical_iff`).
-/

namespace StackMachine

/-- The kinds of values. -/
inductive Tag
  | none
  | int
  | float
  | bool
  | error
deriving DecidableEq, Inhabited

namespace Tag

/-- All kinds, in the order of their numbers. -/
def all : List Tag :=
  [none, int, float, bool, error]

/-- The number of a kind. -/
def number : Tag → UInt8
  | none => 0
  | int => 1
  | float => 2
  | bool => 3
  | error => 4

/-- The kind with a given number. -/
def ofNumber? : UInt8 → Option Tag
  | 0 => some none
  | 1 => some int
  | 2 => some float
  | 3 => some bool
  | 4 => some error
  | _ => Option.none

/-- The name of a kind. -/
def name : Tag → String
  | none => "none"
  | int => "int"
  | float => "float"
  | bool => "bool"
  | error => "error"

@[simp] theorem ofNumber?_number (t : Tag) : ofNumber? t.number = some t := by
  cases t <;> rfl

/-- Only the number of a kind is accepted. -/
theorem number_of_ofNumber? {b : UInt8} {t : Tag} (h : ofNumber? b = some t) : t.number = b := by
  unfold ofNumber? at h
  split at h <;> cases h <;> rfl

theorem ofNumber?_eq_none_iff {b : UInt8} :
    ofNumber? b = Option.none ↔ ∀ kind : Tag, kind.number ≠ b := by
  constructor
  · rintro h kind rfl
    rw [ofNumber?_number] at h
    cases h
  · intro h
    cases hb : ofNumber? b with
    | none => rfl
    | some kind => exact absurd (number_of_ofNumber? hb) (h kind)

end Tag

/-- A value: nothing, a 64-bit integer, a floating-point number, a truth value, or an error
    with a code. -/
inductive Value
  | none
  | int (n : Int64)
  | float (x : Binary64)
  | bool (b : Bool)
  | error (code : Int64)
deriving DecidableEq, Inhabited

namespace Value

/-- The kind of a value. -/
def tag : Value → Tag
  | none => .none
  | int _ => .int
  | float _ => .float
  | bool _ => .bool
  | error _ => .error

/-- The integer that a value of kind `int` is. -/
def toInt? : Value → Option Int64
  | int n => some n
  | _ => Option.none

/-- The number that a value of kind `float` is. -/
def toFloat? : Value → Option Binary64
  | float x => some x
  | _ => Option.none

/-- The truth value that a value of kind `bool` is. -/
def toBool? : Value → Option Bool
  | bool b => some b
  | _ => Option.none

/-- The number that a value of kind `int` or `float` is, an integer rounded to nearest. -/
def toNumber? : Value → Option Binary64
  | int n => some (Binary64.ofInt n.toInt)
  | float x => some x
  | _ => Option.none

/-- Whether a value is an error. -/
def isError : Value → Bool
  | error _ => true
  | _ => false

/-- Whether a value is a float that is no number. -/
def isNaN : Value → Bool
  | float x => x.isNaN
  | _ => false

/-- Whether two values have the same kind and the same payload, where floats are compared as
    numbers: a NaN is not the same as itself, and the two zeros are the same. -/
def same : Value → Value → Bool
  | float x, float y => x.same y
  | v, w => decide (v = w)

/-- Whether two values have the same kind and the same payload, where the bits of floats are
    compared: NaNs with the same bits are identical, and the two zeros are not. -/
def identical : Value → Value → Bool
  | float x, float y => x.bits == y.bits
  | v, w => v.same w

theorem identical_iff {v w : Value} : v.identical w = true ↔ v = w := by
  cases v <;> cases w <;> simp [identical, same, Binary64.bits_inj]

end Value

end StackMachine
