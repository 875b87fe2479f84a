/-!
# Binary floating-point numbers of 64 bits

A `Binary64` is a bit pattern: a sign bit, eleven bits of exponent, 52 bits of
fraction. Two numbers are the same if their patterns are; comparing what they
denote is another matter (`lt`, `le`, `same`).

* `isNaN`, `isInfinite`, `isNegative`, `magnitude`: the parts of a pattern;
* `significand`, `exponent`: a finite number is, up to its sign, its significand
  times two to the power of its exponent;
* `key`: numbers that are not NaN are ordered as their keys (`lt`, `le`, `same`);
* `nearest`: the number nearest to a quotient of natural numbers, of two equally
  near ones the one with an even significand.
-/

namespace StackMachine

/-- A binary floating-point number of 64 bits, given by its bit pattern. -/
structure Binary64 where
  bits : UInt64
deriving DecidableEq, Inhabited

namespace Binary64

theorem bits_inj {x y : Binary64} : x.bits = y.bits ↔ x = y :=
  ⟨congrArg mk, congrArg bits⟩

/-- The sign bit: `2 ^ 63`. -/
def signBit : Nat := 0x8000000000000000

/-- The leading bit of a significand, which the pattern leaves out: `2 ^ 52`. -/
def leadingBit : Nat := 0x10000000000000

/-- The pattern of infinity, sign bit aside. Larger magnitudes are NaNs. -/
def infinityMagnitude : Nat := 0x7FF0000000000000

/-- Whether the sign bit is set. -/
def isNegative (x : Binary64) : Bool :=
  signBit ≤ x.bits.toNat

/-- The pattern without its sign bit. -/
def magnitude (x : Binary64) : Nat :=
  x.bits.toNat % signBit

/-- The number with the given sign bit and the given pattern after it. -/
def ofMagnitude (negative : Bool) (magnitude : Nat) : Binary64 :=
  ⟨UInt64.ofNat (if negative then signBit + magnitude else magnitude)⟩

/-- Zero, with a sign. -/
def zero (negative : Bool) : Binary64 :=
  ofMagnitude negative 0

/-- Infinity, with a sign. -/
def infinity (negative : Bool) : Binary64 :=
  ofMagnitude negative infinityMagnitude

/-- The quiet NaN without payload, with a sign. -/
def nan (negative : Bool) : Binary64 :=
  ofMagnitude negative 0x7FF8000000000000

def isNaN (x : Binary64) : Bool :=
  infinityMagnitude < x.magnitude

def isInfinite (x : Binary64) : Bool :=
  x.magnitude == infinityMagnitude

def isZero (x : Binary64) : Bool :=
  x.magnitude == 0

/-- The significand of a finite number; below the leading bit only for the numbers of
    least exponent. -/
def significand (x : Binary64) : Nat :=
  if x.magnitude < leadingBit then x.magnitude else leadingBit + x.magnitude % leadingBit

/-- The exponent of the last bit of the significand of a finite number. -/
def exponent (x : Binary64) : Int :=
  if x.magnitude < leadingBit then -1074 else (x.magnitude / leadingBit : Nat) - 1075

/-- The same number with the other sign. -/
def negate (x : Binary64) : Binary64 :=
  ofMagnitude (!x.isNegative) x.magnitude

/-! ### Comparison -/

/-- The place of a number in the order of all that are not NaN. Both zeros have
    the place `0`. -/
def key (x : Binary64) : Int :=
  if x.isNegative then -(x.magnitude : Int) else x.magnitude

/-- Whether `x` and `y` denote the same number. A NaN denotes none. -/
def same (x y : Binary64) : Bool :=
  !x.isNaN && !y.isNaN && x.key == y.key

/-- Whether `x` denotes a smaller number than `y`. -/
def lt (x y : Binary64) : Bool :=
  !x.isNaN && !y.isNaN && decide (x.key < y.key)

/-- Whether `x` denotes a number that is not larger than the one of `y`. -/
def le (x y : Binary64) : Bool :=
  !x.isNaN && !y.isNaN && decide (x.key ≤ y.key)

/-! ### Rounding -/

/-- The natural number nearest to `num / den`; of two, the even one. -/
def roundHalfEven (num den : Nat) : Nat :=
  let q := num / den
  let r := num % den
  if 2 * r < den then q
  else if den < 2 * r then q + 1
  else if q % 2 = 0 then q
  else q + 1

/-- Numerator and denominator of `num / den / 2 ^ e`. -/
def descale (num den : Nat) (e : Int) : Nat × Nat :=
  (num <<< (-e).toNat, den <<< e.toNat)

/-- The exponent of the last bit in the number nearest to `num / den`: the one that
    leaves 53 bits before the point, but not less than `-1074`. The difference
    of the two logarithms is that exponent or one more. -/
def unitExponent (num den : Nat) : Int :=
  let e := max (-1074) ((num.log2 : Int) - den.log2 - 52)
  let (n, d) := descale num den e
  if n < leadingBit * d then max (-1074) (e - 1) else e

/-- The number nearest to `num / den`, with the given sign; infinity from half a unit
    above the largest number on. A significand that is rounded up to `2 ^ 53`
    carries into the exponent. -/
def nearest (negative : Bool) (num den : Nat) : Binary64 :=
  if num = 0 then zero negative
  else
    let e := unitExponent num den
    let (n, d) := descale num den e
    ofMagnitude negative
      (min infinityMagnitude ((e + 1074).toNat * leadingBit + roundHalfEven n d))

/-- The number nearest to `num / den * 2 ^ e`. -/
def nearestScaled (negative : Bool) (num den : Nat) (e : Int) : Binary64 :=
  nearest negative (num <<< e.toNat) (den <<< (-e).toNat)

/-- The number nearest to an integer. -/
def ofInt (i : Int) : Binary64 :=
  nearest (i < 0) i.natAbs 1

end Binary64

end StackMachine
