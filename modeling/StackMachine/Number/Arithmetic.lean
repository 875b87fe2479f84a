import StackMachine.Number.Binary64

/-!
# Arithmetic of binary floating-point numbers

Each operation is the exact result on the numbers denoted, rounded once
(`Binary64.nearest`); infinities and NaNs follow the rules of the standard, but
for the bits of a NaN that an operation results in. The standard leaves these
open, and they are a choice that is made here (`resultNaN`). Remainder is the one
of truncated division, which needs no rounding.

* `resultNaN`: the NaN that all operations result in;
* `add`, `sub`, `mul`, `div`, `rem`;
* `toInt64`: the integer part, confined to 64 bits.
-/

namespace StackMachine

namespace Binary64

/-- The NaN that operations result in. Its sign and payload are a choice: here they are always those
    of the positive quiet NaN without payload, but another machine may have those of an operand, or
    the other sign. -/
def resultNaN : Binary64 :=
  nan false

/-- A finite number in units of `2 ^ e`, for an `e` not above its exponent. -/
def inUnits (x : Binary64) (e : Int) : Nat :=
  x.significand <<< (x.exponent - e).toNat

/-- A finite number in units of `2 ^ e`, with its sign. -/
def inSignedUnits (x : Binary64) (e : Int) : Int :=
  if x.isNegative then -(x.inUnits e : Int) else x.inUnits e

/-- The sum. An exact sum of zero is positive unless both operands are negative. -/
def add (x y : Binary64) : Binary64 :=
  if x.isNaN || y.isNaN then resultNaN
  else if x.isInfinite then
    if y.isInfinite && x.isNegative != y.isNegative then resultNaN else x
  else if y.isInfinite then y
  else
    let e := min x.exponent y.exponent
    let s := x.inSignedUnits e + y.inSignedUnits e
    if s = 0 then zero (x.isNegative && y.isNegative)
    else nearestScaled (s < 0) s.natAbs 1 e

/-- The difference. -/
def sub (x y : Binary64) : Binary64 :=
  add x y.negate

/-- The product. -/
def mul (x y : Binary64) : Binary64 :=
  let negative := x.isNegative != y.isNegative
  if x.isNaN || y.isNaN then resultNaN
  else if x.isInfinite || y.isInfinite then
    if x.isZero || y.isZero then resultNaN else infinity negative
  else nearestScaled negative (x.significand * y.significand) 1 (x.exponent + y.exponent)

/-- The quotient. -/
def div (x y : Binary64) : Binary64 :=
  let negative := x.isNegative != y.isNegative
  if x.isNaN || y.isNaN then resultNaN
  else if x.isInfinite then
    if y.isInfinite then resultNaN else infinity negative
  else if y.isInfinite then zero negative
  else if y.isZero then
    if x.isZero then resultNaN else infinity negative
  else nearestScaled negative x.significand y.significand (x.exponent - y.exponent)

/-- What `x` leaves when the integer part of `x / y`, times `y`, is taken away. It has the
    sign of `x`. -/
def rem (x y : Binary64) : Binary64 :=
  if x.isNaN || y.isNaN || x.isInfinite || y.isZero then resultNaN
  else if y.isInfinite then x
  else
    let e := min x.exponent y.exponent
    nearestScaled x.isNegative (x.inUnits e % y.inUnits e) 1 e

/-- The integer part of a finite number, without its sign. -/
def truncate (x : Binary64) : Nat :=
  x.significand <<< x.exponent.toNat >>> (-x.exponent).toNat

/-- The integer part of `x`, or the end of the range of 64-bit integers that is nearest to
    it; `0` for a NaN. -/
def toInt64 (x : Binary64) : Int64 :=
  if x.isNaN then 0
  else if x.isNegative then
    if x.isInfinite || Int64.maxValue.toInt < x.truncate then Int64.minValue
    else Int64.ofInt (-(x.truncate : Int))
  else
    if x.isInfinite || Int64.maxValue.toInt < x.truncate then Int64.maxValue
    else Int64.ofInt x.truncate

end Binary64

end StackMachine
