import StackMachine.Text.Numeral
import StackMachine.Number.Shortest

/-!
# The text of a floating-point number

A number is written with its shortest decimal digits, positionally if the exponent of its
first digit lies in a range, and otherwise with one digit before the point and an
exponent. What a format decides about this is a `FloatFormat`.

* `FloatFormat.write`: the text of a number in a format.
-/

namespace StackMachine

/-- The decisions of a format for floating-point numbers. -/
structure FloatFormat where
  /-- The least exponent of the first digit in positional writing. -/
  minPositional : Int
  /-- The largest exponent of the first digit in positional writing. -/
  maxPositional : Int
  /-- What stands between `e` and an exponent that is not negative. -/
  positiveExponent : List Char
  /-- Which of two equally near decimals is written. -/
  tie : Tie
  /-- The text of every NaN. -/
  nan : List Char
  /-- The texts of positive and negative infinity. -/
  infinity : List Char
  negativeInfinity : List Char

namespace FloatFormat

/-- The digits `ds`, the first of which has the exponent `e`, with a point. There is at least
    one digit on both sides of the point. -/
def positional (ds : List Char) (e : Int) : List Char :=
  if e < 0 then
    '0' :: '.' :: (List.replicate (-e - 1).toNat '0' ++ ds)
  else
    let whole := (e + 1).toNat
    if ds.length ≤ whole then
      ds ++ List.replicate (whole - ds.length) '0' ++ ['.', '0']
    else
      ds.take whole ++ '.' :: ds.drop whole

/-- The digits `ds`, the first of which has the exponent `e`, with one digit before the point
    and an exponent. A single digit has no point. -/
def scientific (f : FloatFormat) (ds : List Char) (e : Int) : List Char :=
  let fraction := ds.drop 1
  ds.take 1 ++ (if fraction.isEmpty then [] else '.' :: fraction) ++ 'e' ::
    ((if e < 0 then [] else f.positiveExponent) ++ Text.integerDigits e)

/-- The text of a finite number, its sign aside. -/
def writeMagnitude (f : FloatFormat) (x : Binary64) : List Char :=
  if x.isZero then ['0', '.', '0']
  else
    let d := x.shortest f.tie
    let ds := Text.digits d.coefficient
    let e := d.exponent + ds.length - 1
    if f.minPositional ≤ e ∧ e ≤ f.maxPositional then positional ds e else f.scientific ds e

/-- The text of a number. -/
def write (f : FloatFormat) (x : Binary64) : List Char :=
  if x.isNaN then f.nan
  else if x.isInfinite then
    if x.isNegative then f.negativeInfinity else f.infinity
  else if x.isNegative then '-' :: f.writeMagnitude x
  else f.writeMagnitude x

end FloatFormat

end StackMachine
