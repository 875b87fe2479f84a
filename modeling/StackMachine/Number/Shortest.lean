import StackMachine.Number.Binary64

/-!
# Shortest decimals

The decimal with the fewest digits among those that round to a given
floating-point number, and of these the one nearest to it.

A number `m * 2 ^ q` is what all decimals between the midpoints to its two
neighbours round to, the midpoints included if `m` is even. On the grid of the
multiples of `10 ^ k`, only the two neighbours of the number have to be looked at:
if any point of the grid lies in that interval, so does one of them.

* `Interval`: the number and its two midpoints, in quarters of its last place;
* `Interval.hit?`: the point of a grid that lies in the interval, the nearer one of two;
* `Binary64.shortest`: the hit on the coarsest grid that has one.
-/

namespace StackMachine

/-- A decimal: `coefficient * 10 ^ exponent`. -/
structure Decimal where
  coefficient : Nat
  exponent : Int
deriving DecidableEq, Inhabited

/-- Which of two decimals is taken that are equally near. -/
inductive Tie
  | up
  | even
deriving DecidableEq

/-- The reals that round to a floating-point number: from `low` to `high`, around
    `middle`, all in units of `2 ^ exponent`; the ends belong to it if `closed`. -/
structure Interval where
  low : Nat
  middle : Nat
  high : Nat
  exponent : Int
  closed : Bool

namespace Interval

/-- The interval of a finite number, its sign aside. Below a power of two the neighbours
    are half as far apart, except at the least exponent. -/
def ofNumber (x : Binary64) : Interval :=
  let m := x.significand
  { low := 4 * m - (if m = Binary64.leadingBit ∧ -1074 < x.exponent then 1 else 2)
    middle := 4 * m
    high := 4 * m + 2
    exponent := x.exponent - 2
    closed := m % 2 = 0 }

/-- The unit of the grid of multiples of `10 ^ k`, and that of the interval, as multiples of
    a common one. -/
def units (f : Interval) (k : Int) : Nat × Nat :=
  (Nat.pow 10 k.toNat <<< (-f.exponent).toNat, Nat.pow 10 (-k).toNat <<< f.exponent.toNat)

/-- Whether `c * 10 ^ k` lies in the interval. -/
def contains (f : Interval) (k : Int) (c : Nat) : Bool :=
  let (g, u) := f.units k
  if f.closed then f.low * u ≤ c * g && c * g ≤ f.high * u
  else f.low * u < c * g && c * g < f.high * u

/-- The multiple of `10 ^ k` just below the middle, or at it. -/
def below (f : Interval) (k : Int) : Nat :=
  let (g, u) := f.units k
  f.middle * u / g

/-- The multiple of `10 ^ k` nearest to the middle. -/
def nearer (f : Interval) (tie : Tie) (k : Int) : Nat :=
  let (g, u) := f.units k
  let c := f.below k
  match compare (2 * f.middle * u) ((2 * c + 1) * g), tie with
  | .lt, _ => c
  | .gt, _ => c + 1
  | .eq, .up => c + 1
  | .eq, .even => c + c % 2

/-- The multiple of `10 ^ k` that lies in the interval, the one nearer to the middle
    if there are two. -/
def hit? (f : Interval) (tie : Tie) (k : Int) : Option Nat :=
  let c := f.below k
  match f.contains k c, f.contains k (c + 1) with
  | true, true => some (f.nearer tie k)
  | true, false => some c
  | false, true => some (c + 1)
  | false, false => none

/-- The first hit on the grids of `10 ^ k` and the `n` finer ones after it. Seventeen digits
    are enough for every number, so the last grid needs no test. -/
def search (f : Interval) (tie : Tie) : Nat → Int → Decimal
  | 0, k => ⟨f.nearer tie k, k⟩
  | n + 1, k =>
    match f.hit? tie k with
    | some c => ⟨c, k⟩
    | none => search f tie n (k - 1)

/-- The exponent of the first decimal digit of the middle. The estimate from the number of
    bits is that exponent or one less. -/
def leadingExponent (f : Interval) : Int :=
  let estimate := (((f.middle.log2 : Nat) + f.exponent) * 30103) / 100000
  let (g, u) := f.units (estimate + 1)
  if g ≤ f.middle * u then estimate + 1 else estimate

end Interval

namespace Decimal

/-- A coefficient without the zeros at its end. -/
def normalize (d : Decimal) : Decimal :=
  if h : d.coefficient ≠ 0 ∧ d.coefficient % 10 = 0 then
    normalize ⟨d.coefficient / 10, d.exponent + 1⟩
  else d
termination_by d.coefficient
decreasing_by omega

end Decimal

/-- The shortest decimal that rounds to a finite number other than zero, its sign aside. -/
def Binary64.shortest (tie : Tie) (x : Binary64) : Decimal :=
  let f := Interval.ofNumber x
  (f.search tie 16 f.leadingExponent).normalize

end StackMachine
