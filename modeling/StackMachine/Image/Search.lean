/-!
# Search in ascending sequences

* `bisect?`: the position of a number in a part of an ascending sequence, by halving.
-/

namespace StackMachine

/-- A position from `lo` on and below `lo + count` at which the ascending sequence `key` has
    the number `target`. Every step at least halves the `count`, so any `fuel` that is not less
    is enough. -/
def bisectFrom? (key : Nat → Nat) (target : Nat) : (fuel lo count : Nat) → Option Nat
  | 0, _, _ => none
  | fuel + 1, lo, count =>
    if count = 0 then none
    else
      let middle := lo + count / 2
      if target < key middle then bisectFrom? key target fuel lo (count / 2)
      else if key middle < target then
        bisectFrom? key target fuel (middle + 1) (count - count / 2 - 1)
      else some middle

/-- The position among the first `count` at which the ascending sequence `key` has the number
    `target`. -/
def bisect? (key : Nat → Nat) (count target : Nat) : Option Nat :=
  bisectFrom? key target count 0 count

end StackMachine
