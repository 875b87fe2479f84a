/-!
# Limits

The resources that a run may use.
-/

namespace StackMachine

/-- The limits of a run. -/
structure Limits where
  /-- The number of instructions that may be executed. -/
  fuel : Nat := 1000000
  /-- The number of values that the operand stacks and the local slots of all calls may hold; the
      slots of the top level are not counted. -/
  stackLimit : Nat := 65536
  /-- The number of calls that may be active at once. -/
  callDepth : Nat := 1024
deriving DecidableEq, Inhabited

end StackMachine
