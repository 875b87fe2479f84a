import StackMachine.Machine.Step

/-!
# Runs of the machine

A run executes instructions until the program halts, a fault is raised, or the fuel is used
up. Whatever happens in it is an *event*, and a run can be observed: the observer sees the
events in their order.

* `Event`: what an observer sees;
* `execute`: a run, with its result, the number of instructions executed, and what was
  observed;
* `Outcome`: these three.
-/

namespace StackMachine

/-- What happens in a run. -/
inductive Event
  /-- An instruction is about to be executed, the active call having `depth` operands. -/
  | step (offset : Nat) (instruction : Instruction) (depth : Nat)
  /-- A call was entered; `depth` calls are active now. -/
  | call (target : UInt32) (depth : Nat)
  /-- A call was left with a value. -/
  | ret (value : Value)
  /-- The program halted with a value. -/
  | halt (value : Value)
  /-- A fault ended the run. -/
  | fault (fault : Fault)
deriving DecidableEq

/-- How a run ended. -/
structure Outcome (σ : Type) where
  result : Except Fault Value
  /-- The number of instructions executed, one that raised a fault included. -/
  steps : Nat
  /-- The state of the observer. -/
  observed : σ

namespace Machine

variable {σ : Type}

/-- Execute from the state `m` on, with `fuel` instructions left. The result comes with the fuel
    that is left then. At the end of the code it does not matter whether any is left. -/
def executeFrom (p : Program) (limits : Limits) (observe : σ → Event → σ) :
    (fuel : Nat) → Machine → σ → Except Fault Value × Nat × σ
  | fuel, m, s =>
    match p.fetch? m.pc with
    | none => (.error .incompleteProgram, fuel, s)
    | some i =>
      match fuel with
      | 0 => (.error (.budgetExceeded limits.fuel), 0, s)
      | fuel + 1 =>
        let s := observe s (.step i.offset i.instruction m.depth)
        match step p limits i.instruction { m with pc := m.pc + 1 } with
        | .error fault => (.error fault, fuel, s)
        | .ok (.next m) => executeFrom p limits observe fuel m s
        | .ok (.called target m) =>
          let s := observe s (.call target m.callers.depth)
          executeFrom p limits observe fuel m s
        | .ok (.returned v m) => executeFrom p limits observe fuel m (observe s (.ret v))
        | .ok (.halted v _) => (.ok v, fuel, observe s (.halt v))

end Machine

variable {σ : Type}

/-- A run of a program. A fault is the last thing that is observed. -/
def execute (p : Program) (limits : Limits) (observe : σ → Event → σ) (s : σ) : Outcome σ :=
  match Machine.executeFrom p limits observe limits.fuel .start s with
  | (.ok v, left, s) => ⟨.ok v, limits.fuel - left, s⟩
  | (.error fault, left, s) => ⟨.error fault, limits.fuel - left, observe s (.fault fault)⟩

/-- A run that nobody observes. -/
def run (p : Program) (limits : Limits) : Outcome Unit :=
  execute p limits (fun _ _ => ()) ()

/-- A run with the list of its events. -/
def events (p : Program) (limits : Limits) : Outcome (Array Event) :=
  execute p limits Array.push #[]

end StackMachine
