import StackMachine.Machine.Reuse
import StackMachine.Trace

/-!
# Sessions

A session runs programs, one after the other, under fixed limits and on one machine, which is used
again for every run. All that can be seen of a run later is the number of instructions that it took;
an image that is rejected is not run and leaves that number alone.

* `Session.runWith`: run a program under an observer;
* `Session.run`, `Session.trace`: without any, and with the printer of traces;
* `Session.tryExecute`: load an image and run its program;
* `Session.execute`: the same, with every failure folded into an error value.
-/

namespace StackMachine

/-- Why an image gives no value. -/
inductive ExecutionError
  | load (reason : LoadError)
  | fault (reason : Fault)
deriving DecidableEq, Inhabited

namespace ExecutionError

/-- The code that stands for the error in values: below `100` for what is wrong with an image, and
    from `100` on for faults. -/
def code : ExecutionError → Int64
  | load reason => reason.code
  | fault reason => reason.code

/-- The text of the error. -/
def message : ExecutionError → String
  | load reason => reason.message
  | fault reason => reason.message

end ExecutionError

/-- Whether an image gave a value. -/
inductive Status
  | ok
  | error
deriving DecidableEq, Inhabited

namespace Status

/-- The number of a status. -/
def number : Status → UInt32
  | ok => 0
  | error => 1

/-- Whether the status is `ok`. -/
def isOk (s : Status) : Bool :=
  s == ok

end Status

/-- The limits of the runs of a session, the machine that executes them, and the number of
    instructions of the last run. -/
structure Session where
  limits : Limits := {}
  /-- As the last run has left it. -/
  machine : Machine := .unused
  steps : Nat := 0
deriving DecidableEq, Inhabited

namespace Session

/-- Run a program under an observer with the state `start`. -/
def runWith {σ : Type} (s : Session) (p : Program) (observe : σ → Event → σ) (start : σ) :
    Outcome σ × Session :=
  let (o, machine) := s.machine.executeAgain p s.limits observe start
  (o, { s with machine, steps := o.steps })

/-- Run a program. -/
def run (s : Session) (p : Program) : Except Fault Value × Session :=
  let (o, s) := s.runWith p (fun _ _ => ()) ()
  (o.result, s)

/-- Run a program and trace it. -/
def trace (s : Session) (p : Program) : Outcome Printer × Session :=
  s.runWith p Printer.observe { program := p }

/-- Run the program of an image. -/
def tryExecute (s : Session) (image : List UInt8) : Except ExecutionError Value × Session :=
  match Program.load image with
  | .error reason => (.error (.load reason), s)
  | .ok p =>
    match s.run p with
    | (.ok v, s) => (.ok v, s)
    | (.error reason, s) => (.error (.fault reason), s)

/-- Run the program of an image. A failure is the error value with its code. -/
def execute (s : Session) (image : List UInt8) : (Status × Value) × Session :=
  match s.tryExecute image with
  | (.ok v, s) => ((.ok, v), s)
  | (.error err, s) => ((.error, .error err.code), s)

end Session

end StackMachine
