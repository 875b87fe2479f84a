import StackMachine.Boundary.RawValue
import StackMachine.Session

/-!
# Calls from C

A program in C creates sessions, executes images in them and frees them. It refers to a session by
a *handle*; a null handle, and here also one that was freed, refers to none. An execution writes
its value to an out slot if it is given one.

Every call is exported under two names, which do the same.

* `Boundary.Call`: the calls;
* `Boundary.perform`: what a call answers, and the sessions and the out slot after it.
-/

namespace StackMachine

/-- The sessions that were created, in the order of their handles, without those that were freed;
    and the out slot. -/
structure Boundary where
  sessions : Array (Option Session) := #[]
  out : RawValue := {}

namespace Boundary

/-- The code of a null handle or a null image. -/
def nullArgument : Int64 := -2

/-- A handle; `none` is the null handle. -/
abbrev Handle := Option Nat

/-- The session of a handle. -/
def session? (b : Boundary) (handle : Handle) : Option Session := do
  let index ← handle
  (b.sessions[index]?).join

/-- The sessions with another state of the one of a handle. -/
def store (b : Boundary) (handle : Handle) (s : Option Session) : Boundary :=
  match handle with
  | none => b
  | some index => { b with sessions := b.sessions.setIfInBounds index s }

/-- A session more, with default limits. -/
def create (b : Boundary) : Boundary :=
  { b with sessions := b.sessions.push (some {}) }

/-- Free a session. There is nothing to free for a null handle. -/
def free (b : Boundary) (handle : Handle) : Status × Boundary :=
  match b.session? handle with
  | none => (.error, b)
  | some _ => (.ok, b.store handle none)

/-- Status and value of an execution. -/
def outcome (b : Boundary) (handle : Handle) (image : Option (List UInt8)) :
    (Status × Value) × Boundary :=
  match b.session? handle, image with
  | some s, some image =>
    let (result, s) := s.execute image
    (result, b.store handle (some s))
  | _, _ => ((.error, .error nullArgument), b)

/-- Execute an image, `none` being a null pointer. The value goes to the out slot if it is
    given. -/
def execute (b : Boundary) (handle : Handle) (image : Option (List UInt8)) (writeOut : Bool) :
    Status × Boundary :=
  let ((status, v), b) := b.outcome handle image
  (status, if writeOut then { b with out := RawValue.ofValue v } else b)

/-- The names that the calls are exported under. -/
inductive Names
  /-- `runtime_new` and so on. -/
  | bare
  /-- `vela_runtime_new` and so on. -/
  | long
deriving DecidableEq, Inhabited

/-- The calls. -/
inductive Call
  | create (names : Names)
  | free (names : Names) (handle : Handle)
  | execute (names : Names) (handle : Handle) (image : Option (List UInt8)) (writeOut : Bool)

/-- The answers of calls. -/
inductive Answer
  | handle (handle : Nat)
  | status (status : Status)
deriving DecidableEq, Inhabited

/-- What a call answers, and the boundary after it. -/
def perform (b : Boundary) : Call → Answer × Boundary
  | .create _ => (.handle b.sessions.size, b.create)
  | .free _ handle =>
    let (status, b) := b.free handle
    (.status status, b)
  | .execute _ handle image writeOut =>
    let (status, b) := b.execute handle image writeOut
    (.status status, b)

end Boundary

end StackMachine
