import Catena.Store.Forest
import Catena.Value.Stack

/-!
# Continuations

What is left to do once a word that took over control is done: a list of frames, the innermost
first, and a place that receives the outcome of the last one. A continuation is data, resumed with
the stack to go on with or with the failure that ends it.

A `Waker` is a continuation that waits in a cell for the value which completes its stack.
-/

namespace Catena

/-- What a continuation receives. -/
abbrev Outcome := Except Error Stack

/-- What becomes of the local scope of a block when its body is done. -/
inductive Exit where
  /-- It is left and forgotten. -/
  | leave
  /-- It is left, and what it defined becomes a vocabulary on the stack. -/
  | harvest
  deriving DecidableEq

/-- One step of what is left to do. -/
inductive Frame where
  /-- Goes on with the rest of a program. -/
  | resume (env : EnvId) (code : Code)
  /-- Leaves the scope of a block body. -/
  | exit (kind : Exit) (guard : Guard)
  /-- Runs a block some more times. -/
  | again (env : EnvId) (block : Block) (remaining : Nat)

/-- Where the outcome goes in the end. -/
inductive Sink where
  /-- To whoever started the evaluation and looks at this slot. -/
  | slot (index : Nat)
  /-- To the process whose body this was. -/
  | finish (process : ProcessId)
  /-- To the log of the embedding program, under a tag. -/
  | report (tag : String)
  /-- Nowhere: the rest of a run that nobody waits for. -/
  | detached (env : EnvId) (code : Code)

/-- The rest of a computation. -/
structure Continuation where
  frames : List Frame
  sink : Sink

namespace Continuation

/-- The continuation that does nothing more than deliver. -/
def deliver (sink : Sink) : Continuation := ⟨[], sink⟩

/-- The continuation with one more frame to go through first. -/
def push (k : Continuation) (frame : Frame) : Continuation := ⟨frame :: k.frames, k.sink⟩

/-- Goes on with `code`, then with `k`; without `k` nobody waits for the rest. -/
def resumeAt (env : EnvId) (code : Code) : Option Continuation → Continuation
  | some k => k.push (.resume env code)
  | none => deliver (.detached env code)

end Continuation

/-- One who waits in a cell for a value. -/
inductive Waker where
  /-- A continuation that wants the value on its stack, parked in an epoch. -/
  | resume (epoch : Nat) (stack : Stack) (k : Continuation)
  /-- The embedding program, which logs the value under a tag. -/
  | report (tag : String)

end Catena
