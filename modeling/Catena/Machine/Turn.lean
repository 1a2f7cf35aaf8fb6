import Catena.Host.Script

/-!
# Taking turns

`World.drain` runs tasks, one a turn, until nothing is ready and no timer is pending, or until a
limit on the turns is reached while there is more to do. Inside a turn it does nothing. Before every
turn it looks at the clock (`World.tick`), so a timer can come due behind tasks that are ready.
-/

namespace Catena.World

/-- Runs a task from start to end. -/
def perform (w : World) : Task → World
  | .resume k outcome => w.resume k outcome
  | .activate captured own block exit stack k => w.runActivation captured own block exit stack k
  | .start p code stack => w.runProcess p code stack
  | .wakeReceiver m waker => w.wakeNext m waker
  | .wakeWaiter waker value => w.wakeWaiter value waker
  | .script commands => w.runScript commands

/-- One turn: takes a task off the queue, which leaves `rest`, and runs it. -/
def turn (w : World) (task : Task) (rest : List Task) : World :=
  ((w.mapScheduler (·.beginTurn rest)).perform task).mapScheduler Scheduler.endTurn

/-- What goes before a turn: time goes by, and timers that have come due become ready. -/
def tick (w : World) : World := w.mapScheduler (·.elapse.settle)

/-- Takes up to `fuel` turns, after `taken` already. Returns how many have been taken in all, and
whether there is nothing left to do. -/
def takeTurns : Nat → Nat → World → World × Nat × Bool
  | fuel, taken, w =>
    let w := w.tick
    match w.scheduler.ready, fuel with
    | [], _ => (w, taken, true)
    | _ :: _, 0 => (w, taken, false)
    | task :: rest, fuel + 1 => takeTurns fuel (taken + 1) (w.turn task rest)

/-- Turns are counted in words of 64 bits: no limit goes beyond this one, and a run without a limit
stops here. -/
def turnCeiling : Nat := UInt64.size - 1

/-- Takes turns until there is nothing left to do or the limit is reached. -/
def drain (w : World) (limit : Option Nat) : World × Except Error Nat :=
  if w.scheduler.dispatching then (w, .ok 0)
  else
    let bound := limit.getD turnCeiling
    match takeTurns bound 0 (w.mapScheduler ({ · with started := true })) with
    | (w, taken, true) => (w, .ok taken)
    | (w, _, false) => (w, .error (.turnLimit bound))

end Catena.World
