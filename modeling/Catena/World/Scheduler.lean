import Catena.Number.Duration

/-!
# Turns

A single queue of tasks, each of which runs from start to end in one turn. Ready tasks run in the
order in which they were queued; a timer becomes ready, behind everything already ready, once its
deadline has come, the earlier deadline first and among equal ones the earlier timer.

The scheduler is generic in what a task is. It has a clock of its own, in nanoseconds. When nothing
else is ready, `settle` moves it on to the next deadline: waiting takes no turn. Besides, time goes
by while turns are taken (`elapse`); how much of it, the scheduler does not decide.

Every evaluation of the embedding program runs in an epoch of its own, and an epoch can be
abandoned; what was left waiting in it is not to be resumed any more.
-/

namespace Catena

/-- Counters over the whole life of a scheduler. -/
structure Stats where
  tasksScheduled : Nat := 0
  tasksExecuted : Nat := 0
  timersFired : Nat := 0
  maxDispatchDepth : Nat := 0
  processesSpawned : Nat := 0
  processesCompleted : Nat := 0
  activeProcesses : Nat := 0
  peakProcesses : Nat := 0
  messagesPosted : Nat := 0
  messagesReceived : Nat := 0
  deriving DecidableEq, Inhabited

namespace Stats

/-- A process has been spawned. -/
def spawned (s : Stats) : Stats :=
  { s with
    processesSpawned := s.processesSpawned + 1
    activeProcesses := s.activeProcesses + 1
    peakProcesses := max s.peakProcesses (s.activeProcesses + 1) }

/-- A process has come to its end. -/
def completed (s : Stats) : Stats :=
  { s with
    processesCompleted := s.processesCompleted + 1
    activeProcesses := s.activeProcesses - 1 }

/-- A message has been posted. -/
def posted (s : Stats) : Stats := { s with messagesPosted := s.messagesPosted + 1 }

/-- A message has been received. -/
def received (s : Stats) : Stats := { s with messagesReceived := s.messagesReceived + 1 }

end Stats

/-- A task that becomes ready at its deadline. -/
structure Timer (τ : Type) where
  due : Nat
  serial : Nat
  task : τ

/-- The queue, the timers and the counters. -/
structure Scheduler (τ : Type) where
  /-- Tasks to run, the next one first. -/
  ready : List τ := []
  /-- Timers by deadline, among equal ones by serial number. -/
  timers : List (Timer τ) := []
  nextSerial : Nat := 0
  /-- The time now, in nanoseconds. -/
  clock : Nat := 0
  /-- How much time goes by before each of the next turns. Before those that come after them, none
  does but what is waited for. -/
  lapses : List Nat := []
  /-- How many turns are being taken at this moment. -/
  dispatchDepth : Nat := 0
  /-- Whether the queue has been worked on since the counters were last reset. -/
  started : Bool := false
  stats : Stats := {}
  epoch : Nat := 0
  abandoned : List Nat := []

namespace Scheduler

variable {τ : Type}

instance : Inhabited (Scheduler τ) := ⟨{}⟩

/-- Changes the counters. -/
def count (s : Scheduler τ) (f : Stats → Stats) : Scheduler τ := { s with stats := f s.stats }

/-- Another task has been put off. -/
def countScheduled (s : Scheduler τ) : Scheduler τ :=
  s.count fun stats => { stats with tasksScheduled := stats.tasksScheduled + 1 }

/-- Queues a task for a later turn. -/
def later (s : Scheduler τ) (task : τ) : Scheduler τ :=
  { s.countScheduled with ready := s.ready ++ [task] }

/-- The clock goes up to this many seconds. -/
def lastSecond : Nat := UInt64.size / 2 - 1

/-- The time `delay` nanoseconds from now, if the clock goes that far. -/
def deadline? (s : Scheduler τ) (delay : Nat) : Option Nat :=
  let due := s.clock + delay
  if due / Number.nanosPerSecond < lastSecond then some due else none

/-- Queues a task for a turn that is not before `due`. -/
def schedule (s : Scheduler τ) (due : Nat) (task : τ) : Scheduler τ :=
  let timer : Timer τ := ⟨due, s.nextSerial, task⟩
  { s.countScheduled with
    nextSerial := s.nextSerial + 1
    timers := s.timers.takeWhile (·.due ≤ due) ++ timer :: s.timers.dropWhile (·.due ≤ due) }

theorem length_takeWhile_add_dropWhile {α : Type} (p : α → Bool) (l : List α) :
    (l.takeWhile p).length + (l.dropWhile p).length = l.length := by
  rw [← List.length_append, List.takeWhile_append_dropWhile]

/-- The number of tasks that wait for their turn or their time. -/
def pending (s : Scheduler τ) : Nat := s.ready.length + s.timers.length

@[simp] theorem pending_later (s : Scheduler τ) (task : τ) :
    (s.later task).pending = s.pending + 1 := by
  simp [pending, later, countScheduled, count]
  omega

@[simp] theorem pending_schedule (s : Scheduler τ) (due : Nat) (task : τ) :
    (s.schedule due task).pending = s.pending + 1 := by
  have h := length_takeWhile_add_dropWhile (·.due ≤ due) s.timers
  simp [pending, schedule, countScheduled, count]
  omega

/-- Whether a turn is being taken. -/
def dispatching (s : Scheduler τ) : Bool := 0 < s.dispatchDepth

/-- Makes the timers that are due at `now` ready. -/
def promote (s : Scheduler τ) (now : Nat) : Scheduler τ :=
  let due := s.timers.takeWhile (·.due ≤ now)
  { s with
    ready := s.ready ++ due.map (·.task)
    timers := s.timers.dropWhile (·.due ≤ now)
    stats := { s.stats with timersFired := s.stats.timersFired + due.length } }

@[simp] theorem pending_promote (s : Scheduler τ) (now : Nat) :
    (s.promote now).pending = s.pending := by
  have h := length_takeWhile_add_dropWhile (·.due ≤ now) s.timers
  simp [pending, promote]
  omega

/-- Time goes by, and `lapses` is to follow. -/
def pass (s : Scheduler τ) (elapsed : Nat) (lapses : List Nat) : Scheduler τ :=
  { s with clock := s.clock + elapsed, lapses := lapses }

/-- The time before a turn goes by. -/
def elapse (s : Scheduler τ) : Scheduler τ := s.pass (s.lapses.headD 0) s.lapses.tail

@[simp] theorem pending_pass (s : Scheduler τ) (elapsed : Nat) (lapses : List Nat) :
    (s.pass elapsed lapses).pending = s.pending := rfl

/-- Makes due timers ready. If that leaves nothing ready, the clock goes on to the next deadline,
if there is one. -/
def settle (s : Scheduler τ) : Scheduler τ :=
  let s := s.promote s.clock
  match s.ready, s.timers with
  | [], timer :: _ => { s with clock := timer.due }.promote timer.due
  | _, _ => s

@[simp] theorem pending_settle (s : Scheduler τ) : s.settle.pending = s.pending := by
  rw [← pending_promote s s.clock]
  simp only [settle]
  split
  · exact pending_promote _ _
  · rfl

/-- A turn begins: its task leaves the queue. -/
def beginTurn (s : Scheduler τ) (rest : List τ) : Scheduler τ :=
  { s with
    ready := rest
    dispatchDepth := s.dispatchDepth + 1
    stats := { s.stats with
      maxDispatchDepth := max s.stats.maxDispatchDepth (s.dispatchDepth + 1)
      tasksExecuted := s.stats.tasksExecuted + 1 } }

/-- A turn ends. -/
def endTurn (s : Scheduler τ) : Scheduler τ := { s with dispatchDepth := s.dispatchDepth - 1 }

/-- Drops every queued task and timer. -/
def discard (s : Scheduler τ) : Scheduler τ := { s with ready := [], timers := [] }

@[simp] theorem pending_discard (s : Scheduler τ) : s.discard.pending = 0 := rfl

/-- Sets all counters to zero. -/
def resetStats (s : Scheduler τ) : Scheduler τ := { s with stats := {}, started := false }

/-! ## Epochs -/

/-- Begins a new epoch. -/
def beginEpoch (s : Scheduler τ) : Scheduler τ := { s with epoch := s.epoch + 1 }

/-- Gives an epoch up. -/
def abandon (s : Scheduler τ) (epoch : Nat) : Scheduler τ :=
  { s with abandoned := epoch :: s.abandoned }

/-- Whether an epoch has been given up. -/
def isAbandoned (s : Scheduler τ) (epoch : Nat) : Bool := s.abandoned.contains epoch

theorem isAbandoned_abandon (s : Scheduler τ) (epoch other : Nat) :
    (s.abandon epoch).isAbandoned other = (other == epoch || s.isAbandoned other) :=
  List.contains_cons

end Scheduler

end Catena
