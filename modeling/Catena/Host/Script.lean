import Catena.Machine.Run

/-!
# Carrying out commands

`World.carryOut` does what a command of the embedding program asks for, except taking turns, which
it refuses: it is also used inside a turn, where no other turn may begin.
-/

namespace Catena

namespace World

open Host (Answer BoxName Command)

/-- The process that the embedding program calls by this number. -/
def hostProcess (w : World) (index : Nat) : ProcessId := w.host.processes.get index

/-- The variable that the embedding program calls by this number. -/
def hostVariable (w : World) (index : Nat) : VariableId := w.host.dataflows.get index

/-- The mailbox that the embedding program means. -/
def hostMailbox (w : World) : BoxName → MailboxId
  | .bare index => w.host.mailboxes.get index
  | .ofProcess index => (w.process (w.hostProcess index)).mailbox

/-- Queues commands for a turn after a delay, if the clock goes that far. -/
def scriptAfter (w : World) (delay : Nat) (task : List Command) : World × Answer :=
  match w.scheduler.deadline? delay with
  | some due => (w.mapScheduler (·.schedule due (.script task)), .nothing)
  | none =>
    (w, .failure (.invalidArgument ControlWord.after.name
      (.deadlineTooFar (delay / Number.nanosPerSecond))))

/-- Calls a word on a stack. A word that takes over gets a continuation which logs its outcome. -/
def hostCall (w : World) (p : Primitive) (stack : Stack) (tag : String) : World × Answer :=
  match p.call with
  | .sync action =>
    match (action w.host.env stack).run w with
    | (.ok stack, w) => (w, .stack (w.viewStack stack))
    | (.error e, w) => (w, .failure e)
  | .async start => (start w w.host.env stack (.deliver (.report tag)), .nothing)

/-- Calls a built-in word. -/
def hostCallWord (w : World) (word : Name) (stack : Stack) (tag : String) : World × Answer :=
  match w.lookup w.host.env word with
  | some (.primitive p) => w.hostCall p stack tag
  | _ => (w, .nothing)

/-- A stack of the values that a source text writes. -/
def readStack (w : World) (source : String) (owner : Option ProcessId) : World × Stack :=
  let (w, values) := w.readValues source
  (w, { Stack.ofValues values with owner })

/-- Carries out one command of the embedding program. -/
def carryOut (w : World) : Command → World × Answer
  | .log note => (w, .note note)
  | .later task => (w.later (.script task), .nothing)
  | .after delay task => w.scriptAfter delay task
  | .run _ => (w, .count 0)
  | .discard => (w.mapScheduler Scheduler.discard, .count w.scheduler.pending)
  | .pending => (w, .count w.scheduler.pending)
  | .dispatching => (w, .flag w.scheduler.dispatching)
  | .stats => (w, .stats w.stats)
  | .resetStats => (w.mapScheduler Scheduler.resetStats, .flag false)
  | .started => (w, .flag w.scheduler.started)
  | .beginEpoch => (w.mapScheduler Scheduler.beginEpoch, .count (w.scheduler.epoch + 1))
  | .epoch => (w, .count w.scheduler.epoch)
  | .abandon epoch => (w.mapScheduler (·.abandon epoch), .nothing)
  | .isAbandoned epoch => (w, .flag (w.isAbandoned epoch))
  | .countSpawned => (w.count Stats.spawned, .nothing)
  | .countCompleted => (w.count Stats.completed, .nothing)
  | .countPosted => (w.count Stats.posted, .nothing)
  | .countReceived => (w.count Stats.received, .nothing)
  | .diagnose text => (w.report text, .flag true)
  | .diagnostics =>
    let (w, reports) := w.takeReports
    (w, .texts reports)
  | .hasDiagnostics => (w, .flag !w.reports.isEmpty)
  | .clearDiagnostics => (w.takeReports.1, .nothing)
  | .newProcess =>
    let (w, env) := w.newRoot
    let (w, p) := w.newProcess env
    ({ w with host := { w.host with processes := w.host.processes.push p } },
      .view (w.view (.process p)))
  | .process index => (w, .view (w.view (.process (w.hostProcess index))))
  | .markRunning index =>
    let p := w.hostProcess index
    let w := w.modifyProcess p Process.markRunning
    (w, .view (w.view (.process p)))
  | .complete index value failure =>
    let p := w.hostProcess index
    let (w, result) := w.readValue value
    let (process, wakers) := (w.process p).complete result
      (failure.map fun reason => .invalidArgument "host" (.stated reason))
    let w := w.modifyProcess p fun _ => process
    (wakers.foldl (fun w waker => w.wakeJoiner result waker) w, .count wakers.length)
  | .addNotify index tag =>
    let p := w.hostProcess index
    let w := w.modifyProcess p (·.addNotify (.report tag))
    (w, .count (w.process p).notify.length)
  | .await target tag stack =>
    let (w, stack) := w.readStack stack none
    let target := match target with
      | .process index => .process (w.hostProcess index)
      | .dataflow index => .dataflow (w.hostVariable index)
    w.hostCallWord ControlWord.await.name (stack.push target) tag
  | .receive index tag stack =>
    let (w, stack) := w.readStack stack (some (w.hostProcess index))
    w.hostCallWord ControlWord.receive.name stack tag
  | .call word tag stack owner =>
    let (w, stack) := w.readStack stack (owner.map w.hostProcess)
    w.hostCallWord word stack tag
  | .newMailbox owner =>
    let (w, m) := w.newMailbox (w.hostProcess owner).number
    ({ w with host := { w.host with mailboxes := w.host.mailboxes.push m } },
      .view (w.view (.mailbox m)))
  | .mailbox box =>
    let m := w.hostMailbox box
    (w, .mailbox (w.view (.mailbox m)) (w.mailbox m).queue.isEmpty)
  | .wait box tag =>
    let m := w.hostMailbox box
    match (w.mailbox m).wait? (.report tag) with
    | some mailbox => (w.setMailbox m mailbox, .flag true)
    | none => (w, .flag false)
  | .deliver box value =>
    let (w, message) := w.readValue value
    (w.deliver (w.hostMailbox box) message, .nothing)
  | .post box value call =>
    let m := w.hostMailbox box
    let (w, message) := w.readValue value
    let (mailbox, receiver) := (w.mailbox m).post message
    let w := w.setMailbox m mailbox
    match receiver, call with
    | some waker, some call =>
      let (w, called) := w.readValue call
      (w.wakeReceiver m called waker, .flag true)
    | some _, none => (w, .flag true)
    | none, _ => (w, .flag false)
  | .take box =>
    let m := w.hostMailbox box
    match (w.mailbox m).take? with
    | some (message, mailbox) => (w.setMailbox m mailbox, .view (w.view message))
    | none => (w, .nothing)
  | .requeue box value =>
    let m := w.hostMailbox box
    let (w, message) := w.readValue value
    (w.setMailbox m ((w.mailbox m).requeue message), .nothing)
  | .newVariable name =>
    let (w, v) := w.newVariable name
    ({ w with host := { w.host with dataflows := w.host.dataflows.push v } },
      .view (w.view (.dataflow v)))
  | .dataflow index =>
    let v := w.hostVariable index
    (w, .dataflow (w.view (.dataflow v)) (w.dataflow v).value.isSome)
  | .addWaiter index tag =>
    let v := w.hostVariable index
    let w := w.modifyVariable v (·.addWaiter (.report tag))
    (w, .count (w.dataflow v).waiters.length)
  | .bindNow index value =>
    let v := w.hostVariable index
    let (w, value) := w.readValue value
    match (w.dataflow v).bind? value with
    | some (cell, wakers) =>
      let w := w.modifyVariable v fun _ => cell
      (wakers.foldl (fun w waker => w.wakeWaiter value waker) w, .count wakers.length)
    | none => (w, .nothing)
  | .bind index values =>
    let (w, stack) := w.readStack values none
    w.hostCallWord StateWord.bind.name (stack.push (.dataflow (w.hostVariable index))) ""

/-- Carries out commands in order and logs the answer to each. -/
def runScript (w : World) (commands : List Command) : World :=
  commands.foldl (fun w command =>
    let (w, answer) := w.carryOut command
    w.addEntry (.answer answer)) w

end World

end Catena
