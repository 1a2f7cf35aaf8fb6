import Catena.Number.Duration
import Catena.Words.State

/-!
# Words that take over control

A control word owns the continuation of its caller. It never resumes it itself: whatever happens,
the continuation ends up in a task for a later turn, in a timer, or in a cell. A failure travels
the same way, so that it too reaches the caller on a later turn.
-/

namespace Catena

namespace World

/-- Passes the operands of a word on to `next`, or a failure to the continuation. -/
def withOperands {α : Type} (w : World) (k : Continuation) (operands : Except Error α)
    (next : α → World) : World :=
  match operands with
  | .ok a => next a
  | .error e => w.resumeLater k (.error e)

/-- Runs a block on a later turn: in an environment made from its snapshot, with the name of the
word it belongs to, if it belongs to one, and an empty scope for its own definitions. -/
def activate (w : World) (env : EnvId) (block : Block) (own : Option (Name × Value)) (exit : Exit)
    (stack : Stack) (k : Continuation) : World :=
  let (w, captured) := w.instantiate env block
  w.later (.activate captured own block exit stack k)

/-- Runs a block that belongs to no word, and forgets what it defines. -/
def runBlock (w : World) (env : EnvId) (block : Block) (stack : Stack) (k : Continuation) : World :=
  w.activate env block none .leave stack k

/-- Runs a block `remaining` times, each time on the stack that the last time left. -/
def repeatBlock (w : World) (env : EnvId) (block : Block) (remaining : Nat) (stack : Stack)
    (k : Continuation) : World :=
  match remaining with
  | 0 => w.resumeLater k (.ok stack)
  | n + 1 => w.runBlock env block stack (k.push (.again env block n))

/-- Waits for a variable. -/
def awaitVariable (w : World) (v : VariableId) (stack : Stack) (k : Continuation) : World :=
  match (w.dataflow v).value with
  | some value => w.resumeLater k (.ok (stack.push value))
  | none => w.modifyVariable v (·.addWaiter (.resume w.scheduler.epoch stack k))

/-- Waits for the result of a process. -/
def awaitProcess (w : World) (p : ProcessId) (stack : Stack) (k : Continuation) : World :=
  match (w.process p).result with
  | some result => w.resumeLater k (.ok (stack.push result))
  | none => w.modifyProcess p (·.addNotify (.resume w.scheduler.epoch stack k))

/-- Takes the next message of the process that owns the stack, or waits for one. -/
def receive (w : World) (stack : Stack) (k : Continuation) : World :=
  match stack.owner with
  | none => w.resumeLater k (.error (.noOwningProcess ControlWord.receive.name))
  | some p =>
    let m := (w.process p).mailbox
    match (w.mailbox m).take? with
    | some (message, mailbox) =>
      ((w.setMailbox m mailbox).count Stats.received).resumeLater k (.ok (stack.push message))
    | none =>
      match (w.mailbox m).wait? (.resume w.scheduler.epoch stack k) with
      | some mailbox => w.setMailbox m mailbox
      | none => w.resumeLater k (.error (.receiverPending p.number))

/-- Resumes a continuation after a delay in nanoseconds, if the clock goes that far. -/
def resumeAfter (w : World) (delay : Nat) (stack : Stack) (k : Continuation) : World :=
  match w.scheduler.deadline? delay with
  | some due => w.mapScheduler (·.schedule due (.resume k (.ok stack)))
  | none =>
    w.resumeLater k (.error (.invalidArgument ControlWord.after.name
      (.deadlineTooFar (delay / Number.nanosPerSecond))))

end World

namespace ControlWord

/-- A block, and the stack below it. -/
def blockOperand (op : String) (s : Stack) : Except Error (Block × Stack) := do
  let block ← s.peekBlock op 0
  return (block, ← s.dropTop op 1)

/-- A condition below a block. -/
def whenOperands (op : String) (s : Stack) : Except Error (Bool × Block × Stack) := do
  let block ← s.peekBlock op 0
  let condition ← s.peek op 1
  return (condition.truthy, block, ← s.dropTop op 2)

/-- A condition below two blocks: the one of them that it chooses. -/
def chooseOperands (op : String) (s : Stack) : Except Error (Block × Stack) := do
  let otherwise ← s.peekBlock op 0
  let chosen ← s.peekBlock op 1
  let condition ← s.peek op 2
  return (if condition.truthy then chosen else otherwise, ← s.dropTop op 3)

/-- Counts stop here. -/
def countBound : Nat := UInt64.size - 1

/-- A block below the number of times to run it. -/
def iterateOperands (op : String) (s : Stack) : Except Error (Block × Nat × Stack) := do
  let x ← s.peekNumber op 0
  let block ← s.peekBlock op 1
  match Number.toWhole? x with
  | some n => return (block, min n countBound, ← s.dropTop op 2)
  | none => throw (.invalidArgument op (.badCount x))

/-- An object below the message sent to it. -/
def sendOperands (op : String) (s : Stack) : Except Error (ObjectId × Name × Stack) := do
  let message ← s.peekSymbol op 0
  let o ← s.peekObject op 1
  return (o, message, ← s.dropTop op 2)

/-- A delay in milliseconds, as nanoseconds. -/
def delayOperand (op : String) (s : Stack) : Except Error (Nat × Stack) := do
  let ms ← s.peekNumber op 0
  if !(ms.isFinite && 0 ≤ ms) then throw (.invalidArgument op (.badDelay ms))
  match Number.nanoseconds? (ms / 1000) with
  | some delay => return (delay, ← s.dropTop op 1)
  | none => throw (.invalidArgument op (.delayTooLong ms))

/-- Waits for the process or variable on top of the stack. -/
def startAwait (op : String) (w : World) (s : Stack) (k : Continuation) : World :=
  w.withOperands k (s.pop op) fun (target, rest) =>
    match target with
    | .process p => w.awaitProcess p rest k
    | .dataflow v => w.awaitVariable v rest k
    | v => w.resumeLater k (.error (.typeMismatch op .process v.kind))

/-- Every control word but `send`, which may call all others. -/
def startPlain (word : ControlWord) (w : World) (env : EnvId) (s : Stack) (k : Continuation) :
    World :=
  let op := word.name
  match word with
  | run => w.withOperands k (blockOperand op s) fun (block, rest) => w.runBlock env block rest k
  | when => w.withOperands k (whenOperands op s) fun (condition, block, rest) =>
    if condition then w.runBlock env block rest k else w.resumeLater k (.ok rest)
  | choose => w.withOperands k (chooseOperands op s) fun (block, rest) =>
    w.runBlock env block rest k
  | iterate => w.withOperands k (iterateOperands op s) fun (block, n, rest) =>
    w.repeatBlock env block n rest k
  | vocab => w.withOperands k (blockOperand op s) fun (block, rest) =>
    w.activate env block none .harvest rest k
  | await => startAwait op w s k
  | receive => w.receive s k
  | yield => w.resumeLater k (.ok s)
  | after => w.withOperands k (delayOperand op s) fun (delay, rest) => w.resumeAfter delay rest k
  -- The object that was sent this message is on top, and an object is no message.
  | send => w.resumeLater k (.error (.typeMismatch op .symbol .object))

end ControlWord

/-- What a foreign word does with its caller. -/
def ForeignControl.start (word : ForeignControl) (w : World) (s : Stack) (k : Continuation) :
    World :=
  match word with
  | pauses => w.resumeLater k (.ok s)
  | swallows => w
  | stalls => w.resumeLater k (.error .stalled)

/-- Whether a word is done when it returns, and what it does. -/
inductive Call where
  /-- The word changes the stack and its caller goes on. -/
  | sync (action : EnvId → Stack → Action Stack)
  /-- The word takes over. -/
  | async (start : World → EnvId → Stack → Continuation → World)

namespace Primitive

/-- How a word is called, when `send` is `startSend`. -/
def callWith (startSend : World → EnvId → Stack → Continuation → World) (p : Primitive) : Call :=
  match p.behaviour with
  | .pure word => .sync fun _ s => liftM (word.apply s)
  | .state word => .sync fun env s => word.apply env s
  | .foreign word => .sync fun _ s => liftM (word.apply s)
  | .control .send => .async startSend
  | .control word => .async word.startPlain
  | .defined block => .async fun w env s k =>
    w.activate env block (some (p.name, .primitive p)) .leave s k
  | .foreignControl word => .async fun w _ s k => word.start w s k

end Primitive

/-- Sends a message: runs what the object answers to it, with the object on top of the stack. A
message that the object does not understand is only reported. -/
def ControlWord.startSend (w : World) (env : EnvId) (s : Stack) (k : Continuation) : World :=
  let op := send.name
  w.withOperands k (sendOperands op s) fun (o, message, rest) =>
    match w.answer? o message with
    | none =>
      (w.report ("send: object does not understand `" ++ message ++ "`")).resumeLater k (.ok s)
    | some (.block id code) => w.runBlock env ⟨id, code⟩ (rest.push (.object o)) k
    | some (.primitive p) =>
      match p.callWith (ControlWord.startPlain .send) with
      | .sync action =>
        let (outcome, w) := (action env (rest.push (.object o))).run w
        w.resumeLater k outcome
      | .async start => start w env (rest.push (.object o)) k
    | some v => w.resumeLater k (.ok (rest.push v))

/-- How a word is called. -/
def Primitive.call (p : Primitive) : Call := p.callWith ControlWord.startSend

end Catena
