import Catena.Words.Control

/-!
# Running programs

`World.run` goes through the code of a program: a word is looked up and called if it is bound to a
word, or else pushes what it is bound to; a block takes its snapshot and is pushed; any other datum
is pushed. A word that takes over control ends the run for this turn, with the rest of the code
put in front of the continuation.

`World.resume` goes through the frames of a continuation. It calls `run`, and `run` never calls it:
what is to be resumed goes through the queue. So both are recursions on their lists.
-/

namespace Catena

/-- How a run ended in this turn. -/
inductive Completion where
  /-- At the end of the code, with nobody waiting for the stack. -/
  | returned (stack : Stack)
  /-- Control has passed on, or the outcome is on its way to the continuation. -/
  | suspended
  /-- By a failure that nobody waits for. -/
  | failed (e : Error)

namespace World

/-- What a word stands for. A word that nothing binds stands for `nil` and is reported, or is an
error under strict resolution. -/
def resolve (w : World) (env : EnvId) (name : Name) : World × Except Error Value :=
  match w.lookup env name with
  | some v => (w, .ok v)
  | none =>
    if w.strict then (w, .error (.unresolvedWord name))
    else (w.report ("unresolved word `" ++ name ++ "`"), .ok .nil)

/-- What one item of a program amounts to: a value to push, or a word to call. -/
inductive Step where
  | push (v : Value)
  | call (p : Primitive)

/-- The meaning of one item of a program. -/
def decode (w : World) (env : EnvId) : Datum BlockId → World × Except Error Step
  | .word name =>
    match w.resolve env name with
    | (w, .ok (.primitive p)) => (w, .ok (.call p))
    | (w, .ok v) => (w, .ok (.push v))
    | (w, .error e) => (w, .error e)
  | .block id body => ((w.instantiate env ⟨id, body⟩).1, .ok (.push (.block id body)))
  | d => (w, .ok (.push (.datum d)))

/-- Ends a run by a failure. -/
def failRun (w : World) (e : Error) : Option Continuation → World × Completion
  | some k => (w.resumeLater k (.error e), .suspended)
  | none => (w, .failed e)

/-- Runs code on a stack. With a continuation, that is where the outcome goes, on a later turn. -/
def run (env : EnvId) (k : Option Continuation) : Code → World → Stack → World × Completion
  | [], w, stack =>
    match k with
    | some k => (w.resumeLater k (.ok stack), .suspended)
    | none => (w, .returned stack)
  | d :: rest, w, stack =>
    match w.decode env d with
    | (w, .error e) => w.failRun e k
    | (w, .ok (.push v)) => run env k rest w (stack.push v)
    | (w, .ok (.call p)) =>
      match p.call with
      | .sync action =>
        match (action env stack).run w with
        | (.ok stack, w) => run env k rest w stack
        | (.error e, w) => w.failRun e k
      | .async start => (start w env stack (.resumeAt env rest k), .suspended)

/-- Runs code for a continuation. -/
def runThen (w : World) (env : EnvId) (code : Code) (stack : Stack) (k : Continuation) : World :=
  (run env (some k) code w stack).1

/-- A failure in a run that nobody waits for. -/
def reportDetached (w : World) (e : Error) : World :=
  w.report ("detached run failed: " ++ e.message)

/-- Ends a process with an outcome: its result is the top of the stack, or `nil` if there is none
or the body failed. Everyone who waits for it is called. -/
def finishProcess (w : World) (p : ProcessId) (outcome : Outcome) : World :=
  let (result, failure) : Value × Option Error := match outcome with
    | .ok stack => (stack.top?.getD .nil, none)
    | .error e => (.nil, some e)
  let (process, wakers) := (w.process p).complete result failure
  let w := (w.count Stats.completed).modifyProcess p fun _ => process
  wakers.foldl (fun w waker => w.wakeJoiner result waker) w

/-- Delivers an outcome where it goes in the end. -/
def deliverTo (w : World) (outcome : Outcome) : Sink → World
  | .slot index => w.fillSlot index outcome
  | .finish p => w.finishProcess p outcome
  | .report tag => w.addEntry (.resumed tag (outcome.map w.viewStack))
  | .detached env code =>
    match outcome with
    | .error e => w.reportDetached e
    | .ok stack =>
      match run env none code w stack with
      | (w, .failed e) => w.reportDetached e
      | (w, _) => w

/-- Leaves the scope of a block body. If its definitions are wanted and the body succeeded, they
are put on the stack as a vocabulary. -/
def exitScope (w : World) (kind : Exit) (guard : Guard) (outcome : Outcome) : World × Outcome :=
  match kind, outcome with
  | .harvest, .ok stack =>
    let (w, v) := w.newVocabulary (w.forest.innermost guard.env)
    (w.restore guard, .ok (stack.push (.vocabulary v)))
  | _, outcome => (w.restore guard, outcome)

/-- Resumes a continuation with an outcome, now. -/
def resumeFrames (sink : Sink) : List Frame → World → Outcome → World
  | [], w, outcome => w.deliverTo outcome sink
  | .resume env code :: frames, w, outcome =>
    match outcome with
    | .ok stack => w.runThen env code stack ⟨frames, sink⟩
    | .error e => resumeFrames sink frames w (.error e)
  | .exit kind guard :: frames, w, outcome =>
    let (w, outcome) := w.exitScope kind guard outcome
    resumeFrames sink frames w outcome
  | .again env block remaining :: frames, w, outcome =>
    match outcome with
    | .ok stack => w.repeatBlock env block remaining stack ⟨frames, sink⟩
    | .error e => resumeFrames sink frames w (.error e)

/-- Resumes a continuation with an outcome, now. -/
def resume (w : World) (k : Continuation) (outcome : Outcome) : World :=
  resumeFrames k.sink k.frames w outcome

/-- Calls one who waited for a variable, in its own turn. -/
def wakeWaiter (w : World) (value : Value) : Waker → World
  | .resume epoch stack k => if w.isAbandoned epoch then w else w.resume k (.ok (stack.push value))
  | .report tag => w.addEntry (.woken tag (w.view value))

/-- Calls a receiver with a message, in its own turn. A receiver whose epoch has been given up does
not take the message: it goes back to the head of the mailbox. -/
def wakeReceiver (w : World) (m : MailboxId) (message : Value) : Waker → World
  | .resume epoch stack k =>
    if w.isAbandoned epoch then w.setMailbox m ((w.mailbox m).requeue message)
    else (w.count Stats.received).resume k (.ok (stack.push message))
  | .report tag => w.addEntry (.woken tag (w.view message))

/-- Hands a receiver the next message. If the mailbox has been emptied in the meantime, the receiver
goes back to waiting. -/
def wakeNext (w : World) (m : MailboxId) (waker : Waker) : World :=
  match (w.mailbox m).take? with
  | some (message, mailbox) => (w.setMailbox m mailbox).wakeReceiver m message waker
  | none =>
    match (w.mailbox m).wait? waker with
    | some mailbox => w.setMailbox m mailbox
    | none =>
      w.report ("mailbox " ++ toString (w.mailbox m).owner
        ++ ": woken receiver displaced by another")

/-- Runs a block body in a new environment: its snapshot, the word it belongs to, and an empty
scope on top. -/
def runActivation (w : World) (captured : Bindings Value) (own : Option (Name × Value))
    (block : Block) (exit : Exit) (stack : Stack) (k : Continuation) : World :=
  let (w, env) := w.newSeeded captured
  let w := match own with
    | some (name, word) => w.define env name word
    | none => w
  let (w, guard) := w.enterScope env
  w.runThen env block.code stack (k.push (.exit exit guard))

/-- Runs the body of a process. -/
def runProcess (w : World) (p : ProcessId) (code : Code) (stack : Stack) : World :=
  let w := w.modifyProcess p Process.markRunning
  w.runThen (w.process p).env code stack (.deliver (.finish p))

end World

end Catena
