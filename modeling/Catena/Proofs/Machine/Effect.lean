import Catena.Session.Interpreter

/-!
# Effects

What can happen to a world, one thing at a time. Running a program, taking a turn and evaluating a
source text are long computations, but all they ever do to the world is a sequence of effects
(`World.replay`). So an invariant of the world is proved once for each effect, and what a run has
done can be read off the list of its effects.

An effect is either what a word does, or what becomes of a continuation, or what a turn begins
with, or what happens between turns. `World.apply` says what each of them changes; it only calls the
functions that running programs call.
-/

namespace Catena

/-- One thing that happens to a world. -/
inductive Effect where
  -- What words do.
  | report (message : String)
  | print (line : String)
  /-- A block gets its snapshot, unless it has one. -/
  | snapshot (env : EnvId) (block : Block)
  | define (env : EnvId) (name : Name) (v : Value)
  /-- A word is made and bound to its name. -/
  | defineWord (env : EnvId) (name : Name) (behaviour : Behaviour)
  | adopt (env : EnvId) (v : VocabularyId)
  | newObject (v : VocabularyId)
  | setProperty (o : ObjectId) (key : Name) (v : Value)
  /-- A process is made from a block and its snapshot. -/
  | spawn (captured : Bindings Value) (block : Block) (parent : Option ProcessId)
  | deliver (m : MailboxId) (message : Value)
  | newVariable (name : Name)
  | bind (v : VariableId) (value : Value)
  -- What becomes of a continuation.
  | later (task : Task)
  | schedule (due : Nat) (task : Task)
  | awaitVariable (v : VariableId) (stack : Stack) (k : Continuation)
  | awaitProcess (p : ProcessId) (stack : Stack) (k : Continuation)
  | receive (stack : Stack) (k : Continuation)
  | fillSlot (index : Nat) (outcome : Outcome)
  | finish (p : ProcessId) (outcome : Outcome)
  /-- The scope of a block body is left. -/
  | restore (guard : Guard)
  /-- The scope of a block body is left, and what it defined becomes a vocabulary. -/
  | harvest (guard : Guard)
  -- What a turn begins with.
  | beginTurn
  /-- The environment of a block body is made. -/
  | enter (captured : Bindings Value) (own : Option (Name × Value)) (block : Block)
  | markRunning (p : ProcessId)
  | wakeWaiter (waker : Waker)
  | wakeReceiver (m : MailboxId) (waker : Waker)
  -- What happens between turns.
  | endTurn
  /-- Time goes by. The lapses are how much of it goes by before each of the next turns. -/
  | pass (elapsed : Nat) (lapses : List Nat)
  | settle
  | startClock
  | abandon (epoch : Nat)
  | discard
  | beginEpoch
  /-- An evaluation begins. -/
  | launch (strict : Bool) (program : Program)
  /-- The environment of a new interpreter is made. -/
  | install

namespace Process

theorem env_markRunning (p : Process) : p.markRunning.env = p.env := by
  unfold markRunning
  split <;> rfl

theorem mailbox_markRunning (p : Process) : p.markRunning.mailbox = p.mailbox := by
  unfold markRunning
  split <;> rfl

theorem result_markRunning (p : Process) : p.markRunning.result = p.result := by
  unfold markRunning
  split <;> rfl

theorem notify_markRunning (p : Process) : p.markRunning.notify = p.notify := by
  unfold markRunning
  split <;> rfl

/-- The first turn of a process is not its end. -/
theorem done_markRunning (p : Process) : p.markRunning.state = .done ↔ p.state = .done := by
  unfold markRunning
  split <;> simp_all

end Process

namespace World

theorem processes_instantiate (w : World) (env : EnvId) (block : Block) :
    (w.instantiate env block).1.processes = w.processes := by
  unfold instantiate
  split <;> rfl

/-- The stack that a process begins with: its parent, if it has one, and itself. -/
def firstStack (parent : Option ProcessId) (p : ProcessId) : Stack :=
  let above : Value := match parent with
    | some parent => .process parent
    | none => .nil
  ((Stack.ownedBy p).push above).push (.process p)

/-- Makes a process from a block and its snapshot; its body starts on a later turn. -/
def startProcess (w : World) (captured : Bindings Value) (block : Block)
    (parent : Option ProcessId) : World × ProcessId :=
  let (w, own) := w.newSeeded captured
  let (w, p) := w.newProcess own
  ((w.count Stats.spawned).later (.start p block.code (firstStack parent p)), p)

theorem spawn_eq (w : World) (env : EnvId) (block : Block) (parent : Option ProcessId) :
    w.spawn env block parent =
      (w.instantiate env block).1.startProcess (w.instantiate env block).2 block parent := rfl

/-- Makes the environment of a block body: the snapshot, the word it belongs to, and an empty scope
on top, with the way back from it. -/
def openActivation (w : World) (captured : Bindings Value) (own : Option (Name × Value)) :
    World × EnvId × Guard :=
  let (w, env) := w.newSeeded captured
  let w := match own with
    | some (name, word) => w.define env name word
    | none => w
  let (w, guard) := w.enterScope env
  (w, env, guard)

theorem runActivation_eq (w : World) (captured : Bindings Value) (own : Option (Name × Value))
    (block : Block) (exit : Exit) (stack : Stack) (k : Continuation) :
    w.runActivation captured own block exit stack k =
      (w.openActivation captured own).1.runThen (w.openActivation captured own).2.1 block.code stack
        (k.push (.exit exit (w.openActivation captured own).2.2)) := rfl

/-- Offers a waiting receiver the next message. It takes the message unless its epoch has been given
up; a message that it does not take goes back to the head of the mailbox. -/
def offer (w : World) (m : MailboxId) (epoch : Nat) (waker : Waker) : World × Option Value :=
  match (w.mailbox m).take? with
  | some (message, mailbox) =>
    let w := w.setMailbox m mailbox
    if w.isAbandoned epoch then (w.setMailbox m ((w.mailbox m).requeue message), none)
    else (w.count Stats.received, some message)
  | none =>
    match (w.mailbox m).wait? waker with
    | some mailbox => (w.setMailbox m mailbox, none)
    | none =>
      (w.report ("mailbox " ++ toString (w.mailbox m).owner
        ++ ": woken receiver displaced by another"), none)

theorem wakeNext_eq (w : World) (m : MailboxId) (epoch : Nat) (stack : Stack) (k : Continuation) :
    w.wakeNext m (.resume epoch stack k) =
      match w.offer m epoch (.resume epoch stack k) with
      | (w, some message) => w.resume k (.ok (stack.push message))
      | (w, none) => w := by
  unfold wakeNext offer
  cases (w.mailbox m).take? with
  | some taken =>
    obtain ⟨message, mailbox⟩ := taken
    simp only [wakeReceiver]
    split <;> rfl
  | none =>
    simp only
    cases (w.mailbox m).wait? (.resume epoch stack k) <;> rfl

/-- The beginning of an evaluation: its program is loaded, it gets an epoch and a slot for its
outcome. -/
def launch (w : World) (strict : Bool) (program : Program) : World :=
  ({ (w.load program).1 with strict := strict }.mapScheduler Scheduler.beginEpoch).newSlot.1

/-- What an effect changes. -/
def apply (w : World) : Effect → World
  | .report message => w.report message
  | .print line => w.printLine line
  | .snapshot env block => (w.instantiate env block).1
  | .define env name v => w.define env name v
  | .defineWord env name behaviour => w.defineWord env name behaviour
  | .adopt env v => w.mapForest (·.adopt env (w.vocabulary v))
  | .newObject v => (w.newObject v).1
  | .setProperty o key v => w.setProperty o key v
  | .spawn captured block parent => (w.startProcess captured block parent).1
  | .deliver m message => w.deliver m message
  | .newVariable name => (w.newVariable name).1
  | .bind v value => w.bind v value
  | .later task => w.later task
  | .schedule due task => w.mapScheduler (·.schedule due task)
  | .awaitVariable v stack k => w.awaitVariable v stack k
  | .awaitProcess p stack k => w.awaitProcess p stack k
  | .receive stack k => w.receive stack k
  | .fillSlot index outcome => w.fillSlot index outcome
  | .finish p outcome => w.finishProcess p outcome
  | .restore guard => w.restore guard
  | .harvest guard => (w.newVocabulary (w.forest.innermost guard.env)).1.restore guard
  | .beginTurn => w.mapScheduler fun s => s.beginTurn s.ready.tail
  | .enter captured own _ => (w.openActivation captured own).1
  | .markRunning p => w.modifyProcess p Process.markRunning
  | .wakeWaiter _ => w
  | .wakeReceiver m waker =>
    match waker with
    | .resume epoch _ _ => (w.offer m epoch waker).1
    | .report _ => w.wakeNext m waker
  | .endTurn => w.mapScheduler Scheduler.endTurn
  | .pass elapsed lapses => w.mapScheduler (·.pass elapsed lapses)
  | .settle => w.mapScheduler Scheduler.settle
  | .startClock => w.mapScheduler ({ · with started := true })
  | .abandon epoch => w.mapScheduler (·.abandon epoch)
  | .discard => w.mapScheduler Scheduler.discard
  | .beginEpoch => w.mapScheduler Scheduler.beginEpoch
  | .launch strict program => w.launch strict program
  | .install => w.newBuiltinRoot.1

/-- Before a turn, time goes by and then the world settles. -/
theorem tick_eq (w : World) :
    w.tick =
      (w.apply (.pass (w.scheduler.lapses.headD 0) w.scheduler.lapses.tail)).apply .settle := rfl

/-- The world after a sequence of effects. -/
def replay (w : World) (effects : List Effect) : World := effects.foldl apply w

@[simp] theorem replay_nil (w : World) : w.replay [] = w := rfl

@[simp] theorem replay_cons (w : World) (e : Effect) (es : List Effect) :
    w.replay (e :: es) = (w.apply e).replay es := rfl

@[simp] theorem replay_append (w : World) (es fs : List Effect) :
    w.replay (es ++ fs) = (w.replay es).replay fs := List.foldl_append

/-- What each of a sequence of effects keeps holds after all of them. -/
theorem replay_induct {I : World → Prop} {w : World} {es : List Effect} (h : I w)
    (hkeep : ∀ v, ∀ e ∈ es, I v → I (v.apply e)) : I (w.replay es) :=
  List.foldlRecOn es apply h fun v hv e he => hkeep v e he hv

end World

end Catena
