import Catena.World.Scheduler
import Catena.World.View

/-!
# Commands of an embedding program

An embedding program can queue tasks of its own and work on processes, mailboxes and dataflow
variables directly. `Command` is what it can ask for and `Answer` what it gets back. Source texts in
commands are read when the command is carried out; processes, bare mailboxes and variables are
named by their place among those that the embedding program made.
-/

namespace Catena.Host

/-- A mailbox: one of the bare ones, or that of a process. -/
inductive BoxName where
  | bare (index : Nat)
  | ofProcess (index : Nat)

/-- What can be awaited. -/
inductive Awaited where
  | process (index : Nat)
  | dataflow (index : Nat)

/-- A request of the embedding program. -/
inductive Command where
  /-- Answers with a note that nobody interprets. -/
  | log (note : String)
  /-- Queues commands for a later turn. -/
  | later (task : List Command)
  /-- Queues commands for a turn after a delay in nanoseconds. -/
  | after (delay : Nat) (task : List Command)
  /-- Takes turns until nothing is left to do, or up to a limit. -/
  | run (limit : Option Nat)
  | discard | pending | dispatching | stats | resetStats | started
  | beginEpoch | epoch | abandon (epoch : Nat) | isAbandoned (epoch : Nat)
  | countSpawned | countCompleted | countPosted | countReceived
  | diagnose (text : String) | diagnostics | hasDiagnostics | clearDiagnostics
  /-- Makes a process that runs nothing. -/
  | newProcess
  | process (index : Nat)
  | markRunning (index : Nat)
  | complete (index : Nat) (value : String) (failure : Option String)
  | addNotify (index : Nat) (tag : String)
  /-- Calls `await` on top of a stack. -/
  | await (target : Awaited) (tag stack : String)
  /-- Calls `receive` on a stack that a process owns. -/
  | receive (index : Nat) (tag stack : String)
  /-- Calls a built-in word. -/
  | call (word : Name) (tag stack : String) (owner : Option Nat)
  /-- Makes a bare mailbox under the name of a process. -/
  | newMailbox (owner : Nat)
  | mailbox (box : BoxName)
  | wait (box : BoxName) (tag : String)
  | deliver (box : BoxName) (value : String)
  /-- Appends a message; a receiver that this releases is called with another value, if one is
  given. -/
  | post (box : BoxName) (value : String) (call : Option String)
  | take (box : BoxName)
  | requeue (box : BoxName) (value : String)
  | newVariable (name : Name)
  | dataflow (index : Nat)
  | addWaiter (index : Nat) (tag : String)
  /-- Binds a variable and calls everyone who waited at once. -/
  | bindNow (index : Nat) (value : String)
  /-- Calls `bind` on a stack of the values read. -/
  | bind (index : Nat) (values : String)

instance : Inhabited Command := ⟨.pending⟩

/-- What a command comes back with. -/
inductive Answer where
  | nothing
  | flag (b : Bool)
  | count (n : Nat)
  | note (text : String)
  | texts (lines : List String)
  | stats (stats : Stats)
  | failure (e : Error)
  | view (v : View)
  | stack (views : List View)
  /-- A mailbox, and whether it is empty. -/
  | mailbox (v : View) (isEmpty : Bool)
  /-- A variable, and whether it is bound. -/
  | dataflow (v : View) (isBound : Bool)

/-- An entry of the embedding program's log. -/
inductive Entry where
  /-- The answer to a command that ran inside a task. -/
  | answer (a : Answer)
  /-- A waker was called with a value. -/
  | woken (tag : String) (v : View)
  /-- A continuation was resumed with a stack or a failure. -/
  | resumed (tag : String) (outcome : Except Error (List View))

/-- What the embedding program has made, and what it has logged. -/
structure State where
  /-- Where it calls words. -/
  env : EnvId := default
  processes : Table ProcessId := .empty
  mailboxes : Table MailboxId := .empty
  dataflows : Table VariableId := .empty
  /-- The log, the latest entry first. -/
  log : List Entry := []

end Catena.Host
