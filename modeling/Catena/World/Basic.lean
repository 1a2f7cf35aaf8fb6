import Catena.Host.Command
import Catena.Program.Reading

/-!
# The world

Everything that lives outside the stacks: environments, the snapshots of blocks, vocabularies,
objects, processes, mailboxes and dataflow variables, the tasks that wait for their turn, and what
has been reported and printed. All of it changes only through the functions below.
-/

namespace Catena

/-- A piece of work that runs in one turn. -/
inductive Task where
  /-- Resumes a continuation. -/
  | resume (k : Continuation) (outcome : Outcome)
  /-- Runs a block in an environment made from its snapshot, and the name of the word it belongs to,
  if it belongs to one. -/
  | activate (captured : Bindings Value) (own : Option (Name × Value)) (block : Block) (exit : Exit)
      (stack : Stack) (k : Continuation)
  /-- Begins the body of a process. -/
  | start (process : ProcessId) (code : Code) (stack : Stack)
  /-- Hands a receiver the next message of its mailbox. -/
  | wakeReceiver (mailbox : MailboxId) (waker : Waker)
  /-- Hands one who waited for a variable its value. -/
  | wakeWaiter (waker : Waker) (value : Value)
  /-- Carries out commands of the embedding program. -/
  | script (commands : List Host.Command)

/-- The state of everything outside the stacks. -/
structure World where
  forest : Forest Value := .empty
  /-- The snapshot of every block literal, once it has been taken. -/
  captures : Table (Option (Bindings Value)) := .empty
  /-- How many words have been made. -/
  primitives : Nat := 0
  vocabularies : Table (Bindings Value) := .empty
  objects : Table Object := .empty
  processes : Table Process := .empty
  mailboxes : Table Mailbox := .empty
  dataflows : Table Variable := .empty
  scheduler : Scheduler Task := {}
  /-- Outcomes of evaluations, once they are there. -/
  slots : Table (Option Outcome) := .empty
  /-- Whether a word that nothing binds is an error. -/
  strict : Bool := false
  /-- Reports that interrupted nothing, the latest first. -/
  reports : List String := []
  /-- Lines printed, the latest first. -/
  printed : List String := []
  /-- What belongs to the embedding program. -/
  host : Host.State := {}

instance : Inhabited World := ⟨{}⟩

namespace World

/-! ## Environments -/

/-- Changes the environments. -/
def mapForest (w : World) (f : Forest Value → Forest Value) : World :=
  { w with forest := f w.forest }

/-- What `name` means in an environment. -/
def lookup (w : World) (env : EnvId) (name : Name) : Option Value := w.forest.lookup env name

/-- Binds `name` in the innermost scope of an environment. -/
def define (w : World) (env : EnvId) (name : Name) (v : Value) : World :=
  w.mapForest (·.define env name v)

/-- A new environment with one empty scope. -/
def newRoot (w : World) : World × EnvId :=
  let (forest, env) := w.forest.root
  ({ w with forest }, env)

/-- A new environment with a copy of some bindings as its only scope. -/
def newSeeded (w : World) (bindings : Bindings Value) : World × EnvId :=
  let (forest, env) := w.forest.seeded bindings
  ({ w with forest }, env)

/-- Enters a new scope and remembers the way back. -/
def enterScope (w : World) (env : EnvId) : World × Guard :=
  let (forest, guard) := w.forest.enterScope env
  ({ w with forest }, guard)

/-- Goes the way back. -/
def restore (w : World) (guard : Guard) : World := w.mapForest (·.restore guard)

/-! ## Reports and output -/

/-- Reports something without interrupting anything. -/
def report (w : World) (message : String) : World := { w with reports := message :: w.reports }

/-- The reports since they were last taken, the first one first; they are gone afterwards. -/
def takeReports (w : World) : World × List String := ({ w with reports := [] }, w.reports.reverse)

/-- Prints a line. -/
def printLine (w : World) (line : String) : World := { w with printed := line :: w.printed }

/-- The lines printed since they were last taken, the first one first; they are gone afterwards. -/
def takePrinted (w : World) : World × List String := ({ w with printed := [] }, w.printed.reverse)

/-- Adds an entry to the embedding program's log. -/
def addEntry (w : World) (entry : Host.Entry) : World :=
  { w with host := { w.host with log := entry :: w.host.log } }

/-- The log since it was last taken, the first entry first; it is empty afterwards. -/
def takeLog (w : World) : World × List Host.Entry :=
  ({ w with host := { w.host with log := [] } }, w.host.log.reverse)

/-- Leaves the innermost scope of an environment; leaving the last one is only reported. -/
def leave (w : World) (env : EnvId) : World :=
  match w.forest.leave? env with
  | some forest => { w with forest }
  | none => w.report "leave: no scope to leave at the root frame"

/-! ## Tasks -/

/-- Changes the scheduler. -/
def mapScheduler (w : World) (f : Scheduler Task → Scheduler Task) : World :=
  { w with scheduler := f w.scheduler }

/-- Changes the counters. -/
def count (w : World) (f : Stats → Stats) : World := w.mapScheduler (·.count f)

/-- Queues a task for a later turn. -/
def later (w : World) (task : Task) : World := w.mapScheduler (·.later task)

/-- Resumes a continuation on a later turn. -/
def resumeLater (w : World) (k : Continuation) (outcome : Outcome) : World :=
  w.later (.resume k outcome)

/-- Whether an epoch has been given up. -/
def isAbandoned (w : World) (epoch : Nat) : Bool := w.scheduler.isAbandoned epoch

/-- The counters. -/
def stats (w : World) : Stats := w.scheduler.stats

/-! ## Programs and snapshots -/

/-- Gives the blocks of a program their identities. None of them has a snapshot yet. -/
def load (w : World) (program : Program) : World × Code :=
  let (code, next) := Datum.labelAll BlockId.mk program w.captures.size
  ({ w with captures := w.captures.grow (next - w.captures.size) none }, code)

/-- The values that a source text writes; a text that is no program writes none. -/
def readValues (w : World) (source : String) : World × List Value :=
  match Program.read source with
  | .ok program =>
    let (w, code) := w.load program
    (w, code.map .datum)
  | .error _ => (w, [])

/-- The first value that a source text writes, or `nil`. -/
def readValue (w : World) (source : String) : World × Value :=
  let (w, values) := w.readValues source
  (w, values.headD .nil)

/-- The snapshot of a block, if it has been taken. -/
def captured? (w : World) (block : BlockId) : Option (Bindings Value) := w.captures.get block.index

/-- The bindings that an environment has for the words of some code, nested blocks included. -/
def capture (w : World) (env : EnvId) (code : Code) : Bindings Value :=
  Datum.collectAll (w.lookup env) .empty code

/-- The snapshot of a block: the one it has, or else one taken in `env` now. -/
def instantiate (w : World) (env : EnvId) (block : Block) : World × Bindings Value :=
  match w.captured? block.id with
  | some captured => (w, captured)
  | none =>
    let captured := w.capture env block.code
    ({ w with captures := w.captures.set block.id.index (some captured) }, captured)

/-! ## Words, vocabularies and objects -/

/-- Makes a word. -/
def newPrimitive (w : World) (name : Name) (behaviour : Behaviour) : World × Primitive :=
  ({ w with primitives := w.primitives + 1 }, ⟨w.primitives, name, behaviour⟩)

/-- Makes a word and binds it to its name. -/
def defineWord (w : World) (env : EnvId) (name : Name) (behaviour : Behaviour) : World :=
  let (w, primitive) := w.newPrimitive name behaviour
  w.define env name (.primitive primitive)

/-- The bindings of a vocabulary. -/
def vocabulary (w : World) (v : VocabularyId) : Bindings Value := w.vocabularies.get v.index

/-- Makes a vocabulary. -/
def newVocabulary (w : World) (bindings : Bindings Value) : World × VocabularyId :=
  let (vocabularies, number) := w.vocabularies.add bindings
  ({ w with vocabularies }, ⟨number⟩)

/-- An object. -/
def object (w : World) (o : ObjectId) : Object := w.objects.get o.index

/-- Makes an object without properties. -/
def newObject (w : World) (vocabulary : VocabularyId) : World × ObjectId :=
  let (objects, number) := w.objects.add ⟨.empty, vocabulary⟩
  ({ w with objects }, ⟨number⟩)

/-- Sets a property of an object. -/
def setProperty (w : World) (o : ObjectId) (key : Name) (v : Value) : World :=
  { w with objects := w.objects.modify o.index fun object =>
      { object with properties := object.properties.insert key v } }

/-- What an object answers to a message: its own property, or else what its vocabulary has. -/
def answer? (w : World) (o : ObjectId) (message : Name) : Option Value :=
  let object := w.object o
  (object.properties.get? message).or ((w.vocabulary object.vocabulary).get? message)

/-! ## Cells -/

/-- A process. -/
def process (w : World) (p : ProcessId) : Process := w.processes.get p.index

/-- Changes a process. -/
def modifyProcess (w : World) (p : ProcessId) (f : Process → Process) : World :=
  { w with processes := w.processes.modify p.index f }

/-- A mailbox. -/
def mailbox (w : World) (m : MailboxId) : Mailbox := w.mailboxes.get m.index

/-- Changes a mailbox. -/
def setMailbox (w : World) (m : MailboxId) (mailbox : Mailbox) : World :=
  { w with mailboxes := w.mailboxes.set m.index mailbox }

/-- Makes a mailbox. -/
def newMailbox (w : World) (owner : Nat) : World × MailboxId :=
  let (mailboxes, number) := w.mailboxes.add (.new owner)
  ({ w with mailboxes }, ⟨number⟩)

/-- Makes a process with a mailbox of its own. -/
def newProcess (w : World) (env : EnvId) : World × ProcessId :=
  let p : ProcessId := ⟨w.processes.size⟩
  let (w, mailbox) := w.newMailbox p.number
  ({ w with processes := w.processes.push (.new env mailbox) }, p)

/-- A dataflow variable. -/
def dataflow (w : World) (v : VariableId) : Variable := w.dataflows.get v.index

/-- Changes a dataflow variable. -/
def modifyVariable (w : World) (v : VariableId) (f : Variable → Variable) : World :=
  { w with dataflows := w.dataflows.modify v.index f }

/-- Makes an unbound dataflow variable. -/
def newVariable (w : World) (name : Name) : World × VariableId :=
  let (dataflows, number) := w.dataflows.add (.new name)
  ({ w with dataflows }, ⟨number⟩)

/-! ## Outcomes -/

/-- Makes an empty slot for an outcome. -/
def newSlot (w : World) : World × Nat :=
  let (slots, number) := w.slots.add none
  ({ w with slots }, number)

/-- Puts an outcome into its slot. -/
def fillSlot (w : World) (index : Nat) (outcome : Outcome) : World :=
  { w with slots := w.slots.set index (some outcome) }

/-- The outcome in a slot. -/
def outcome? (w : World) (index : Nat) : Option Outcome := w.slots.get index

end World

end Catena
