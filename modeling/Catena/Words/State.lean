import Catena.Words.Pure
import Catena.World.Display

/-!
# Synchronous words that change the world

Definitions, vocabularies and objects, processes, messages, dataflow variables and output. Such a
word is an `Action`: it returns the stack to go on with or fails, and may change the world either
way. The words here all check every operand before they change anything.
-/

namespace Catena

/-- A computation that changes the world and can fail. -/
abbrev Action := ExceptT Error (StateM World)

namespace World

/-- Calls one who waited for the result of a process: it is resumed on a later turn, unless its
epoch has been given up. -/
def wakeJoiner (w : World) (result : Value) : Waker → World
  | .resume epoch stack k =>
    if w.isAbandoned epoch then w else w.resumeLater k (.ok (stack.push result))
  | .report tag => w.addEntry (.woken tag (w.view result))

/-- Spawns a block as a process, which starts on a later turn with its parent and itself on the
stack. The process sees the snapshot of the block and nothing that is defined later. -/
def spawn (w : World) (env : EnvId) (block : Block) (parent : Option ProcessId) :
    World × ProcessId :=
  let (w, captured) := w.instantiate env block
  let (w, own) := w.newSeeded captured
  let (w, p) := w.newProcess own
  let above : Value := match parent with
    | some parent => .process parent
    | none => .nil
  let stack := ((Stack.ownedBy p).push above).push (.process p)
  ((w.count Stats.spawned).later (.start p block.code stack), p)

/-- Appends a message to a mailbox. A receiver that waits for one is woken on a later turn. -/
def deliver (w : World) (m : MailboxId) (message : Value) : World :=
  let (mailbox, receiver) := (w.mailbox m).post message
  let w := (w.count Stats.posted).setMailbox m mailbox
  match receiver with
  | some waker => w.later (.wakeReceiver m waker)
  | none => w

/-- Binds a variable, unless it is bound already, and wakes everyone who waits for it, each on a
later turn of its own. -/
def bind (w : World) (v : VariableId) (value : Value) : World :=
  match (w.dataflow v).bind? value with
  | some (cell, waiters) =>
    waiters.foldl (fun w waker => w.later (.wakeWaiter waker value))
      (w.modifyVariable v fun _ => cell)
  | none => w

end World

namespace StateWord

/-- Gives a block a name that runs it. -/
def defunction (env : EnvId) (name : Name) (block : Block) (w : World) : World :=
  let (w, _) := w.instantiate env block
  w.defineWord env name (.defined block)

/-- The mailbox that a value stands for in `post`. -/
def target (op : String) (w : World) : Value → Except Error MailboxId
  | .process p => .ok (w.process p).mailbox
  | .mailbox m => .ok m
  | v => .error (.typeMismatch op .process v.kind)

/-- What `get` finds under a key. -/
def property? (op : String) (w : World) (key : Name) : Value → Except Error (Option Value)
  | .object o => .ok (w.answer? o key)
  | .vocabulary v => .ok ((w.vocabulary v).get? key)
  | v => .error (.typeMismatch op .object v.kind)

/-- What a state word makes of the stack, and what it changes. -/
def apply (word : StateWord) (env : EnvId) (s : Stack) : Action Stack :=
  let op := word.name
  match word with
  | define => do
    let name ← s.peekSymbol op 0
    let (value, _, rest) ← s.takeTwo op
    modify (·.define env name value)
    return rest
  | defun => do
    let name ← s.peekSymbol op 0
    let block ← s.peekBlock op 1
    let rest ← s.dropTop op 2
    modify (defunction env name block)
    return rest
  | use => do
    let v ← s.peekVocabulary op 0
    let rest ← s.dropTop op 1
    modify fun w => w.mapForest (·.adopt env (w.vocabulary v))
    return rest
  | new => do
    let v ← s.peekVocabulary op 0
    let rest ← s.dropTop op 1
    let o ← modifyGet fun w => (w.newObject v).swap
    return rest.push (.object o)
  | get => do
    let key ← s.peekSymbol op 0
    let found ← property? op (← MonadState.get) key (← s.peek op 1)
    let rest ← s.dropTop op 2
    return rest.push (found.getD .nil)
  | put => do
    let key ← s.peekSymbol op 0
    let o ← s.peekObject op 1
    let (value, _, _, rest) ← s.takeThree op
    modify (·.setProperty o key value)
    return rest
  | go => do
    let block ← s.peekBlock op 0
    let rest ← s.dropTop op 1
    let p ← modifyGet fun w => (w.spawn env block s.owner).swap
    return rest.push (.process p)
  | isDone => do
    let p ← s.peekProcess op 0
    let rest ← s.dropTop op 1
    return rest.push (.bool (((← MonadState.get).process p).state = .done))
  | post => do
    let m ← target op (← MonadState.get) (← s.peek op 0)
    let (message, _, rest) ← s.takeTwo op
    modify (·.deliver m message)
    return rest
  | mailbox =>
    match s.owner with
    | some p => do return s.push (.mailbox ((← MonadState.get).process p).mailbox)
    | none => throw (.noOwningProcess op)
  | dataflow => do
    let name ← s.peekSymbol op 0
    let rest ← s.dropTop op 1
    let v ← modifyGet fun w => (w.newVariable name).swap
    return rest.push (.dataflow v)
  | bind => do
    let v ← s.peekDataflow op 0
    let (value, _, rest) ← s.takeTwo op
    modify (·.bind v value)
    return rest
  | isBound => do
    let v ← s.peekDataflow op 0
    let rest ← s.dropTop op 1
    return rest.push (.bool ((← MonadState.get).dataflow v).value.isSome)
  | print => do
    let (value, rest) ← s.pop op
    modify fun w => w.printLine (match value with
      | .text line => line
      | value => w.display value)
    return rest
  | render => do
    let (value, rest) ← s.pop op
    return rest.push (.text ((← MonadState.get).display value))

end StateWord

/-- What a foreign word makes of the stack. -/
def ForeignWord.apply (word : ForeignWord) (s : Stack) : Except Error Stack :=
  match word with
  | pushes x => .ok (s.push (.number x))
  | refuses op reason => .error (.invalidArgument op (.stated reason))

end Catena
