import Catena.World.Continuation

/-!
# Cells

What processes share: mailboxes, dataflow variables, objects and the processes themselves. The
operations here change one cell and hand back the wakers that it released; when these are called
is decided elsewhere.
-/

namespace Catena

/-! ## Processes -/

/-- The life of a process. -/
inductive ProcessState where
  /-- Its first turn is still to come. -/
  | waiting
  | running
  /-- Its result is there. -/
  | done
  deriving DecidableEq

/-- A process: where its code runs, its mailbox, and who waits for its result. -/
structure Process where
  env : EnvId
  mailbox : MailboxId
  state : ProcessState
  result : Option Value
  failure : Option Error
  /-- Who waits for the result, the first one first. -/
  notify : List Waker

namespace Process

/-- A process that has not begun. -/
def new (env : EnvId) (mailbox : MailboxId) : Process := ⟨env, mailbox, .waiting, none, none, []⟩

instance : Inhabited Process := ⟨new default default⟩

/-- The first turn of a process. -/
def markRunning (p : Process) : Process :=
  if p.state = .waiting then { p with state := .running } else p

/-- Ends a process and releases everyone who waits for it. A process that is done stays as it
is. -/
def complete (p : Process) (result : Value) (failure : Option Error) : Process × List Waker :=
  if p.state = .done then (p, [])
  else ({ p with state := .done, result := some result, failure, notify := [] }, p.notify)

theorem complete_of_done {p : Process} (h : p.state = .done) (result : Value)
    (failure : Option Error) : p.complete result failure = (p, []) := by
  simp [complete, h]

@[simp] theorem state_complete (p : Process) (result : Value) (failure : Option Error) :
    (p.complete result failure).1.state = .done := by
  by_cases h : p.state = .done <;> simp [complete, h]

/-- Someone more waits for the result. -/
def addNotify (p : Process) (waker : Waker) : Process := { p with notify := p.notify ++ [waker] }

end Process

/-! ## Mailboxes -/

/-- A queue of messages with at most one receiver waiting for the next. -/
structure Mailbox where
  /-- The number of the process that empties it. -/
  owner : Nat
  /-- The messages, the oldest first. -/
  queue : List Value
  receiver : Option Waker

namespace Mailbox

/-- An empty mailbox. -/
def new (owner : Nat) : Mailbox := ⟨owner, [], none⟩

instance : Inhabited Mailbox := ⟨new 0⟩

/-- Appends a message and releases the receiver that waited for one. -/
def post (m : Mailbox) (message : Value) : Mailbox × Option Waker :=
  ({ m with queue := m.queue ++ [message], receiver := none }, m.receiver)

@[simp] theorem queue_post (m : Mailbox) (message : Value) :
    (m.post message).1.queue = m.queue ++ [message] := rfl

@[simp] theorem receiver_post (m : Mailbox) (message : Value) :
    (m.post message).1.receiver = none := rfl

/-- Takes the oldest message off. -/
def take? (m : Mailbox) : Option (Value × Mailbox) :=
  match m.queue with
  | message :: rest => some (message, { m with queue := rest })
  | [] => none

theorem take?_eq_none_iff (m : Mailbox) : m.take? = none ↔ m.queue = [] := by
  cases h : m.queue <;> simp [take?, h]

/-- Puts a message that was taken back in front. -/
def requeue (m : Mailbox) (message : Value) : Mailbox := { m with queue := message :: m.queue }

@[simp] theorem take?_requeue (m : Mailbox) (message : Value) :
    (m.requeue message).take? = some (message, m) := rfl

theorem requeue_of_take? {m rest : Mailbox} {message : Value}
    (h : m.take? = some (message, rest)) : rest.requeue message = m := by
  obtain ⟨owner, queue, receiver⟩ := m
  cases queue with
  | nil => simp [take?] at h
  | cons first queue =>
    simp only [take?, Option.some.injEq, Prod.mk.injEq] at h
    obtain ⟨rfl, rfl⟩ := h
    rfl

/-- Lets a receiver wait, unless one is waiting already. -/
def wait? (m : Mailbox) (waker : Waker) : Option Mailbox :=
  match m.receiver with
  | none => some { m with receiver := some waker }
  | some _ => none

theorem wait?_eq_none_iff (m : Mailbox) (waker : Waker) :
    m.wait? waker = none ↔ m.receiver.isSome := by
  cases h : m.receiver <;> simp [wait?, h]

end Mailbox

/-! ## Dataflow variables -/

/-- A variable that is bound at most once. -/
structure Variable where
  name : Name
  value : Option Value
  /-- Who waits for the value, the first one first. -/
  waiters : List Waker

namespace Variable

/-- An unbound variable. -/
def new (name : Name) : Variable := ⟨name, none, []⟩

instance : Inhabited Variable := ⟨new ""⟩

/-- Binds the variable and releases everyone who waits for it, unless it is bound already. -/
def bind? (v : Variable) (value : Value) : Option (Variable × List Waker) :=
  match v.value with
  | none => some ({ v with value := some value, waiters := [] }, v.waiters)
  | some _ => none

theorem bind?_eq_none_iff (v : Variable) (value : Value) :
    v.bind? value = none ↔ v.value.isSome := by
  cases h : v.value <;> simp [bind?, h]

/-- Someone more waits for the value. -/
def addWaiter (v : Variable) (waker : Waker) : Variable :=
  { v with waiters := v.waiters ++ [waker] }

end Variable

/-! ## Objects -/

/-- Properties, and the vocabulary that answers where these do not. -/
structure Object where
  properties : Bindings Value
  vocabulary : VocabularyId

instance : Inhabited Object := ⟨⟨.empty, default⟩⟩

end Catena
