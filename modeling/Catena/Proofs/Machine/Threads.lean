import Catena.Proofs.Machine.Evaluations
import Catena.Proofs.Machine.Mailboxes

/-!
# No continuation is lost and none is doubled

A thread that has not come to its end has exactly one continuation. It is at work, or it is held in
one place: in a task, or by a waker in a cell. To see this we count. `World.held` is the number of
places where a continuation of a thread is held; an effect changes it by what it is given by the
thread at work, what it hands over to be worked on, and what it loses (`conserves`).
-/

namespace Catena

/-! ## Counting -/

/-- Whether a task goes on with a thread. -/
def Task.isOf (t : Thread) (task : Task) : Bool := decide (task.thread? = some t)

/-- Whether a thread waits by this waker. -/
def Waker.isOf (t : Thread) (waker : Waker) : Bool := decide (waker.thread? = some t)

/-- Whether a continuation is the rest of a thread. -/
def Continuation.isOf (t : Thread) (k : Continuation) : Bool := decide (k.thread? = some t)

/-- Whether a thread is at work. -/
def Control.isOf (t : Thread) (c : Control) : Bool := decide (c.thread? = some t)

section IsOf

variable (t : Thread)

@[simp] theorem Task.isOf_resume (k : Continuation) (outcome : Outcome) :
    Task.isOf t (.resume k outcome) = k.isOf t := rfl

@[simp] theorem Task.isOf_activate (captured : Bindings Value) (own : Option (Name × Value))
    (block : Block) (exit : Exit) (s : Stack) (k : Continuation) :
    Task.isOf t (.activate captured own block exit s k) = k.isOf t := rfl

@[simp] theorem Task.isOf_wakeWaiter (waker : Waker) (value : Value) :
    Task.isOf t (.wakeWaiter waker value) = waker.isOf t := rfl

@[simp] theorem Task.isOf_wakeReceiver (m : MailboxId) (waker : Waker) :
    Task.isOf t (.wakeReceiver m waker) = waker.isOf t := rfl

@[simp] theorem Waker.isOf_resume (epoch : Nat) (s : Stack) (k : Continuation) :
    Waker.isOf t (.resume epoch s k) = k.isOf t := rfl

@[simp] theorem Waker.isOf_report (tag : String) : Waker.isOf t (.report tag) = false := by
  simp [isOf, Waker.thread?]

@[simp] theorem Continuation.isOf_push (k : Continuation) (frame : Frame) :
    (k.push frame).isOf t = k.isOf t := rfl

@[simp] theorem Control.isOf_rest : Control.isOf t .rest = false := by
  simp [isOf, Control.thread?]

@[simp] theorem Control.isOf_run (env : EnvId) (code : Code) (s : Stack) (k : Continuation) :
    Control.isOf t (.run env code s k) = k.isOf t := rfl

@[simp] theorem Control.isOf_resume (k : Continuation) (outcome : Outcome) :
    Control.isOf t (.resume k outcome) = k.isOf t := rfl

end IsOf

namespace World

/-- The number of places where a continuation of a thread is held. -/
def held (w : World) (t : Thread) : Nat :=
  w.scheduler.ready.countP (Task.isOf t) + w.scheduler.timers.countP (fun timer => timer.task.isOf t)
    + w.dataflows.total (fun cell => cell.waiters.countP (Waker.isOf t))
    + w.processes.total (fun process => process.notify.countP (Waker.isOf t))
    + w.mailboxes.total (fun mailbox => mailbox.receiver.toList.countP (Waker.isOf t))

/-- Whether a thread has begun and not come to its end: the outcome of an evaluation has not been
delivered, or a process is not done. -/
def isUnfinished (w : World) : Thread → Bool
  | .main slot =>
    match w.slots.get? slot with
    | some none => true
    | _ => false
  | .process p =>
    match w.processes.get? p.index with
    | some process => decide (process.state ≠ .done)
    | none => false

variable {w w' : World} {t : Thread}

/-- A thread that is not held has no continuation in any place. -/
theorem holders_of_held_eq_zero (h : w.held t = 0) :
    Holders (fun _ _ => True) (fun task => task.thread? ≠ some t)
      (fun _ waker => waker.thread? ≠ some t) w := by
  have waiting : ∀ {α : Type} [Inhabited α] {table : Table α} {f : α → List Waker},
      table.total (fun a => (f a).countP (Waker.isOf t)) = 0 →
        table.All fun _ a => ∀ waker ∈ f a, waker.thread? ≠ some t := by
    intro α _ table f hz i a hg waker hw ht
    have hle := Table.le_total (fun a => (f a).countP (Waker.isOf t)) (Table.lt_of_get? hg)
    rw [Table.get_eq_of_get? hg, hz] at hle
    exact List.countP_eq_zero.1 (Nat.le_zero.1 hle) waker hw (decide_eq_true ht)
  simp only [held, Nat.add_eq_zero_iff] at h
  obtain ⟨⟨⟨⟨hr, ht⟩, hd⟩, hp⟩, hm⟩ := h
  exact {
    ready := fun task hk htask => List.countP_eq_zero.1 hr task hk (decide_eq_true htask)
    timers := fun timer hk htask => List.countP_eq_zero.1 ht timer hk (decide_eq_true htask)
    waiters := waiting hd
    notify := waiting hp
    receivers := fun i mailbox hg waker hw => waiting hm i mailbox hg waker (Option.mem_toList.2 hw)
    bound := fun _ _ _ _ _ => trivial
    results := fun _ _ _ _ _ => trivial
    messages := fun _ _ _ _ _ => trivial }

theorem held_sameCells (h : w.SameCells w') : w'.held t = w.held t := by
  simp only [held, h.ready, h.timers, h.dataflows, h.processes, h.mailboxes]

theorem held_queues {ts : List Task} (h : w.Queues ts w') :
    w'.held t = w.held t + ts.countP (Task.isOf t) := by
  simp only [held, h.ready, h.timers, h.dataflows, h.processes, h.mailboxes, List.countP_append]
  omega

theorem held_modifyVariable {v : VariableId} (f : Variable → Variable)
    (h : v.index < w.dataflows.size) :
    (w.modifyVariable v f).held t + (w.dataflow v).waiters.countP (Waker.isOf t) =
      w.held t + (f (w.dataflow v)).waiters.countP (Waker.isOf t) := by
  have := Table.total_modify (fun cell => cell.waiters.countP (Waker.isOf t)) f h
  simp only [held, modifyVariable, dataflow] at this ⊢
  omega

theorem held_modifyProcess {p : ProcessId} (f : Process → Process)
    (h : p.index < w.processes.size) :
    (w.modifyProcess p f).held t + (w.process p).notify.countP (Waker.isOf t) =
      w.held t + (f (w.process p)).notify.countP (Waker.isOf t) := by
  have := Table.total_modify (fun process => process.notify.countP (Waker.isOf t)) f h
  simp only [held, modifyProcess, process] at this ⊢
  omega

theorem held_setMailbox {m : MailboxId} (mailbox : Mailbox) (h : m.index < w.mailboxes.size) :
    (w.setMailbox m mailbox).held t + (w.mailbox m).receiver.toList.countP (Waker.isOf t) =
      w.held t + mailbox.receiver.toList.countP (Waker.isOf t) := by
  have := Table.total_modify
    (fun mailbox : Mailbox => mailbox.receiver.toList.countP (Waker.isOf t)) (fun _ => mailbox) h
  simp only [held, setMailbox, World.mailbox, Table.set] at this ⊢
  omega

theorem isUnfinished_process_iff {p : ProcessId} :
    w.isUnfinished (.process p) = true ↔
      p.index < w.processes.size ∧ (w.process p).state ≠ .done := by
  rcases Nat.lt_or_ge p.index w.processes.size with hp | hp
  · simp [isUnfinished, process, Table.get?_of_lt hp, hp]
  · have hnone := (Table.get?_eq_none_iff w.processes p.index).2 hp
    simp [isUnfinished, hnone, hp]

theorem isUnfinished_main_iff {slot : Nat} :
    w.isUnfinished (.main slot) = true ↔ slot < w.slots.size ∧ w.outcome? slot = none := by
  rcases Nat.lt_or_ge slot w.slots.size with hs | hs
  · cases ho : w.slots.get slot <;>
      simp [isUnfinished, outcome?, Table.get?_of_lt hs, hs, ho]
  · have hnone := (Table.get?_eq_none_iff w.slots slot).2 hs
    simp [isUnfinished, hnone, hs]

theorem isUnfinished_congr (hs : w'.slots = w.slots) (hp : w'.processes = w.processes)
    (t : Thread) : w'.isUnfinished t = w.isUnfinished t := by
  cases t <;> simp only [isUnfinished, hs, hp]

theorem isUnfinished_modifyProcess {p : ProcessId} {f : Process → Process}
    (hf : ∀ process, (f process).state = .done ↔ process.state = .done) (t : Thread) :
    (w.modifyProcess p f).isUnfinished t = w.isUnfinished t := by
  cases t with
  | main slot => rfl
  | process q =>
    simp only [isUnfinished, modifyProcess, Table.get?_modify]
    by_cases hq : p.index = q.index
    · cases hg : w.processes.get? q.index with
      | none => simp [hq]
      | some process => simp [hq, hf]
    · simp [hq]

/-- A process ends, and no other thread does. -/
theorem isUnfinished_end {p : ProcessId} (h : w.isUnfinished (.process p) = true) (last : Process)
    (hd : last.state = .done) (t : Thread) :
    ((w.modifyProcess p fun _ => last).isUnfinished t).toNat +
      (decide (t = .process p)).toNat = (w.isUnfinished t).toNat := by
  cases t with
  | main slot => simp [isUnfinished, modifyProcess]
  | process q =>
    by_cases hq : q = p
    · subst hq
      rw [h]
      simp only [isUnfinished, modifyProcess, Table.get?_modify] at h ⊢
      cases hg : w.processes.get? q.index with
      | none => rw [hg] at h; cases h
      | some process => simp [hd]
    · have hi : p.index ≠ q.index := fun hi => hq (by cases p; cases q; exact congrArg _ hi.symm)
      simp [isUnfinished, modifyProcess, Table.get?_modify, hi, hq]

/-- The outcome of an evaluation is delivered, and no other thread ends. -/
theorem isUnfinished_fillSlot {index : Nat} (h : w.isUnfinished (.main index) = true)
    (outcome : Outcome) (t : Thread) :
    ((w.fillSlot index outcome).isUnfinished t).toNat + (decide (t = .main index)).toNat =
      (w.isUnfinished t).toNat := by
  cases t with
  | process q => simp [isUnfinished, fillSlot]
  | main slot =>
    by_cases hs : slot = index
    · subst hs
      rw [h]
      simp only [isUnfinished, fillSlot, Table.set, Table.get?_modify] at h ⊢
      cases hg : w.slots.get? slot with
      | none => rw [hg] at h; cases h
      | some old => simp
    · have hi : index ≠ slot := fun hi => hs hi.symm
      simp [isUnfinished, fillSlot, Table.set, Table.get?_modify, hi, hs]

theorem isUnfinished_spawn (captured : Bindings Value) (block : Block) (parent : Option ProcessId)
    (t : Thread) :
    ((w.apply (.spawn captured block parent)).isUnfinished t).toNat =
      (w.isUnfinished t).toNat + (decide (t = .process ⟨w.processes.size⟩)).toNat := by
  cases t with
  | main slot =>
    have hs : (w.apply (.spawn captured block parent)).slots = w.slots := rfl
    simp [isUnfinished, hs]
  | process q =>
    have hp : (w.apply (.spawn captured block parent)).processes =
        w.processes.push (.new ⟨w.forest.handles.size⟩ ⟨w.mailboxes.size⟩) := rfl
    simp only [isUnfinished, hp, Table.get?_push]
    by_cases hq : q.index = w.processes.size
    · have hnone : w.processes.get? w.processes.size = none := (Table.get?_eq_none_iff _ _).2 le_rfl
      obtain ⟨index⟩ := q
      simp only at hq
      subst hq
      simp [hnone, Process.new]
    · have hne : q ≠ ⟨w.processes.size⟩ := fun he => hq (congrArg _ he)
      simp [hq, hne]

theorem isUnfinished_launch (strict : Bool) (program : Program) (t : Thread) :
    ((w.launch strict program).isUnfinished t).toNat =
      (w.isUnfinished t).toNat + (decide (t = .main w.slots.size)).toNat := by
  cases t with
  | process q =>
    have hp : (w.launch strict program).processes = w.processes := rfl
    simp [isUnfinished, hp]
  | main slot =>
    have hs : (w.launch strict program).slots = w.slots.push none := rfl
    simp only [isUnfinished, hs, Table.get?_push]
    by_cases hq : slot = w.slots.size
    · have hnone : w.slots.get? w.slots.size = none := (Table.get?_eq_none_iff _ _).2 le_rfl
      subst hq
      simp [hnone]
    · simp [hq]

end World

/-! ## What is given, taken and lost -/

namespace World

/-- The threads whose continuation an effect drops: those whose tasks are discarded, and those that
are woken in an epoch that has been given up. -/
def dropped (w : World) : Effect → List Thread
  | .discard =>
    w.scheduler.ready.filterMap Task.thread? ++
      w.scheduler.timers.filterMap fun timer => timer.task.thread?
  | .finish p _ =>
    if (w.process p).state = .done then []
    else ((w.process p).notify.filter (Waker.isGivenUp w)).filterMap Waker.thread?
  | .wakeWaiter waker => if waker.isGivenUp w then waker.thread?.toList else []
  | .wakeReceiver m waker =>
    if (w.mailbox m).queue ≠ [] ∧ waker.isGivenUp w then waker.thread?.toList else []
  | _ => []

/-- The threads that an effect displaces: a receiver is woken, finds no message, and someone else
waits in its place. -/
def displaced (w : World) : Effect → List Thread
  | .wakeReceiver m waker =>
    if (w.mailbox m).queue = [] ∧ (w.mailbox m).receiver.isSome then waker.thread?.toList else []
  | _ => []

end World

/-- How many continuations of a thread an effect is given. -/
def Effect.given (t : Thread) : Effect → Nat
  | .later task | .schedule _ task => (task.isOf t).toNat
  | .awaitVariable _ _ k | .awaitProcess _ _ k | .receive _ k => (k.isOf t).toNat
  | .fillSlot index _ => (decide (t = .main index)).toNat
  | .finish p _ => (decide (t = .process p)).toNat
  | .wakeWaiter waker | .wakeReceiver _ waker => (waker.isOf t).toNat
  | _ => 0

/-- How many continuations of a thread an effect hands over to be worked on. -/
def Effect.taken (t : Thread) (w : World) : Effect → Nat
  | .beginTurn => w.scheduler.ready.head?.toList.countP (Task.isOf t)
  | .launch _ _ => (decide (t = .main w.slots.size)).toNat
  | .wakeWaiter waker => if waker.isGivenUp w then 0 else (waker.isOf t).toNat
  | .wakeReceiver m waker =>
    if (w.mailbox m).queue ≠ [] ∧ waker.isGivenUp w = false then (waker.isOf t).toNat else 0
  | _ => 0

/-- Whether the thread that an effect brings to its end has not ended yet. -/
def Effect.Timely (w : World) : Effect → Prop
  | .fillSlot index _ => w.isUnfinished (.main index) = true
  | .finish p _ => w.isUnfinished (.process p) = true
  | _ => True

namespace World

theorem countP_one {α : Type} (p : α → Bool) (a : α) : [a].countP p = (p a).toNat := by
  cases h : p a <;> simp [h]

theorem countP_thread {α : Type} (f : α → Option Thread) (l : List α) (t : Thread) :
    (l.filterMap f).count t = l.countP fun a => decide (f a = some t) := by
  induction l with
  | nil => rfl
  | cons a l ih =>
    cases h : f a with
    | none => simp [h, ih]
    | some u => by_cases hu : u = t <;> simp [h, ih, hu]

theorem count_thread (o : Option Thread) (t : Thread) :
    o.toList.count t = (decide (o = some t)).toNat := by
  cases o with
  | none => rfl
  | some u => by_cases hu : u = t <;> simp [hu]

/-- Those who wait for a process are called or dropped. -/
theorem countP_joined (w : World) (t : Thread) (result : Value) (l : List Waker) :
    (l.flatMap (w.joined result)).countP (Task.isOf t) +
      ((l.filter (Waker.isGivenUp w)).filterMap Waker.thread?).count t =
        l.countP (Waker.isOf t) := by
  rw [countP_thread]
  show _ + (l.filter (Waker.isGivenUp w)).countP (Waker.isOf t) = _
  induction l with
  | nil => rfl
  | cons waker l ih =>
    rw [List.flatMap_cons, List.countP_append, ← List.singleton_append, List.countP_append,
      countP_one, ← ih]
    cases waker with
    | report tag => simp [joined, Waker.isGivenUp]
    | resume epoch s k =>
      cases ha : w.isAbandoned epoch with
      | true =>
        simp only [joined, ha, if_true, List.filter_append, Waker.isGivenUp, List.filter_cons,
          List.filter_nil, List.countP_append, countP_one, List.countP_nil]
        omega
      | false =>
        simp only [joined, ha, Bool.false_eq_true, if_false, List.filter_append, List.filter_cons,
          List.filter_nil, Waker.isGivenUp, List.nil_append, countP_one, Task.isOf_resume,
          Waker.isOf_resume]
        omega

variable {w : World}

/-- A receiver that is called moves from its mailbox to the queue. -/
theorem held_deliver (m : MailboxId) (message : Value) (t : Thread) :
    (w.deliver m message).held t = w.held t := by
  have hq := held_queues (t := t) (w.queues_deliver m message)
  rw [List.countP_map] at hq
  change _ = _ + (w.mailbox m).receiver.toList.countP (Waker.isOf t) at hq
  rcases Nat.lt_or_ge m.index w.mailboxes.size with hm | hm
  · have h := held_setMailbox (t := t) ((w.mailbox m).post message).1 hm
    simp only [Mailbox.receiver_post, Option.toList_none, List.countP_nil] at h
    omega
  · have hd : w.mailbox m = default := Table.get_of_size_le hm
    rw [setMailbox_of_size_le _ hm, hd] at hq
    exact hq

/-- Those who wait for a variable move to the queue when it is bound. -/
theorem held_bind (v : VariableId) (value : Value) (t : Thread) :
    (w.bind v value).held t = w.held t := by
  cases hv : (w.dataflow v).value with
  | some u => rw [bind_of_bound hv]
  | none =>
    have hq := held_queues (t := t) (bind_of_unbound hv value)
    rw [List.countP_map] at hq
    change _ = _ + (w.dataflow v).waiters.countP (Waker.isOf t) at hq
    rcases Nat.lt_or_ge v.index w.dataflows.size with hm | hm
    · have h := held_modifyVariable (t := t) (fun _ => bindTo (w.dataflow v) value) hm
      have hnil : (bindTo (w.dataflow v) value).waiters.countP (Waker.isOf t) = 0 := rfl
      omega
    · have hd : w.dataflow v = default := Table.get_of_size_le hm
      have hsame : ∀ f, w.modifyVariable v f = w := fun f => by
        simp only [modifyVariable, Table.modify_of_size_le f hm]
      rw [hsame, hd] at hq
      exact hq

theorem held_later (task : Task) (t : Thread) :
    (w.later task).held t = w.held t + (task.isOf t).toNat := by
  rw [held_queues (w.queues_later task), countP_one]

theorem held_schedule (due : Nat) (task : Task) (t : Thread) :
    (w.mapScheduler (·.schedule due task)).held t = w.held t + (task.isOf t).toNat := by
  obtain ⟨before, after, ht, hs⟩ := w.scheduler.timers_schedule due task
  have hsched : (w.mapScheduler (·.schedule due task)).scheduler.timers =
      before ++ ⟨due, w.scheduler.nextSerial, task⟩ :: after := hs
  have hready : (w.mapScheduler (·.schedule due task)).scheduler.ready = w.scheduler.ready := rfl
  have hrest : (w.mapScheduler (·.schedule due task)).held t =
      w.scheduler.ready.countP (Task.isOf t) +
        (before ++ ⟨due, w.scheduler.nextSerial, task⟩ :: after).countP (fun x => x.task.isOf t)
        + w.dataflows.total (fun cell => cell.waiters.countP (Waker.isOf t))
        + w.processes.total (fun process => process.notify.countP (Waker.isOf t))
        + w.mailboxes.total (fun mailbox => mailbox.receiver.toList.countP (Waker.isOf t)) := by
    rw [← hsched]
    rfl
  rw [hrest, held, ht]
  rw [← List.singleton_append]
  simp only [List.countP_append, countP_one]
  omega

theorem held_awaitVariable {v : VariableId} (h : v.index < w.dataflows.size) (s : Stack)
    (k : Continuation) (t : Thread) :
    (w.awaitVariable v s k).held t = w.held t + (k.isOf t).toNat := by
  cases hv : (w.dataflow v).value with
  | some u =>
    rw [awaitVariable_of_bound hv, held_later]
    rfl
  | none =>
    rw [awaitVariable_of_unbound hv]
    have hm := held_modifyVariable (t := t)
      (·.addWaiter (.resume w.scheduler.epoch s k)) h
    have hadd : ((w.dataflow v).addWaiter (.resume w.scheduler.epoch s k)).waiters.countP
        (Waker.isOf t) = (w.dataflow v).waiters.countP (Waker.isOf t) + (k.isOf t).toNat := by
      rw [Variable.addWaiter, List.countP_append, countP_one, Waker.isOf_resume]
    omega

theorem held_awaitProcess {p : ProcessId} (h : p.index < w.processes.size) (s : Stack)
    (k : Continuation) (t : Thread) :
    (w.awaitProcess p s k).held t = w.held t + (k.isOf t).toNat := by
  cases hv : (w.process p).result with
  | some u =>
    rw [awaitProcess_of_result hv, held_later]
    rfl
  | none =>
    rw [awaitProcess_of_none hv]
    have hm := held_modifyProcess (t := t)
      (·.addNotify (.resume w.scheduler.epoch s k)) h
    have hadd : ((w.process p).addNotify (.resume w.scheduler.epoch s k)).notify.countP
        (Waker.isOf t) = (w.process p).notify.countP (Waker.isOf t) + (k.isOf t).toNat := by
      rw [Process.addNotify, List.countP_append, countP_one, Waker.isOf_resume]
    omega

/-- Taking a message off leaves the receiver alone. -/
theorem held_take {m : MailboxId} {message : Value} {rest : Mailbox}
    (ht : (w.mailbox m).take? = some (message, rest)) (t : Thread) :
    (w.setMailbox m rest).held t = w.held t := by
  have h := held_setMailbox (t := t) rest (lt_of_take? ht)
  rw [(Mailbox.queue_of_take? ht).2] at h
  omega

/-- A receiver begins to wait where nobody waits. -/
theorem held_wait {m : MailboxId} (hm : m.index < w.mailboxes.size)
    (hr : (w.mailbox m).receiver = none) (waker : Waker) (t : Thread) :
    (w.setMailbox m { w.mailbox m with receiver := some waker }).held t =
      w.held t + (waker.isOf t).toNat := by
  have h := held_setMailbox (t := t) { w.mailbox m with receiver := some waker } hm
  rw [hr, Option.toList_none, List.countP_nil, Option.toList_some, countP_one] at h
  omega

theorem held_receive (hm : w.Matched) {s : Stack} (hs : w.OwnerExists s.owner) (k : Continuation)
    (t : Thread) : (w.receive s k).held t = w.held t + (k.isOf t).toNat := by
  cases w.receives_receive s k with
  | refuse ho hq hw => rw [held_queues hw, countP_one, Task.isOf_resume]
  | take ho ht hw => rw [held_queues hw, countP_one, Task.isOf_resume, held_take ht]
  | wait ho hq hr hw =>
    have hin := hs _ ho
    rw [hw, held_wait ?_ hr, Waker.isOf_resume]
    rw [hm.mailbox hin, hm.size]
    exact hin

theorem held_finish {p : ProcessId} (h : w.isUnfinished (.process p) = true) (outcome : Outcome)
    (t : Thread) :
    (w.finishProcess p outcome).held t + (w.dropped (.finish p outcome)).count t = w.held t := by
  obtain ⟨hin, hs⟩ := isUnfinished_process_iff.1 h
  have hq := held_queues (t := t) (finishProcess_of_ne_done hs outcome)
  have hm := held_modifyProcess (t := t) (fun _ => ended (w.process p) outcome) hin
  have hj := w.countP_joined t (resultOf outcome) (w.process p).notify
  have hnil : (ended (w.process p) outcome).notify.countP (Waker.isOf t) = 0 := rfl
  simp only [dropped, if_neg hs]
  omega

theorem held_spawn (captured : Bindings Value) (block : Block) (parent : Option ProcessId)
    (t : Thread) :
    (w.apply (.spawn captured block parent)).held t =
      w.held t + (decide (t = .process ⟨w.processes.size⟩)).toNat := by
  have hready : (w.apply (.spawn captured block parent)).scheduler.ready = w.scheduler.ready ++
      [.start ⟨w.processes.size⟩ block.code (firstStack parent ⟨w.processes.size⟩)] := rfl
  have hp : (w.apply (.spawn captured block parent)).processes =
      w.processes.push (.new ⟨w.forest.handles.size⟩ ⟨w.mailboxes.size⟩) := rfl
  have hm : (w.apply (.spawn captured block parent)).mailboxes =
      w.mailboxes.push (.new (w.processes.size + 1)) := rfl
  have ht : (w.apply (.spawn captured block parent)).scheduler.timers = w.scheduler.timers := rfl
  have hd : (w.apply (.spawn captured block parent)).dataflows = w.dataflows := rfl
  have hof : (Task.start ⟨w.processes.size⟩ block.code
      (firstStack parent ⟨w.processes.size⟩)).isOf t =
        decide (t = .process ⟨w.processes.size⟩) := by
    simp only [Task.isOf, Task.thread?, Option.some.injEq, eq_comm]
  simp only [held, hready, hp, hm, ht, hd, Table.total_push, List.countP_append, countP_one, hof]
  simp only [Process.new, Mailbox.new, List.countP_nil, Option.toList_none]
  omega

theorem held_settle (t : Thread) : (w.apply .settle).held t = w.held t := by
  obtain ⟨due, hr, ht⟩ := w.scheduler.settle_spec
  have hready : (w.apply .settle).scheduler.ready = w.scheduler.ready ++ due.map (·.task) := hr
  have htimers : w.scheduler.timers = due ++ (w.apply .settle).scheduler.timers := ht
  have hp : (w.apply .settle).processes = w.processes := rfl
  have hm : (w.apply .settle).mailboxes = w.mailboxes := rfl
  have hd : (w.apply .settle).dataflows = w.dataflows := rfl
  have hmap : (due.map (·.task)).countP (Task.isOf t) = due.countP fun x => x.task.isOf t :=
    List.countP_map
  simp only [held, hready, htimers, hp, hm, hd, List.countP_append, hmap]
  omega

theorem held_discard (t : Thread) :
    (w.apply .discard).held t + (w.dropped .discard).count t = w.held t := by
  have hready : (w.apply .discard).scheduler.ready = [] := rfl
  have htimers : (w.apply .discard).scheduler.timers = [] := rfl
  have hp : (w.apply .discard).processes = w.processes := rfl
  have hm : (w.apply .discard).mailboxes = w.mailboxes := rfl
  have hd : (w.apply .discard).dataflows = w.dataflows := rfl
  simp only [held, hready, htimers, hp, hm, hd, dropped, List.count_append, countP_thread,
    List.countP_nil]
  change _ + (w.scheduler.ready.countP (Task.isOf t) +
    w.scheduler.timers.countP fun x => x.task.isOf t) = _
  omega

theorem held_beginTurn (t : Thread) :
    (w.apply .beginTurn).held t + w.scheduler.ready.head?.toList.countP (Task.isOf t) =
      w.held t := by
  have hready : (w.apply .beginTurn).scheduler.ready = w.scheduler.ready.tail := rfl
  have htimers : (w.apply .beginTurn).scheduler.timers = w.scheduler.timers := rfl
  have hp : (w.apply .beginTurn).processes = w.processes := rfl
  have hm : (w.apply .beginTurn).mailboxes = w.mailboxes := rfl
  have hd : (w.apply .beginTurn).dataflows = w.dataflows := rfl
  simp only [held, hready, htimers, hp, hm, hd]
  cases w.scheduler.ready with
  | nil => rfl
  | cons task rest =>
    rw [← List.singleton_append, List.countP_append]
    simp only [List.tail_cons, List.singleton_append, List.head?_cons, Option.toList_some]
    omega

/-- A woken receiver is handed over, or it is lost, or it waits again. -/
theorem held_wakeReceiver {m : MailboxId} {waker : Waker} (hm : w.Matched) (hk : waker.Sound w)
    (hfor : waker.IsFor m) (t : Thread) :
    (w.apply (.wakeReceiver m waker)).held t + (Effect.wakeReceiver m waker).taken t w +
        ((w.dropped (.wakeReceiver m waker)).count t +
          (w.displaced (.wakeReceiver m waker)).count t) =
      w.held t + (waker.isOf t).toNat := by
  cases waker with
  | report tag => cases hk
  | resume epoch s k =>
    have hlost : (Waker.resume epoch s k).thread?.toList.count t =
        (Waker.isOf t (.resume epoch s k)).toNat := count_thread _ _
    simp only [apply, Effect.taken, dropped, displaced, Waker.isGivenUp]
    cases w.offers_offer m epoch (.resume epoch s k) with
    | take ht ha hw hmsg =>
      have hq : (w.mailbox m).queue ≠ [] := by rw [(Mailbox.queue_of_take? ht).1]; simp
      rw [held_queues hw, held_take ht]
      simp [hq, ha]
    | requeue ht ha hw =>
      have hq : (w.mailbox m).queue ≠ [] := by rw [(Mailbox.queue_of_take? ht).1]; simp
      simp only [hw, hq, ha, ne_eq, not_false_eq_true, and_self, if_true, Bool.true_eq_false,
        and_false, if_false, false_and, hlost, List.count_nil]
      omega
    | wait hq hr hw =>
      have hin : m.index < w.mailboxes.size := hm.size ▸ hk.1.owner _ hfor
      rw [hw, held_wait hin hr]
      simp [hq, hr]
    | displaced hq hr hw =>
      have hsame : ∀ message, (w.report message).held t = w.held t := fun _ => rfl
      simp only [hw, hsame, hq, hr, ne_eq, not_true_eq_false, false_and, if_false,
        Option.isSome_some, and_self, if_true, hlost, List.count_nil]
      omega

/-- What an effect is given, it holds, hands over or loses; and it holds one more for each thread
that begins, and one less for each that ends. -/
def Conserves (w : World) (t : Thread) (e : Effect) : Prop :=
  (w.apply e).held t + (w.isUnfinished t).toNat + e.taken t w +
      ((w.dropped e).count t + (w.displaced e).count t) =
    w.held t + ((w.apply e).isUnfinished t).toNat + e.given t

/-- An effect with which no thread begins or ends, and that holds all it is given. -/
theorem Conserves.of_given {t : Thread} {e : Effect}
    (hu : (w.apply e).isUnfinished t = w.isUnfinished t)
    (hh : (w.apply e).held t = w.held t + e.given t) (ht : e.taken t w = 0)
    (hd : w.dropped e = []) (hs : w.displaced e = []) : w.Conserves t e := by
  simp only [Conserves, hu, hh, ht, hd, hs, List.count_nil]
  omega

theorem Conserves.of_sameCells {t : Thread} {e : Effect} (h : w.SameCells (w.apply e))
    (hg : e.given t = 0) (ht : e.taken t w = 0) (hd : w.dropped e = [])
    (hs : w.displaced e = []) : w.Conserves t e :=
  .of_given (isUnfinished_congr h.slots h.processes t) ((held_sameCells h).trans (by rw [hg]; rfl))
    ht hd hs

theorem isUnfinished_apply {e : Effect} (hs : e.keepsSlots = true) (hp : e.keepsProcesses = true)
    (t : Thread) : (w.apply e).isUnfinished t = w.isUnfinished t :=
  isUnfinished_congr (w.slots_apply hs) (w.processes_apply hp) t

theorem conserves_finish {p : ProcessId} (h : w.isUnfinished (.process p) = true)
    (outcome : Outcome) (t : Thread) : w.Conserves t (.finish p outcome) := by
  have hs := (isUnfinished_process_iff.1 h).2
  have hq := finishProcess_of_ne_done hs outcome
  have hu : (w.finishProcess p outcome).isUnfinished t =
      (w.modifyProcess p fun _ => ended (w.process p) outcome).isUnfinished t :=
    isUnfinished_congr hq.slots hq.processes t
  have hend := isUnfinished_end h (ended (w.process p) outcome) rfl t
  have hh := held_finish h outcome t
  simp only [Conserves, apply, hu, Effect.taken, Effect.given, displaced, List.count_nil]
  omega

theorem conserves_wakeWaiter (waker : Waker) (t : Thread) : w.Conserves t (.wakeWaiter waker) := by
  have hlost := count_thread waker.thread? t
  simp only [Conserves, apply, Effect.taken, Effect.given, dropped, displaced, List.count_nil]
  cases hg : waker.isGivenUp w with
  | true => simp only [if_true, hlost, Waker.isOf]; omega
  | false => simp only [Bool.false_eq_true, if_false, List.count_nil]; omega

/-- **Continuations are conserved.** -/
theorem conserves {e : Effect} (hm : w.Matched) (he : e.Sound w) (ht : e.Timely w) (t : Thread) :
    w.Conserves t e := by
  cases e with
  | report | print | snapshot | define | defineWord | adopt | newObject | setProperty | restore
  | harvest | enter | endTurn | pass | startClock | abandon | beginEpoch | install =>
    exact .of_sameCells (w.sameCells_apply rfl) rfl rfl rfl rfl
  | spawn captured block parent =>
    simp only [Conserves, held_spawn, isUnfinished_spawn, Effect.taken, Effect.given, dropped,
      displaced, List.count_nil]
    omega
  | deliver m message =>
    exact .of_given (isUnfinished_apply rfl rfl t) (held_deliver m message t) rfl rfl rfl
  | newVariable name =>
    refine .of_given (isUnfinished_apply rfl rfl t) ?_ rfl rfl rfl
    have hd : (w.apply (.newVariable name)).dataflows = w.dataflows.push (.new name) := rfl
    simp only [held, hd, Table.total_push]
    rfl
  | bind v value => exact .of_given (isUnfinished_apply rfl rfl t) (held_bind v value t) rfl rfl rfl
  | later task => exact .of_given (isUnfinished_apply rfl rfl t) (held_later task t) rfl rfl rfl
  | schedule due task =>
    exact .of_given (isUnfinished_apply rfl rfl t) (held_schedule due task t) rfl rfl rfl
  | awaitVariable v s k =>
    exact .of_given (isUnfinished_apply rfl rfl t) (held_awaitVariable he.1 s k t) rfl rfl rfl
  | awaitProcess p s k =>
    refine .of_given ?_ (held_awaitProcess he.1 s k t) rfl rfl rfl
    simp only [apply, awaitProcess]
    split
    · exact isUnfinished_congr rfl rfl t
    · exact isUnfinished_modifyProcess (f := (·.addNotify _)) (fun _ => Iff.rfl) t
  | receive s k =>
    exact .of_given (isUnfinished_apply rfl rfl t) (held_receive hm he.1.owner k t) rfl rfl rfl
  | fillSlot index outcome =>
    have hu := isUnfinished_fillSlot ht outcome t
    have hh : (w.fillSlot index outcome).held t = w.held t := rfl
    simp only [Conserves, apply, hh, Effect.taken, Effect.given, dropped, displaced,
      List.count_nil]
    omega
  | finish p outcome => exact conserves_finish ht outcome t
  | beginTurn =>
    have hh := held_beginTurn (w := w) t
    simp only [Conserves, isUnfinished_apply (e := .beginTurn) rfl rfl t, Effect.taken, Effect.given,
      dropped, displaced, List.count_nil]
    omega
  | markRunning p =>
    refine .of_given (isUnfinished_modifyProcess Process.done_markRunning t) ?_ rfl rfl rfl
    have hn : (w.modifyProcess p Process.markRunning).processes.total
        (fun process => process.notify.countP (Waker.isOf t)) =
          w.processes.total fun process => process.notify.countP (Waker.isOf t) :=
      Table.total_modify_of_eq _ fun _ => by rw [Process.notify_markRunning]
    simp only [held, apply, hn]
    rfl
  | wakeWaiter waker => exact conserves_wakeWaiter waker t
  | wakeReceiver m waker =>
    have hu := isUnfinished_apply (w := w) (e := .wakeReceiver m waker) rfl rfl t
    have hh := held_wakeReceiver hm he.1 he.2 t
    have hg : (Effect.wakeReceiver m waker).given t = (waker.isOf t).toNat := rfl
    simp only [Conserves, hu]
    omega
  | settle => exact .of_given (isUnfinished_apply rfl rfl t) (held_settle t) rfl rfl rfl
  | discard =>
    have hh := held_discard (w := w) t
    simp only [Conserves, isUnfinished_apply (e := .discard) rfl rfl t, Effect.taken, Effect.given,
      displaced, List.count_nil]
    omega
  | launch strict program =>
    have hu := isUnfinished_launch (w := w) strict program t
    have hh : (w.launch strict program).held t = w.held t := rfl
    simp only [Conserves, apply, hu, hh, Effect.taken, Effect.given, dropped, displaced,
      List.count_nil]
    omega

end World

end Catena
