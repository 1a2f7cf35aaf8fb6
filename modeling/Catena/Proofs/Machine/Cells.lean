import Catena.Proofs.Machine.Words
import Catena.Proofs.Store.Tables

/-!
# What effects do to cells

The cells are the processes, mailboxes and dataflow variables, together with the queue of tasks, the
timers and the slots. Most effects are quiet: they leave all of these alone (`SameCells`). The others
change one cell and queue some tasks (`Queues`), and each of them has its equation here. The
functions that change cells are not unfolded after this.

What an effect leaves alone does not depend on its equation: it changes one cell at a time
(`World.touches_apply`), so that the cells of the other kinds, the definitions, the slots and the
epochs stay as they are.
-/

namespace Catena

namespace World

/-- `w'` has the cells of `w`. -/
structure SameCells (w w' : World) : Prop where
  processes : w'.processes = w.processes
  mailboxes : w'.mailboxes = w.mailboxes
  dataflows : w'.dataflows = w.dataflows
  slots : w'.slots = w.slots
  ready : w'.scheduler.ready = w.scheduler.ready
  timers : w'.scheduler.timers = w.scheduler.timers

theorem SameCells.refl (w : World) : w.SameCells w := ⟨rfl, rfl, rfl, rfl, rfl, rfl⟩

theorem SameCells.trans {w w' w'' : World} (h : w.SameCells w') (h' : w'.SameCells w'') :
    w.SameCells w'' where
  processes := h'.processes.trans h.processes
  mailboxes := h'.mailboxes.trans h.mailboxes
  dataflows := h'.dataflows.trans h.dataflows
  slots := h'.slots.trans h.slots
  ready := h'.ready.trans h.ready
  timers := h'.timers.trans h.timers

/-- `w'` is `w` with some more tasks in the queue, up to counters and the embedding program's log. -/
structure Queues (w : World) (tasks : List Task) (w' : World) : Prop where
  forest : w'.forest = w.forest
  captures : w'.captures = w.captures
  vocabularies : w'.vocabularies = w.vocabularies
  objects : w'.objects = w.objects
  processes : w'.processes = w.processes
  mailboxes : w'.mailboxes = w.mailboxes
  dataflows : w'.dataflows = w.dataflows
  slots : w'.slots = w.slots
  ready : w'.scheduler.ready = w.scheduler.ready ++ tasks
  timers : w'.scheduler.timers = w.scheduler.timers
  epoch : w'.scheduler.epoch = w.scheduler.epoch
  abandoned : w'.scheduler.abandoned = w.scheduler.abandoned
  depth : w'.scheduler.dispatchDepth = w.scheduler.dispatchDepth

theorem Queues.trans {w w' w'' : World} {ts us : List Task} (h : w.Queues ts w')
    (h' : w'.Queues us w'') : w.Queues (ts ++ us) w'' where
  forest := h'.forest.trans h.forest
  captures := h'.captures.trans h.captures
  vocabularies := h'.vocabularies.trans h.vocabularies
  objects := h'.objects.trans h.objects
  processes := h'.processes.trans h.processes
  mailboxes := h'.mailboxes.trans h.mailboxes
  dataflows := h'.dataflows.trans h.dataflows
  slots := h'.slots.trans h.slots
  ready := by rw [h'.ready, h.ready, List.append_assoc]
  timers := h'.timers.trans h.timers
  epoch := h'.epoch.trans h.epoch
  abandoned := h'.abandoned.trans h.abandoned
  depth := h'.depth.trans h.depth

theorem queues_count (w : World) (f : Stats → Stats) : w.Queues [] (w.count f) :=
  ⟨rfl, rfl, rfl, rfl, rfl, rfl, rfl, rfl, (List.append_nil _).symm, rfl, rfl, rfl, rfl⟩

theorem queues_addEntry (w : World) (entry : Host.Entry) : w.Queues [] (w.addEntry entry) :=
  ⟨rfl, rfl, rfl, rfl, rfl, rfl, rfl, rfl, (List.append_nil _).symm, rfl, rfl, rfl, rfl⟩

theorem queues_report (w : World) (message : String) : w.Queues [] (w.report message) :=
  ⟨rfl, rfl, rfl, rfl, rfl, rfl, rfl, rfl, (List.append_nil _).symm, rfl, rfl, rfl, rfl⟩

theorem Queues.refl (w : World) : w.Queues [] w :=
  ⟨rfl, rfl, rfl, rfl, rfl, rfl, rfl, rfl, (List.append_nil _).symm, rfl, rfl, rfl, rfl⟩

theorem queues_later (w : World) (task : Task) : w.Queues [task] (w.later task) :=
  ⟨rfl, rfl, rfl, rfl, rfl, rfl, rfl, rfl, rfl, rfl, rfl, rfl, rfl⟩

/-- Queueing one task for each of a list. -/
theorem queues_foldl_later {α : Type} (f : α → Task) (l : List α) (w : World) :
    w.Queues (l.map f) (l.foldl (fun w a => w.later (f a)) w) := by
  induction l generalizing w with
  | nil => exact .refl w
  | cons a l ih => exact (w.queues_later (f a)).trans (ih _)

/-! ## Variables -/

/-- The variable once it is bound. -/
def bindTo (cell : Variable) (value : Value) : Variable :=
  { cell with value := some value, waiters := [] }

/-- A waiter that is called gets a turn of its own. -/
theorem bind_of_unbound {w : World} {v : VariableId} (h : (w.dataflow v).value = none)
    (value : Value) :
    (w.modifyVariable v fun _ => bindTo (w.dataflow v) value).Queues
      ((w.dataflow v).waiters.map (.wakeWaiter · value)) (w.bind v value) := by
  have hb : (w.dataflow v).bind? value =
      some (bindTo (w.dataflow v) value, (w.dataflow v).waiters) := by
    simp only [Variable.bind?, h, bindTo]
  simp only [bind, hb]
  exact queues_foldl_later (.wakeWaiter · value) _ _

theorem bind_of_bound {w : World} {v : VariableId} {u : Value} (h : (w.dataflow v).value = some u)
    (value : Value) : w.bind v value = w := by
  have hb : (w.dataflow v).bind? value = none := by simp only [Variable.bind?, h]
  simp only [bind, hb]

theorem awaitVariable_of_bound {w : World} {v : VariableId} {u : Value}
    (h : (w.dataflow v).value = some u) (s : Stack) (k : Continuation) :
    w.awaitVariable v s k = w.later (.resume k (.ok (s.push u))) := by
  simp only [awaitVariable, h, resumeLater]

theorem awaitVariable_of_unbound {w : World} {v : VariableId} (h : (w.dataflow v).value = none)
    (s : Stack) (k : Continuation) :
    w.awaitVariable v s k = w.modifyVariable v (·.addWaiter (.resume w.scheduler.epoch s k)) := by
  simp only [awaitVariable, h]

/-! ## Processes -/

theorem awaitProcess_of_result {w : World} {p : ProcessId} {u : Value}
    (h : (w.process p).result = some u) (s : Stack) (k : Continuation) :
    w.awaitProcess p s k = w.later (.resume k (.ok (s.push u))) := by
  simp only [awaitProcess, h, resumeLater]

theorem awaitProcess_of_none {w : World} {p : ProcessId} (h : (w.process p).result = none)
    (s : Stack) (k : Continuation) :
    w.awaitProcess p s k = w.modifyProcess p (·.addNotify (.resume w.scheduler.epoch s k)) := by
  simp only [awaitProcess, h]

end World

theorem Mailbox.queue_of_take? {m rest : Mailbox} {message : Value}
    (h : m.take? = some (message, rest)) :
    m.queue = message :: rest.queue ∧ rest.receiver = m.receiver := by
  rw [← requeue_of_take? h]
  exact ⟨rfl, rfl⟩

/-- Whether one who waits did so in an epoch that has been given up. -/
def Waker.isGivenUp (w : World) : Waker → Bool
  | .resume epoch _ _ => w.isAbandoned epoch
  | .report _ => false

namespace World

/-- The task that one who waited for a process gets when it ends. -/
def joined (w : World) (result : Value) : Waker → List Task
  | .resume epoch s k => if w.isAbandoned epoch then [] else [.resume k (.ok (s.push result))]
  | .report _ => []

theorem queues_wakeJoiner (w : World) (result : Value) (waker : Waker) :
    w.Queues (w.joined result waker) (w.wakeJoiner result waker) := by
  cases waker with
  | resume epoch s k =>
    simp only [joined, wakeJoiner]
    split
    · exact .refl w
    · exact w.queues_later _
  | report tag => exact w.queues_addEntry _

theorem joined_congr {w w' : World} (h : w'.scheduler.abandoned = w.scheduler.abandoned) :
    w'.joined = w.joined := by
  have ha : ∀ epoch, w'.isAbandoned epoch = w.isAbandoned epoch := fun epoch => by
    simp only [isAbandoned, Scheduler.isAbandoned, h]
  funext result waker
  cases waker <;> simp only [joined, ha]

theorem queues_foldl_wakeJoiner (result : Value) (l : List Waker) (w : World) :
    w.Queues (l.flatMap (w.joined result)) (l.foldl (fun w waker => w.wakeJoiner result waker) w) := by
  induction l generalizing w with
  | nil => exact .refl w
  | cons waker l ih =>
    have h := w.queues_wakeJoiner result waker
    have h' := ih (w.wakeJoiner result waker)
    rw [joined_congr h.abandoned] at h'
    exact h.trans h'

/-- What a process leaves: the top of its stack, or `nil`. -/
def resultOf : Outcome → Value
  | .ok s => s.top?.getD .nil
  | .error _ => .nil

/-- The process at its end. -/
def ended (p : Process) (outcome : Outcome) : Process :=
  { p with
    state := .done
    result := some (resultOf outcome)
    failure := match outcome with
      | .ok _ => none
      | .error e => some e
    notify := [] }

/-- Everyone who waits for a process is called when it ends. -/
theorem finishProcess_of_ne_done {w : World} {p : ProcessId} (h : (w.process p).state ≠ .done)
    (outcome : Outcome) :
    (w.modifyProcess p fun _ => ended (w.process p) outcome).Queues
      ((w.process p).notify.flatMap (w.joined (resultOf outcome))) (w.finishProcess p outcome) := by
  have key : ∀ failure, (w.process p).complete (resultOf outcome) failure =
      ({ w.process p with state := .done, result := some (resultOf outcome), failure, notify := [] },
        (w.process p).notify) := fun failure => by simp only [Process.complete, if_neg h]
  have fold : ∀ process : Process,
      (w.modifyProcess p fun _ => process).Queues
        ((w.process p).notify.flatMap (w.joined (resultOf outcome)))
        ((w.process p).notify.foldl (fun w waker => w.wakeJoiner (resultOf outcome) waker)
          ((w.count Stats.completed).modifyProcess p fun _ => process)) := fun process => by
    refine (queues_count (w.modifyProcess p fun _ => process) Stats.completed).trans ?_
    exact queues_foldl_wakeJoiner (resultOf outcome) _
      ((w.count Stats.completed).modifyProcess p fun _ => process)
  cases outcome with
  | ok s =>
    have h := key none
    simp only [resultOf] at h
    simp only [finishProcess, h]
    exact fold _
  | error e =>
    have h := key (some e)
    simp only [resultOf] at h
    simp only [finishProcess, h]
    exact fold _

theorem finishProcess_of_done {w : World} {p : ProcessId} (h : (w.process p).state = .done)
    (outcome : Outcome) :
    w.finishProcess p outcome = (w.count Stats.completed).modifyProcess p fun _ => w.process p := by
  cases outcome <;>
    simp only [finishProcess, Process.complete_of_done h, List.foldl_nil]

/-! ## Mailboxes -/

theorem mailbox_setMailbox_self {w : World} {m : MailboxId} (mailbox : Mailbox)
    (h : m.index < w.mailboxes.size) : (w.setMailbox m mailbox).mailbox m = mailbox :=
  Table.get_set_self _ h

theorem setMailbox_of_size_le {w : World} {m : MailboxId} (mailbox : Mailbox)
    (h : w.mailboxes.size ≤ m.index) : w.setMailbox m mailbox = w := by
  simp only [setMailbox, Table.set, Table.modify_of_size_le _ h]

theorem mailbox_setMailbox_of_ne (w : World) {m b : MailboxId} (mailbox : Mailbox) (h : m ≠ b) :
    (w.setMailbox m mailbox).mailbox b = w.mailbox b :=
  Table.get_set_of_ne _ _ fun hi => h (by cases m; cases b; exact congrArg _ hi)

/-- A receiver that is called gets a turn of its own. -/
theorem queues_deliver (w : World) (m : MailboxId) (message : Value) :
    (w.setMailbox m ((w.mailbox m).post message).1).Queues
      ((w.mailbox m).receiver.toList.map (.wakeReceiver m ·)) (w.deliver m message) := by
  have hc := (w.setMailbox m ((w.mailbox m).post message).1).queues_count Stats.posted
  refine hc.trans ?_
  unfold deliver
  cases hr : (w.mailbox m).receiver with
  | none =>
    simp only [Mailbox.post, hr]
    exact .refl _
  | some waker =>
    simp only [Mailbox.post, hr]
    exact queues_later _ _

/-- The ways in which `receive` can go. -/
inductive Receives (w : World) (s : Stack) (k : Continuation) (w' : World) : Prop
  | refuse {e : Error} (he : e.ofProgram = true)
      (hq : ∀ p, s.owner = some p → (w.mailbox (w.process p).mailbox).queue = [])
      (h : w.Queues [.resume k (.error e)] w')
  | take {p : ProcessId} {message : Value} {rest : Mailbox} (ho : s.owner = some p)
      (ht : (w.mailbox (w.process p).mailbox).take? = some (message, rest))
      (h : (w.setMailbox (w.process p).mailbox rest).Queues [.resume k (.ok (s.push message))] w')
  | wait {p : ProcessId} (ho : s.owner = some p)
      (hq : (w.mailbox (w.process p).mailbox).queue = [])
      (hr : (w.mailbox (w.process p).mailbox).receiver = none)
      (h : w' = w.setMailbox (w.process p).mailbox
        { w.mailbox (w.process p).mailbox with receiver := some (.resume w.scheduler.epoch s k) })

theorem receives_receive (w : World) (s : Stack) (k : Continuation) :
    w.Receives s k (w.receive s k) := by
  unfold receive
  cases ho : s.owner with
  | none => exact .refuse rfl (fun p hp => by rw [ho] at hp; cases hp) (w.queues_later _)
  | some p =>
    dsimp only
    cases ht : (w.mailbox (w.process p).mailbox).take? with
    | some taken => exact .take ho ht ((queues_count _ _).trans (queues_later _ _))
    | none =>
      have hq := (Mailbox.take?_eq_none_iff _).1 ht
      cases hr : (w.mailbox (w.process p).mailbox).receiver with
      | none =>
        simp only [Mailbox.wait?, hr]
        exact .wait ho hq hr rfl
      | some waker =>
        simp only [Mailbox.wait?, hr]
        refine .refuse rfl (fun q hp => ?_) (w.queues_later _)
        cases ho.symm.trans hp
        exact hq

/-- The ways in which a message can be offered to one who waited for it. -/
inductive Offers (w : World) (m : MailboxId) (epoch : Nat) (waker : Waker)
    (result : World × Option Value) : Prop
  | take {message : Value} {rest : Mailbox} (ht : (w.mailbox m).take? = some (message, rest))
      (ha : w.isAbandoned epoch = false) (h : (w.setMailbox m rest).Queues [] result.1)
      (hm : result.2 = some message)
  | requeue {message : Value} {rest : Mailbox} (ht : (w.mailbox m).take? = some (message, rest))
      (ha : w.isAbandoned epoch = true) (h : result = (w, none))
  | wait (hq : (w.mailbox m).queue = []) (hr : (w.mailbox m).receiver = none)
      (h : result = (w.setMailbox m { w.mailbox m with receiver := some waker }, none))
  | displaced {other : Waker} (hq : (w.mailbox m).queue = [])
      (hr : (w.mailbox m).receiver = some other) {message : String}
      (h : result = (w.report message, none))

/-- Only a mailbox that has been made has messages. -/
theorem lt_of_take? {w : World} {m : MailboxId} {taken : Value × Mailbox}
    (h : (w.mailbox m).take? = some taken) : m.index < w.mailboxes.size := by
  by_contra hn
  have hd : w.mailbox m = default := Table.get_of_size_le (by omega)
  rw [hd] at h
  cases h

theorem offers_offer (w : World) (m : MailboxId) (epoch : Nat) (waker : Waker) :
    w.Offers m epoch waker (w.offer m epoch waker) := by
  unfold offer
  cases ht : (w.mailbox m).take? with
  | some taken =>
    obtain ⟨message, rest⟩ := taken
    dsimp only
    cases ha : w.isAbandoned epoch with
    | false =>
      have ha' : (w.setMailbox m rest).isAbandoned epoch = false := ha
      simp only [ha', Bool.false_eq_true, if_false]
      exact .take ht ha (queues_count _ _) rfl
    | true =>
      have hm : m.index < w.mailboxes.size := lt_of_take? ht
      have hrest : (w.setMailbox m rest).mailbox m = rest := Table.get_set_self rest hm
      have ha' : (w.setMailbox m rest).isAbandoned epoch = true := ha
      simp only [ha', if_true, hrest, Mailbox.requeue_of_take? ht]
      have hback : (w.setMailbox m rest).setMailbox m (w.mailbox m) = w := by
        simp only [setMailbox, mailbox, Table.set_set, Table.set_get]
      rw [hback]
      exact .requeue ht ha rfl
  | none =>
    have hq := (Mailbox.take?_eq_none_iff _).1 ht
    dsimp only
    cases hr : (w.mailbox m).receiver with
    | none =>
      simp only [Mailbox.wait?, hr]
      exact .wait hq hr rfl
    | some other =>
      simp only [Mailbox.wait?, hr]
      exact .displaced hq hr rfl

/-- A message that a receiver is given was the next one, and the receiver has not been given up. -/
theorem take?_of_offer {w : World} {m : MailboxId} {epoch : Nat} {waker : Waker} {message : Value}
    (h : (w.offer m epoch waker).2 = some message) :
    (∃ rest, (w.mailbox m).take? = some (message, rest)) ∧ w.isAbandoned epoch = false := by
  cases w.offers_offer m epoch waker with
  | take ht ha hw hm =>
    cases h.symm.trans hm
    exact ⟨⟨_, ht⟩, ha⟩
  | requeue ht ha hw => rw [hw] at h; cases h
  | wait hq hr hw => rw [hw] at h; cases h
  | displaced hq hr hw => rw [hw] at h; cases h

/-- The ways in which a message can be offered to the embedding program, which is never given up. -/
inductive Hears (w : World) (m : MailboxId) (tag : String) (w' : World) : Prop
  | take {message : Value} {rest : Mailbox} (ht : (w.mailbox m).take? = some (message, rest))
      (h : (w.setMailbox m rest).Queues [] w')
  | wait (hq : (w.mailbox m).queue = []) (hr : (w.mailbox m).receiver = none)
      (h : w' = w.setMailbox m { w.mailbox m with receiver := some (.report tag) })
  | displaced {other : Waker} (hq : (w.mailbox m).queue = [])
      (hr : (w.mailbox m).receiver = some other) (h : w.Queues [] w')

theorem hears_wakeNext (w : World) (m : MailboxId) (tag : String) :
    w.Hears m tag (w.wakeNext m (.report tag)) := by
  unfold wakeNext
  cases ht : (w.mailbox m).take? with
  | some taken => exact .take ht (queues_addEntry _ _)
  | none =>
    have hq := (Mailbox.take?_eq_none_iff _).1 ht
    dsimp only
    cases hr : (w.mailbox m).receiver with
    | none =>
      simp only [Mailbox.wait?, hr]
      exact .wait hq hr rfl
    | some other =>
      simp only [Mailbox.wait?, hr]
      exact .displaced hq hr (w.queues_report _)

end World

/-! ## Timers -/

namespace Scheduler

variable {τ : Type}

theorem promote_spec (s : Scheduler τ) (now : Nat) :
    ∃ due, (s.promote now).ready = s.ready ++ due.map (·.task) ∧
      s.timers = due ++ (s.promote now).timers :=
  ⟨_, rfl, (List.takeWhile_append_dropWhile).symm⟩

/-- Settling makes some of the first timers ready. -/
theorem settle_spec (s : Scheduler τ) :
    ∃ due, s.settle.ready = s.ready ++ due.map (·.task) ∧ s.timers = due ++ s.settle.timers := by
  obtain ⟨due, hr, ht⟩ := s.promote_spec s.clock
  simp only [settle]
  split
  · rename_i timer rest _ _
    obtain ⟨due', hr', ht'⟩ :=
      promote_spec { s.promote s.clock with clock := timer.due } timer.due
    refine ⟨due ++ due', ?_, ?_⟩
    · rw [hr', hr, List.map_append, List.append_assoc]
    · rw [ht, List.append_assoc]
      exact congrArg (due ++ ·) ht'
  · exact ⟨due, hr, ht⟩

/-- A scheduler that has settled with nothing ready has no timers either. -/
theorem timers_of_settle {s : Scheduler τ} (h : s.settle.ready = []) : s.settle.timers = [] := by
  simp only [settle] at h ⊢
  split at h
  · rename_i timer rest hr ht
    have key : ∀ u : Scheduler τ, u.timers = timer :: rest →
        (u.promote timer.due).ready ≠ [] := fun u hu => by simp [promote, hu]
    exact absurd h (key _ ht)
  · rename_i hn
    cases ht : (s.promote s.clock).timers with
    | nil => rfl
    | cons timer rest => exact absurd ht (hn timer rest h)

theorem timers_schedule (s : Scheduler τ) (due : Nat) (task : τ) :
    ∃ before after, s.timers = before ++ after ∧
      (s.schedule due task).timers = before ++ ⟨due, s.nextSerial, task⟩ :: after :=
  ⟨_, _, (List.takeWhile_append_dropWhile).symm, rfl⟩

variable {P : τ → Prop} {s : Scheduler τ}

/-- What holds of the tasks of all timers holds of them still when one more has it. -/
theorem forall_timers_schedule (h : ∀ timer ∈ s.timers, P timer.task) (due : Nat) {task : τ}
    (ht : P task) : ∀ timer ∈ (s.schedule due task).timers, P timer.task := by
  obtain ⟨before, after, hold, hnew⟩ := s.timers_schedule due task
  rw [hold] at h
  rw [hnew]
  obtain ⟨hbefore, hafter⟩ := List.forall_mem_append.1 h
  exact List.forall_mem_append.2 ⟨hbefore, List.forall_mem_cons.2 ⟨ht, hafter⟩⟩

/-- What holds of the tasks of all timers holds of those that become ready, and of those that are
left. -/
theorem forall_settle (h : ∀ timer ∈ s.timers, P timer.task) :
    (∃ tasks, s.settle.ready = s.ready ++ tasks ∧ ∀ task ∈ tasks, P task) ∧
      ∀ timer ∈ s.settle.timers, P timer.task := by
  obtain ⟨due, hr, ht⟩ := s.settle_spec
  rw [ht] at h
  obtain ⟨hdue, hrest⟩ := List.forall_mem_append.1 h
  exact ⟨⟨_, hr, List.forall_mem_map.2 hdue⟩, hrest⟩

end Scheduler

/-! ## Quiet effects -/

/-- Effects that leave all cells alone. -/
def Effect.isQuiet : Effect → Bool
  | .report _ | .print _ | .snapshot _ _ | .define _ _ _ | .defineWord _ _ _ | .adopt _ _
  | .newObject _ | .setProperty _ _ _ | .restore _ | .harvest _ | .enter _ _ _ | .wakeWaiter _
  | .endTurn | .pass _ _ | .startClock | .abandon _ | .beginEpoch | .install => true
  | _ => false

namespace World

/-- What holds of a new environment and is kept by words that are bound there holds once the built-in
words are bound in it. -/
theorem newBuiltinRoot_induct {I : World → Prop} {w : World} (hroot : I w.newRoot.1)
    (hdefine : ∀ v name behaviour, behaviour.isBuiltin = true → I v →
      I (v.defineWord w.newRoot.2 name behaviour)) : I w.newBuiltinRoot.1 := by
  have words : ∀ {α : Type} (name : α → Name) {behaviour : α → Behaviour},
      (∀ word, (behaviour word).isBuiltin = true) → ∀ (l : List α) (v : World), I v →
        I (l.foldl (fun v word => v.defineWord w.newRoot.2 (name word) (behaviour word)) v) := by
    intro α name behaviour hb l
    induction l with
    | nil => exact fun v hv => hv
    | cons word l ih => exact fun v hv => ih _ (hdefine v _ _ (hb word) hv)
  exact words ControlWord.name (fun _ => rfl) _ _
    (words StateWord.name (fun _ => rfl) _ _ (words PureWord.name (fun _ => rfl) _ _ hroot))

theorem sameCells_newBuiltinRoot (w : World) : w.SameCells w.newBuiltinRoot.1 :=
  newBuiltinRoot_induct ⟨rfl, rfl, rfl, rfl, rfl, rfl⟩
    fun _ _ _ _ hv => hv.trans ⟨rfl, rfl, rfl, rfl, rfl, rfl⟩

theorem sameCells_instantiate (w : World) (env : EnvId) (block : Block) :
    w.SameCells (w.instantiate env block).1 := by
  unfold instantiate
  split <;> exact ⟨rfl, rfl, rfl, rfl, rfl, rfl⟩

theorem sameCells_openActivation (w : World) (captured : Bindings Value)
    (own : Option (Name × Value)) : w.SameCells (w.openActivation captured own).1 := by
  cases own <;> exact ⟨rfl, rfl, rfl, rfl, rfl, rfl⟩

theorem sameCells_apply (w : World) {e : Effect} (h : e.isQuiet = true) :
    w.SameCells (w.apply e) := by
  cases e with
  | snapshot env block => exact w.sameCells_instantiate env block
  | enter captured own block => exact w.sameCells_openActivation captured own
  | install => exact w.sameCells_newBuiltinRoot
  | report | print | define | defineWord | adopt | newObject | setProperty | restore | harvest
  | wakeWaiter | endTurn | pass | startClock | abandon | beginEpoch =>
    exact ⟨rfl, rfl, rfl, rfl, rfl, rfl⟩
  | _ => cases h

/-! ## Effects on one cell -/

end World

/-- What a process keeps all its life: its environment and its mailbox. -/
def Process.traits (process : Process) : EnvId × MailboxId := (process.env, process.mailbox)

/-- Effects that leave the variables alone. -/
def Effect.keepsVariables : Effect → Bool
  | .newVariable _ | .bind _ _ | .awaitVariable _ _ _ => false
  | _ => true

/-- Effects that leave the processes alone. -/
def Effect.keepsProcesses : Effect → Bool
  | .spawn _ _ _ | .awaitProcess _ _ _ | .finish _ _ | .markRunning _ => false
  | _ => true

/-- Effects that leave the mailboxes alone. -/
def Effect.keepsMailboxes : Effect → Bool
  | .spawn _ _ _ | .deliver _ _ | .receive _ _ | .wakeReceiver _ _ => false
  | _ => true

/-- Effects that change at most one cell, one that is there already, and may queue some tasks. -/
def Effect.touches : Effect → Bool
  | .deliver _ _ | .bind _ _ | .later _ | .awaitVariable _ _ _ | .awaitProcess _ _ _ | .receive _ _
  | .finish _ _ | .markRunning _ | .wakeReceiver _ _ => true
  | _ => false

namespace World

/-- What becomes of the world with such an effect. -/
inductive Touches (w : World) (e : Effect) (w' : World) : Prop
  | queue {ts : List Task} (h : w.Queues ts w')
  | dataflow {v : VariableId} {f : Variable → Variable} {ts : List Task}
      (he : e.keepsVariables = false) (h : (w.modifyVariable v f).Queues ts w')
  | process {p : ProcessId} {f : Process → Process} {ts : List Task}
      (he : e.keepsProcesses = false)
      (hf : ∀ process, w.processes.get? p.index = some process →
        (f process).traits = process.traits)
      (h : (w.modifyProcess p f).Queues ts w')
  | mailbox {m : MailboxId} {mailbox : Mailbox} {ts : List Task}
      (he : e.keepsMailboxes = false) (h : (w.setMailbox m mailbox).Queues ts w')

/-- **Effects change one cell at a time.** What they leave alone is read off from this. -/
theorem touches_apply (w : World) {e : Effect} (h : e.touches = true) : w.Touches e (w.apply e) := by
  cases e with
  | deliver m message => exact .mailbox rfl (w.queues_deliver m message)
  | bind v value =>
    cases hv : (w.dataflow v).value with
    | some u => simp only [apply, bind_of_bound hv]; exact .queue (.refl w)
    | none => exact .dataflow rfl (bind_of_unbound hv value)
  | later task => exact .queue (w.queues_later task)
  | awaitVariable v s k =>
    cases hv : (w.dataflow v).value with
    | some u => simp only [apply, awaitVariable_of_bound hv]; exact .queue (w.queues_later _)
    | none => simp only [apply, awaitVariable_of_unbound hv]; exact .dataflow rfl (.refl _)
  | awaitProcess p s k =>
    cases hv : (w.process p).result with
    | some u => simp only [apply, awaitProcess_of_result hv]; exact .queue (w.queues_later _)
    | none =>
      simp only [apply, awaitProcess_of_none hv]
      exact .process (f := (·.addNotify _)) rfl (fun _ _ => rfl) (.refl _)
  | receive s k =>
    cases w.receives_receive s k with
    | refuse he hq hw => exact .queue hw
    | take ho ht hw => exact .mailbox rfl hw
    | wait ho hq hr hw =>
      rw [show w.apply (.receive s k) = _ from hw]
      exact .mailbox rfl (.refl _)
  | finish p outcome =>
    by_cases hs : (w.process p).state = .done
    · simp only [apply, finishProcess_of_done hs]
      refine .process (p := p) (f := fun _ => w.process p) rfl (fun process hg => ?_)
        (queues_count _ Stats.completed)
      exact congrArg Process.traits (Table.get_eq_of_get? hg)
    · refine .process rfl (fun process hg => ?_) (finishProcess_of_ne_done hs outcome)
      show (w.process p).traits = process.traits
      exact congrArg Process.traits (Table.get_eq_of_get? hg)
  | markRunning p =>
    refine .process rfl (fun process _ => ?_) (.refl _)
    exact Prod.ext process.env_markRunning process.mailbox_markRunning
  | wakeReceiver m waker =>
    cases waker with
    | resume epoch s k =>
      simp only [apply]
      cases w.offers_offer m epoch (.resume epoch s k) with
      | take ht ha hw hm => exact .mailbox rfl hw
      | requeue ht ha hw => rw [hw]; exact .queue (.refl w)
      | wait hq hr hw => rw [hw]; exact .mailbox rfl (.refl _)
      | displaced hq hr hw => rw [hw]; exact .queue (w.queues_report _)
    | report tag =>
      cases w.hears_wakeNext m tag with
      | take ht hw => exact .mailbox rfl hw
      | wait hq hr hw =>
        rw [show w.apply (.wakeReceiver m (.report tag)) = _ from hw]
        exact .mailbox rfl (.refl _)
      | displaced hq hr hw => exact .queue hw
  | _ => cases h

/-! ## Effects on cells only -/

/-- `w'` has the definitions of `w`: its environments, snapshots, vocabularies and objects. -/
structure SameDefinitions (w w' : World) : Prop where
  forest : w'.forest = w.forest
  captures : w'.captures = w.captures
  vocabularies : w'.vocabularies = w.vocabularies
  objects : w'.objects = w.objects

theorem SameDefinitions.refl (w : World) : w.SameDefinitions w := ⟨rfl, rfl, rfl, rfl⟩

theorem Queues.sameDefinitions {w w' : World} {ts : List Task} (h : w.Queues ts w') :
    w.SameDefinitions w' := ⟨h.forest, h.captures, h.vocabularies, h.objects⟩

end World

/-- Effects that leave all definitions alone. -/
def Effect.keepsDefinitions : Effect → Bool
  | .snapshot _ _ | .define _ _ _ | .defineWord _ _ _ | .adopt _ _ | .newObject _
  | .setProperty _ _ _ | .spawn _ _ _ | .restore _ | .harvest _ | .enter _ _ _ | .launch _ _
  | .install => false
  | _ => true

namespace World

theorem sameDefinitions_apply (w : World) {e : Effect} (h : e.keepsDefinitions = true) :
    w.SameDefinitions (w.apply e) := by
  by_cases htouch : e.touches = true
  · cases w.touches_apply htouch with
    | queue hw => exact hw.sameDefinitions
    | dataflow _ hw | process _ _ hw | mailbox _ hw =>
      exact ⟨hw.forest, hw.captures, hw.vocabularies, hw.objects⟩
  cases e with
  | snapshot | define | defineWord | adopt | newObject | setProperty | spawn | restore | harvest
  | enter | launch | install => cases h
  | deliver | bind | later | awaitVariable | awaitProcess | receive | finish | markRunning
  | wakeReceiver => exact absurd rfl htouch
  | _ => exact ⟨rfl, rfl, rfl, rfl⟩

/-! ## Epochs and turns -/

/-- `w'` is in the epoch and the turn of `w`. -/
structure SamePhase (w w' : World) : Prop where
  epoch : w'.scheduler.epoch = w.scheduler.epoch
  abandoned : w'.scheduler.abandoned = w.scheduler.abandoned
  depth : w'.scheduler.dispatchDepth = w.scheduler.dispatchDepth

theorem SamePhase.refl (w : World) : w.SamePhase w := ⟨rfl, rfl, rfl⟩

theorem SamePhase.dispatching {w w' : World} (h : w.SamePhase w') :
    w'.scheduler.dispatching = w.scheduler.dispatching := by
  rw [Scheduler.dispatching, h.depth, Scheduler.dispatching]

theorem SamePhase.trans {w w' w'' : World} (h : w.SamePhase w') (h' : w'.SamePhase w'') :
    w.SamePhase w'' :=
  ⟨h'.epoch.trans h.epoch, h'.abandoned.trans h.abandoned, h'.depth.trans h.depth⟩

theorem Queues.samePhase {w w' : World} {ts : List Task} (h : w.Queues ts w') : w.SamePhase w' :=
  ⟨h.epoch, h.abandoned, h.depth⟩

theorem SamePhase.isAbandoned {w w' : World} (h : w.SamePhase w') (epoch : Nat) :
    w'.isAbandoned epoch = w.isAbandoned epoch := by
  simp only [World.isAbandoned, Scheduler.isAbandoned, h.abandoned]

theorem samePhase_newBuiltinRoot (w : World) : w.SamePhase w.newBuiltinRoot.1 :=
  newBuiltinRoot_induct ⟨rfl, rfl, rfl⟩ fun _ _ _ _ hv => hv.trans ⟨rfl, rfl, rfl⟩

end World

/-- Effects that neither begin or end a turn, nor begin an epoch or give one up. -/
def Effect.keepsPhase : Effect → Bool
  | .abandon _ | .beginEpoch | .launch _ _ | .beginTurn | .endTurn => false
  | _ => true

namespace World

theorem samePhase_apply (w : World) {e : Effect} (h : e.keepsPhase = true) :
    w.SamePhase (w.apply e) := by
  by_cases htouch : e.touches = true
  · cases w.touches_apply htouch with
    | queue hw => exact hw.samePhase
    | dataflow _ hw | process _ _ hw | mailbox _ hw => exact ⟨hw.epoch, hw.abandoned, hw.depth⟩
  cases e with
  | snapshot env block =>
    simp only [apply, instantiate]
    split <;> exact ⟨rfl, rfl, rfl⟩
  | enter captured own block => cases own <;> exact ⟨rfl, rfl, rfl⟩
  | settle =>
    simp only [apply, mapScheduler, Scheduler.settle]
    split <;> exact ⟨rfl, rfl, rfl⟩
  | install => exact w.samePhase_newBuiltinRoot
  | abandon | beginEpoch | launch | beginTurn | endTurn => cases h
  | deliver | bind | later | awaitVariable | awaitProcess | receive | finish | markRunning
  | wakeReceiver => exact absurd rfl htouch
  | _ => exact ⟨rfl, rfl, rfl⟩

end World

/-- Only the beginning and the end of an evaluation change the slots. -/
def Effect.keepsSlots : Effect → Bool
  | .fillSlot _ _ | .launch _ _ => false
  | _ => true

namespace World

theorem slots_apply (w : World) {e : Effect} (h : e.keepsSlots = true) :
    (w.apply e).slots = w.slots := by
  by_cases hquiet : e.isQuiet = true
  · exact (w.sameCells_apply hquiet).slots
  by_cases htouch : e.touches = true
  · cases w.touches_apply htouch with
    | queue hw | dataflow _ hw | process _ _ hw | mailbox _ hw => exact hw.slots
  cases e with
  | fillSlot | launch => cases h
  | spawn | newVariable | schedule | beginTurn | settle | discard => rfl
  | _ => first | exact absurd rfl hquiet | exact absurd rfl htouch

theorem dataflows_apply (w : World) {e : Effect} (h : e.keepsVariables = true) :
    (w.apply e).dataflows = w.dataflows := by
  by_cases hquiet : e.isQuiet = true
  · exact (w.sameCells_apply hquiet).dataflows
  by_cases htouch : e.touches = true
  · cases w.touches_apply htouch with
    | dataflow he _ => exact Bool.noConfusion (he.symm.trans h)
    | queue hw | process _ _ hw | mailbox _ hw => exact hw.dataflows
  cases e with
  | newVariable => cases h
  | spawn | schedule | fillSlot | beginTurn | settle | discard | launch => rfl
  | _ => first | exact absurd rfl hquiet | exact absurd rfl htouch

theorem processes_apply (w : World) {e : Effect} (h : e.keepsProcesses = true) :
    (w.apply e).processes = w.processes := by
  by_cases hquiet : e.isQuiet = true
  · exact (w.sameCells_apply hquiet).processes
  by_cases htouch : e.touches = true
  · cases w.touches_apply htouch with
    | process he _ _ => exact Bool.noConfusion (he.symm.trans h)
    | queue hw | dataflow _ hw | mailbox _ hw => exact hw.processes
  cases e with
  | spawn => cases h
  | newVariable | schedule | fillSlot | beginTurn | settle | discard | launch => rfl
  | _ => first | exact absurd rfl hquiet | exact absurd rfl htouch

theorem mailboxes_apply (w : World) {e : Effect} (h : e.keepsMailboxes = true) :
    (w.apply e).mailboxes = w.mailboxes := by
  by_cases hquiet : e.isQuiet = true
  · exact (w.sameCells_apply hquiet).mailboxes
  by_cases htouch : e.touches = true
  · cases w.touches_apply htouch with
    | mailbox he _ => exact Bool.noConfusion (he.symm.trans h)
    | queue hw | dataflow _ hw | process _ _ hw => exact hw.mailboxes
  cases e with
  | spawn => cases h
  | newVariable | schedule | fillSlot | beginTurn | settle | discard | launch => rfl
  | _ => first | exact absurd rfl hquiet | exact absurd rfl htouch

/-! ## What processes keep -/

end World

namespace World

variable {w w' : World}

/-- `w'` has the processes of `w`, each with its environment and its mailbox. -/
structure SameTraits (w w' : World) : Prop where
  processes : ∀ i, (w'.processes.get? i).map Process.traits = (w.processes.get? i).map Process.traits
  mailboxes : w'.mailboxes.size = w.mailboxes.size

namespace SameTraits

theorem refl (w : World) : w.SameTraits w := ⟨fun _ => rfl, rfl⟩

theorem of_eq (hp : w'.processes = w.processes) (hm : w'.mailboxes.size = w.mailboxes.size) :
    w.SameTraits w' := ⟨fun _ => by rw [hp], hm⟩

theorem trans {w'' : World} (h : w.SameTraits w') (h' : w'.SameTraits w'') : w.SameTraits w'' :=
  ⟨fun i => (h'.processes i).trans (h.processes i), h'.mailboxes.trans h.mailboxes⟩

theorem of_queues {ts : List Task} (h : w.Queues ts w') : w.SameTraits w' :=
  .of_eq h.processes (congrArg Table.size h.mailboxes)

theorem setMailbox (w : World) (m : MailboxId) (mailbox : Mailbox) :
    w.SameTraits (w.setMailbox m mailbox) := .of_eq rfl (Table.size_set _ _ _)

theorem modifyProcess {p : ProcessId} {f : Process → Process}
    (hf : ∀ process, w.processes.get? p.index = some process →
      (f process).traits = process.traits) : w.SameTraits (w.modifyProcess p f) := by
  refine ⟨fun i => ?_, rfl⟩
  rw [World.modifyProcess, Table.get?_modify]
  split
  · rename_i hi
    cases hg : w.processes.get? i with
    | none => rfl
    | some process => exact congrArg some (hf process (hi ▸ hg))
  · rfl

/-- No process is added. -/
theorem size (h : w.SameTraits w') : w'.processes.size = w.processes.size := by
  have key : ∀ i, w'.processes.size ≤ i ↔ w.processes.size ≤ i := fun i => by
    rw [← Table.get?_eq_none_iff, ← Table.get?_eq_none_iff, ← Option.map_eq_none_iff (f := Process.traits),
      h.processes i, Option.map_eq_none_iff]
  exact Nat.le_antisymm ((key _).2 le_rfl) ((key _).1 le_rfl)

theorem all (h : w.SameTraits w') {P : Nat → EnvId × MailboxId → Prop}
    (hp : w.processes.All fun i process => P i process.traits) :
    w'.processes.All fun i process => P i process.traits := by
  intro i process hg
  have ht := h.processes i
  rw [hg, Option.map_some] at ht
  obtain ⟨old, hold, hsame⟩ := Option.map_eq_some_iff.1 ht.symm
  exact hsame ▸ hp i old hold

end SameTraits

end World

/-- Whether an effect makes a process. -/
def Effect.spawns : Effect → Bool
  | .spawn _ _ _ => true
  | _ => false

namespace World

variable {w : World}

theorem sameTraits_apply (w : World) {e : Effect} (h : e.spawns = false) :
    w.SameTraits (w.apply e) := by
  by_cases hquiet : e.isQuiet = true
  · have hs := w.sameCells_apply hquiet
    exact .of_eq hs.processes (congrArg Table.size hs.mailboxes)
  by_cases htouch : e.touches = true
  · cases w.touches_apply htouch with
    | queue hw => exact .of_queues hw
    | dataflow _ hw => exact .of_eq hw.processes (congrArg Table.size hw.mailboxes)
    | process _ hf hw => exact (SameTraits.modifyProcess hf).trans (.of_queues hw)
    | mailbox _ hw => exact (SameTraits.setMailbox w _ _).trans (.of_queues hw)
  cases e with
  | spawn captured block parent => cases h
  | newVariable | schedule | fillSlot | beginTurn | settle | discard | launch => exact .of_eq rfl rfl
  | _ => first | exact absurd rfl hquiet | exact absurd rfl htouch

/-- Every process has a mailbox of its own: they are made together. -/
structure Matched (w : World) : Prop where
  size : w.mailboxes.size = w.processes.size
  index : w.processes.All fun i process => process.mailbox = ⟨i⟩

theorem Matched.mailbox (h : w.Matched) {p : ProcessId} (hp : p.index < w.processes.size) :
    (w.process p).mailbox = ⟨p.index⟩ := h.index.get hp

theorem Matched.spawn (h : w.Matched) (captured : Bindings Value) (block : Block)
    (parent : Option ProcessId) : (w.apply (.spawn captured block parent)).Matched := by
  refine ⟨?_, h.index.push (congrArg MailboxId.mk h.size)⟩
  show (w.mailboxes.push _).size = (w.processes.push _).size
  rw [Table.size_push, Table.size_push, h.size]

theorem Matched.apply (h : w.Matched) (e : Effect) : (w.apply e).Matched := by
  cases hs : e.spawns with
  | false =>
    have ht := w.sameTraits_apply hs
    exact ⟨ht.mailboxes.trans (h.size.trans ht.size.symm),
      ht.all (P := fun i traits => traits.2 = ⟨i⟩) h.index⟩
  | true =>
    cases e with
    | spawn captured block parent => exact h.spawn captured block parent
    | _ => cases hs

end World

end Catena
