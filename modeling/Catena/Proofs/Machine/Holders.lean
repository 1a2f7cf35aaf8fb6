import Catena.Proofs.Machine.Cells

/-!
# Where continuations are held

Between turns a continuation is held in a task, which is queued or waits for its time, or by a waker
in a cell. `Holders V T K w` says that all of them have a certain property, and so have the values
that the cells hand out. What effects do to them is always the same: a cell that releases its wakers
turns them into tasks (`Passes`), and otherwise only those come in that an effect brings
(`Effect.Brings`). So a property of continuations is kept by all effects once these two are known
(`Holders.apply`).
-/

namespace Catena

/-- The cells in which wakers wait. -/
inductive Cell where
  | dataflow (v : VariableId)
  | process (p : ProcessId)
  | mailbox (m : MailboxId)
  deriving DecidableEq

namespace World

/-- Those who wait in a cell. -/
def waiting (w : World) : Cell → List Waker
  | .dataflow v => (w.dataflow v).waiters
  | .process p => (w.process p).notify
  | .mailbox m => (w.mailbox m).receiver.toList

/-- The values in a cell: that of a variable, the result of a process, or the messages in a mailbox. -/
def contents (w : World) : Cell → List Value
  | .dataflow v => (w.dataflow v).value.toList
  | .process p => (w.process p).result.toList
  | .mailbox m => (w.mailbox m).queue

end World

/-- Every task has `T`, every waker in a cell has `K` there, and every value in a cell has `V` there. -/
structure Holders (V : Cell → Value → Prop) (T : Task → Prop) (K : Cell → Waker → Prop) (w : World) :
    Prop where
  ready : ∀ task ∈ w.scheduler.ready, T task
  timers : ∀ timer ∈ w.scheduler.timers, T timer.task
  waiters : w.dataflows.All fun i cell => ∀ waker ∈ cell.waiters, K (.dataflow ⟨i⟩) waker
  notify : w.processes.All fun i process => ∀ waker ∈ process.notify, K (.process ⟨i⟩) waker
  receivers : w.mailboxes.All fun i mailbox =>
    ∀ waker, mailbox.receiver = some waker → K (.mailbox ⟨i⟩) waker
  bound : w.dataflows.All fun i cell => ∀ v, cell.value = some v → V (.dataflow ⟨i⟩) v
  results : w.processes.All fun i process => ∀ v, process.result = some v → V (.process ⟨i⟩) v
  messages : w.mailboxes.All fun i mailbox => ∀ v ∈ mailbox.queue, V (.mailbox ⟨i⟩) v

/-- A waker that its cell releases has, as a task, what it had in the cell. One who waits for a process
is released only if its epoch has not been given up. -/
structure Passes (V : Cell → Value → Prop) (T : Task → Prop) (K : Cell → Waker → Prop) (w : World) :
    Prop where
  waiter : ∀ {v waker}, K (.dataflow v) waker →
    ∀ value, V (.dataflow v) value → T (.wakeWaiter waker value)
  joiner : ∀ {p epoch s k}, w.isAbandoned epoch = false → K (.process p) (.resume epoch s k) →
    ∀ value, V (.process p) value → T (.resume k (.ok (s.push value)))
  receiver : ∀ {m waker}, K (.mailbox m) waker → T (.wakeReceiver m waker)

/-- What an effect brings in has the properties. -/
def Effect.Brings (V : Cell → Value → Prop) (T : Task → Prop) (K : Cell → Waker → Prop) (w : World) :
    Effect → Prop
  | .later task | .schedule _ task => T task
  | .spawn _ block parent =>
    T (.start ⟨w.processes.size⟩ block.code (World.firstStack parent ⟨w.processes.size⟩))
  | .deliver m v => V (.mailbox m) v
  | .bind d v => V (.dataflow d) v
  | .finish p outcome => V (.process p) (World.resultOf outcome)
  | .awaitVariable v s k =>
    (∀ value, V (.dataflow v) value → T (.resume k (.ok (s.push value)))) ∧
      K (.dataflow v) (.resume w.scheduler.epoch s k)
  | .awaitProcess p s k =>
    (∀ value, V (.process p) value → T (.resume k (.ok (s.push value)))) ∧
      K (.process p) (.resume w.scheduler.epoch s k)
  | .receive s k =>
    (∀ p value, s.owner = some p → V (.mailbox (w.process p).mailbox) value →
        T (.resume k (.ok (s.push value)))) ∧
      (∀ e : Error, e.ofProgram = true → T (.resume k (.error e))) ∧
      ∀ p, s.owner = some p →
        K (.mailbox (w.process p).mailbox) (.resume w.scheduler.epoch s k)
  | .wakeReceiver m waker => K (.mailbox m) waker
  | _ => True

namespace Holders

variable {V : Cell → Value → Prop} {T : Task → Prop} {K : Cell → Waker → Prop} {w w' : World}

theorem imp {V' : Cell → Value → Prop} {T' : Task → Prop} {K' : Cell → Waker → Prop}
    (h : Holders V T K w) (hV : ∀ c v, V c v → V' c v) (hT : ∀ task, T task → T' task)
    (hK : ∀ c waker, K c waker → K' c waker) : Holders V' T' K' w where
  ready := fun task ht => hT task (h.ready task ht)
  timers := fun timer ht => hT _ (h.timers timer ht)
  waiters := h.waiters.imp fun _ _ hw waker hk => hK _ waker (hw waker hk)
  notify := h.notify.imp fun _ _ hw waker hk => hK _ waker (hw waker hk)
  receivers := h.receivers.imp fun _ _ hw waker hk => hK _ waker (hw waker hk)
  bound := h.bound.imp fun _ _ hc v hv => hV _ v (hc v hv)
  results := h.results.imp fun _ _ hc v hv => hV _ v (hc v hv)
  messages := h.messages.imp fun _ _ hc v hv => hV _ v (hc v hv)

theorem and {V' : Cell → Value → Prop} {T' : Task → Prop} {K' : Cell → Waker → Prop}
    (h : Holders V T K w) (h' : Holders V' T' K' w) :
    Holders (fun c v => V c v ∧ V' c v) (fun task => T task ∧ T' task)
      (fun c waker => K c waker ∧ K' c waker) w where
  ready := fun task ht => ⟨h.ready task ht, h'.ready task ht⟩
  timers := fun timer ht => ⟨h.timers timer ht, h'.timers timer ht⟩
  waiters := fun i cell hg waker hk => ⟨h.waiters i cell hg waker hk, h'.waiters i cell hg waker hk⟩
  notify := fun i cell hg waker hk => ⟨h.notify i cell hg waker hk, h'.notify i cell hg waker hk⟩
  receivers := fun i cell hg waker hk =>
    ⟨h.receivers i cell hg waker hk, h'.receivers i cell hg waker hk⟩
  bound := fun i cell hg v hv => ⟨h.bound i cell hg v hv, h'.bound i cell hg v hv⟩
  results := fun i cell hg v hv => ⟨h.results i cell hg v hv, h'.results i cell hg v hv⟩
  messages := fun i cell hg v hv => ⟨h.messages i cell hg v hv, h'.messages i cell hg v hv⟩

theorem of_mem (hr : ∀ task ∈ w.scheduler.ready, T task)
    (ht : ∀ timer ∈ w.scheduler.timers, T timer.task) (hw : ∀ c, ∀ waker ∈ w.waiting c, K c waker)
    (hv : ∀ c, ∀ v ∈ w.contents c, V c v) : Holders V T K w where
  ready := hr
  timers := ht
  waiters i cell hg waker hk := by
    rw [← Table.get_eq_of_get? hg] at hk
    exact hw (.dataflow ⟨i⟩) waker hk
  notify i process hg waker hk := by
    rw [← Table.get_eq_of_get? hg] at hk
    exact hw (.process ⟨i⟩) waker hk
  receivers i mailbox hg waker hk := by
    rw [← Table.get_eq_of_get? hg] at hk
    exact hw (.mailbox ⟨i⟩) waker (Option.mem_toList.2 hk)
  bound i cell hg v hc := by
    rw [← Table.get_eq_of_get? hg] at hc
    exact hv (.dataflow ⟨i⟩) v (Option.mem_toList.2 hc)
  results i process hg v hc := by
    rw [← Table.get_eq_of_get? hg] at hc
    exact hv (.process ⟨i⟩) v (Option.mem_toList.2 hc)
  messages i mailbox hg v hc := by
    rw [← Table.get_eq_of_get? hg] at hc
    exact hv (.mailbox ⟨i⟩) v hc

theorem empty : Holders V T K {} where
  ready := by simp
  timers := by simp
  waiters := .empty
  notify := .empty
  receivers := .empty
  bound := .empty
  results := .empty
  messages := .empty

theorem sameCells (h : Holders V T K w) (hs : w.SameCells w') : Holders V T K w' where
  ready := hs.ready ▸ h.ready
  timers := hs.timers ▸ h.timers
  waiters := hs.dataflows ▸ h.waiters
  notify := hs.processes ▸ h.notify
  receivers := hs.mailboxes ▸ h.receivers
  bound := hs.dataflows ▸ h.bound
  results := hs.processes ▸ h.results
  messages := hs.mailboxes ▸ h.messages

theorem queues {ts : List Task} (h : Holders V T K w) (hq : w.Queues ts w')
    (ht : ∀ task ∈ ts, T task) : Holders V T K w' where
  ready := by
    rw [hq.ready]
    exact List.forall_mem_append.2 ⟨h.ready, ht⟩
  timers := hq.timers ▸ h.timers
  waiters := hq.dataflows ▸ h.waiters
  notify := hq.processes ▸ h.notify
  receivers := hq.mailboxes ▸ h.receivers
  bound := hq.dataflows ▸ h.bound
  results := hq.processes ▸ h.results
  messages := hq.mailboxes ▸ h.messages

theorem later {task : Task} (h : Holders V T K w) (ht : T task) : Holders V T K (w.later task) :=
  h.queues (w.queues_later task) (List.forall_mem_singleton.2 ht)

theorem waitersOf (h : Holders V T K w) (v : VariableId) :
    ∀ waker ∈ (w.dataflow v).waiters, K (.dataflow v) waker :=
  Table.All.get_of_default h.waiters fun waker hw => by cases hw

theorem notifyOf (h : Holders V T K w) (p : ProcessId) :
    ∀ waker ∈ (w.process p).notify, K (.process p) waker :=
  Table.All.get_of_default h.notify fun waker hw => by cases hw

theorem receiverOf (h : Holders V T K w) (m : MailboxId) :
    ∀ waker, (w.mailbox m).receiver = some waker → K (.mailbox m) waker :=
  Table.All.get_of_default h.receivers fun waker hw => by cases hw

theorem of_mem_waiting (h : Holders V T K w) {c : Cell} {waker : Waker} (hw : waker ∈ w.waiting c) :
    K c waker := by
  cases c with
  | dataflow v => exact h.waitersOf v waker hw
  | process p => exact h.notifyOf p waker hw
  | mailbox m => exact h.receiverOf m waker (Option.mem_toList.1 hw)

theorem valueOf (h : Holders V T K w) (v : VariableId) :
    ∀ u, (w.dataflow v).value = some u → V (.dataflow v) u :=
  Table.All.get_of_default h.bound fun u hu => by cases hu

theorem resultOf (h : Holders V T K w) (p : ProcessId) :
    ∀ u, (w.process p).result = some u → V (.process p) u :=
  Table.All.get_of_default h.results fun u hu => by cases hu

theorem messagesOf (h : Holders V T K w) (m : MailboxId) : ∀ v ∈ (w.mailbox m).queue, V (.mailbox m) v :=
  Table.All.get_of_default h.messages fun v hv => by cases hv

theorem modifyVariable (h : Holders V T K w) {v : VariableId} {f : Variable → Variable}
    (hw : ∀ cell, (∀ waker ∈ cell.waiters, K (.dataflow v) waker) →
      ∀ waker ∈ (f cell).waiters, K (.dataflow v) waker)
    (hb : ∀ cell, (∀ u, cell.value = some u → V (.dataflow v) u) →
      ∀ u, (f cell).value = some u → V (.dataflow v) u) :
    Holders V T K (w.modifyVariable v f) :=
  { h with
    waiters := h.waiters.modify fun cell _ hc => hw cell hc
    bound := h.bound.modify fun cell _ hc => hb cell hc }

theorem modifyProcess (h : Holders V T K w) {p : ProcessId} {f : Process → Process}
    (hn : ∀ process, (∀ waker ∈ process.notify, K (.process p) waker) →
      ∀ waker ∈ (f process).notify, K (.process p) waker)
    (hr : ∀ process, (∀ u, process.result = some u → V (.process p) u) →
      ∀ u, (f process).result = some u → V (.process p) u) : Holders V T K (w.modifyProcess p f) :=
  { h with
    notify := h.notify.modify fun process _ hc => hn process hc
    results := h.results.modify fun process _ hc => hr process hc }

theorem setMailbox (h : Holders V T K w) {m : MailboxId} {mailbox : Mailbox}
    (hr : ∀ waker, mailbox.receiver = some waker → K (.mailbox m) waker)
    (hq : ∀ v ∈ mailbox.queue, V (.mailbox m) v) : Holders V T K (w.setMailbox m mailbox) :=
  { h with
    receivers := h.receivers.set hr
    messages := h.messages.set hq }

theorem joined (hp : Passes V T K w) {p : ProcessId} {waker : Waker} (h : K (.process p) waker)
    {result : Value} (hv : V (.process p) result) : ∀ task ∈ w.joined result waker, T task := by
  cases waker with
  | report tag => simp [World.joined]
  | resume epoch s k =>
    simp only [World.joined]
    split
    · simp
    · rename_i ha
      exact List.forall_mem_singleton.2 (hp.joiner (Bool.eq_false_iff.2 ha) h result hv)

/-- The next message, and the mailbox without it. -/
theorem take (h : Holders V T K w) {m : MailboxId} {message : Value} {rest : Mailbox}
    (ht : (w.mailbox m).take? = some (message, rest)) :
    V (.mailbox m) message ∧ Holders V T K (w.setMailbox m rest) := by
  obtain ⟨hq, hr⟩ := Mailbox.queue_of_take? ht
  have hall := h.messagesOf m
  rw [hq] at hall
  obtain ⟨hv, hrest⟩ := List.forall_mem_cons.1 hall
  exact ⟨hv, h.setMailbox (fun waker hw => h.receiverOf m waker (hr ▸ hw)) hrest⟩

/-- A waker begins to wait in a mailbox. -/
theorem wait (h : Holders V T K w) {m : MailboxId} {waker : Waker} (hw : K (.mailbox m) waker) :
    Holders V T K (w.setMailbox m { w.mailbox m with receiver := some waker }) := by
  refine h.setMailbox (fun other hk => ?_) (h.messagesOf m)
  cases hk
  exact hw

/-! ### The effects on cells -/

theorem deliver (h : Holders V T K w) (hp : Passes V T K w) {m : MailboxId} {message : Value}
    (hv : V (.mailbox m) message) : Holders V T K (w.deliver m message) := by
  refine Holders.queues (h.setMailbox ?_ ?_) (w.queues_deliver m message) ?_
  · intro waker hw
    cases hw
  · exact List.forall_mem_append.2 ⟨h.messagesOf m, List.forall_mem_singleton.2 hv⟩
  · intro task ht
    obtain ⟨waker, hw, rfl⟩ := List.mem_map.1 ht
    exact hp.receiver (h.receiverOf m waker (Option.mem_toList.1 hw))

theorem bind (h : Holders V T K w) (hp : Passes V T K w) {v : VariableId} {value : Value}
    (hvalue : V (.dataflow v) value) : Holders V T K (w.bind v value) := by
  cases hv : (w.dataflow v).value with
  | some u => rwa [World.bind_of_bound hv]
  | none =>
    refine Holders.queues (h.modifyVariable ?_ ?_) (World.bind_of_unbound hv value) ?_
    · intro cell _ waker hw
      cases hw
    · intro cell _ u hu
      cases hu
      exact hvalue
    · intro task ht
      obtain ⟨waker, hw, rfl⟩ := List.mem_map.1 ht
      exact hp.waiter (h.waitersOf v waker hw) value hvalue

theorem awaitVariable (h : Holders V T K w) {v : VariableId} {s : Stack} {k : Continuation}
    (ht : ∀ value, V (.dataflow v) value → T (.resume k (.ok (s.push value))))
    (hk : K (.dataflow v) (.resume w.scheduler.epoch s k)) :
    Holders V T K (w.awaitVariable v s k) := by
  cases hv : (w.dataflow v).value with
  | some u =>
    rw [World.awaitVariable_of_bound hv]
    exact h.later (ht u (h.valueOf v u hv))
  | none =>
    rw [World.awaitVariable_of_unbound hv]
    refine h.modifyVariable (fun cell hc => ?_) fun cell hc => hc
    exact List.forall_mem_append.2 ⟨hc, List.forall_mem_singleton.2 hk⟩

theorem awaitProcess (h : Holders V T K w) {p : ProcessId} {s : Stack} {k : Continuation}
    (ht : ∀ value, V (.process p) value → T (.resume k (.ok (s.push value))))
    (hk : K (.process p) (.resume w.scheduler.epoch s k)) :
    Holders V T K (w.awaitProcess p s k) := by
  cases hv : (w.process p).result with
  | some u =>
    rw [World.awaitProcess_of_result hv]
    exact h.later (ht u (h.resultOf p u hv))
  | none =>
    rw [World.awaitProcess_of_none hv]
    refine h.modifyProcess (fun process hc => ?_) fun process hc => hc
    exact List.forall_mem_append.2 ⟨hc, List.forall_mem_singleton.2 hk⟩

theorem receive (h : Holders V T K w) {s : Stack} {k : Continuation}
    (he : (Effect.receive s k).Brings V T K w) : Holders V T K (w.receive s k) := by
  obtain ⟨hgiven, hrefused, hwaits⟩ := he
  cases w.receives_receive s k with
  | refuse ho hq hw => exact h.queues hw (List.forall_mem_singleton.2 (hrefused _ ho))
  | take ho ht hw =>
    obtain ⟨hv, hrest⟩ := h.take ht
    exact hrest.queues hw (List.forall_mem_singleton.2 (hgiven _ _ ho hv))
  | wait ho hq hr hw =>
    rw [hw]
    exact h.wait (hwaits _ ho)

theorem finish (h : Holders V T K w) (hp : Passes V T K w) {p : ProcessId} {outcome : Outcome}
    (hv : V (.process p) (World.resultOf outcome)) : Holders V T K (w.finishProcess p outcome) := by
  by_cases hs : (w.process p).state = .done
  · rw [World.finishProcess_of_done hs]
    have hc := h.queues (w.queues_count Stats.completed) (List.forall_mem_nil _)
    exact hc.modifyProcess (fun _ _ => h.notifyOf p) fun _ _ => h.resultOf p
  · refine Holders.queues (h.modifyProcess ?_ ?_) (World.finishProcess_of_ne_done hs outcome) ?_
    · intro process _ waker hw
      cases hw
    · intro process _ u hu
      cases hu
      exact hv
    · intro task ht
      obtain ⟨waker, hw, ht⟩ := List.mem_flatMap.1 ht
      exact joined hp (h.notifyOf p waker hw) hv task ht

theorem wakeReceiver (h : Holders V T K w) {m : MailboxId} {waker : Waker}
    (hk : K (.mailbox m) waker) : Holders V T K (w.apply (.wakeReceiver m waker)) := by
  have hnone : ∀ task ∈ ([] : List Task), T task := List.forall_mem_nil _
  cases waker with
  | resume epoch s k =>
    simp only [World.apply]
    cases w.offers_offer m epoch (.resume epoch s k) with
    | take ht ha hw hm => exact (h.take ht).2.queues hw hnone
    | requeue ht ha hw => rw [hw]; exact h
    | wait hq hr hw => rw [hw]; exact h.wait hk
    | displaced hq hr hw => rw [hw]; exact { h with }
  | report tag =>
    cases w.hears_wakeNext m tag with
    | take ht hw => exact (h.take ht).2.queues hw hnone
    | wait hq hr hw =>
      rw [show w.apply (.wakeReceiver m (.report tag)) = _ from hw]
      exact h.wait hk
    | displaced hq hr hw => exact h.queues hw hnone

theorem settle (h : Holders V T K w) : Holders V T K (w.mapScheduler Scheduler.settle) := by
  obtain ⟨⟨tasks, hr, ht⟩, htimers⟩ := Scheduler.forall_settle h.timers
  refine { h with ready := ?_, timers := htimers }
  show ∀ task ∈ w.scheduler.settle.ready, T task
  rw [hr]
  exact List.forall_mem_append.2 ⟨h.ready, ht⟩

/-- **Effects keep what they bring and pass on.** -/
theorem apply (h : Holders V T K w) (hp : Passes V T K w) {e : Effect} (he : e.Brings V T K w) :
    Holders V T K (w.apply e) := by
  by_cases hquiet : e.isQuiet = true
  · exact h.sameCells (w.sameCells_apply hquiet)
  cases e with
  | spawn captured block parent =>
    exact { h with
      ready := List.forall_mem_append.2 ⟨h.ready, List.forall_mem_singleton.2 he⟩
      notify := h.notify.push fun waker hw => by cases hw
      receivers := h.receivers.push fun waker hw => by cases hw
      results := h.results.push fun v hv => by cases hv
      messages := h.messages.push fun v hv => by cases hv }
  | newVariable name =>
    exact { h with
      waiters := h.waiters.push fun waker hw => by cases hw
      bound := h.bound.push fun v hv => by cases hv }
  | deliver m message => exact h.deliver hp he
  | bind v value => exact h.bind hp he
  | later task => exact h.later he
  | schedule due task =>
    exact { h with timers := Scheduler.forall_timers_schedule h.timers due he }
  | awaitVariable v s k => exact h.awaitVariable he.1 he.2
  | awaitProcess p s k => exact h.awaitProcess he.1 he.2
  | receive s k => exact h.receive he
  | finish p outcome => exact h.finish hp he
  | wakeReceiver m waker => exact h.wakeReceiver he
  | settle => exact h.settle
  | beginTurn => exact { h with ready := fun task ht => h.ready task (List.mem_of_mem_tail ht) }
  | markRunning p =>
    refine h.modifyProcess (fun process hc => ?_) fun process hc => ?_
    · rwa [Process.notify_markRunning]
    · rwa [Process.result_markRunning]
  | discard =>
    exact { h with
      ready := fun task ht => by cases ht
      timers := fun timer ht => by cases ht }
  | fillSlot | launch => exact { h with }
  | _ => exact absurd rfl hquiet

/-- Each of a sequence of effects brings in what has the properties. -/
def BringsAll (V : Cell → Value → Prop) (T : Task → Prop) (K : Cell → Waker → Prop) (w : World) :
    List Effect → Prop
  | [] => True
  | e :: es => e.Brings V T K w ∧ BringsAll V T K (w.apply e) es

theorem bringsAll_append {es fs : List Effect} (h : BringsAll V T K w es)
    (h' : BringsAll V T K (w.replay es) fs) : BringsAll V T K w (es ++ fs) := by
  induction es generalizing w with
  | nil => exact h'
  | cons e es ih => exact ⟨h.1, ih h.2 h'⟩

theorem replay (h : Holders V T K w) (hp : ∀ w, Passes V T K w) {es : List Effect}
    (he : BringsAll V T K w es) : Holders V T K (w.replay es) := by
  induction es generalizing w with
  | nil => exact h
  | cons e es ih => exact ih (h.apply (hp w) he.1) he.2

end Holders

end Catena
