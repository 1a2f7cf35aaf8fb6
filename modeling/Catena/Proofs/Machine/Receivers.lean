import Catena.Proofs.Machine.Places
import Catena.Proofs.Machine.Points

/-!
# No process competes with itself

A mailbox belongs to one process, and only that process waits in it. So who asks for a message
while someone waits, or finds its message gone when it is called, can only have been overtaken by
itself. That does not happen as long as every process has one stack that is alive: a process at work
does not wait, and a process that has been called does not work until its turn comes
(`Run.fed`, `Moment.Regular.receiver_eq_none`). The branches that guard against it are then never
taken, and what they would report is never reported (`uncontested`).
-/

namespace Catena

/-! ## Messages for those who are called -/

/-- Whether a task calls a receiver. -/
def Task.isWake : Task → Bool
  | .wakeReceiver _ _ => true
  | _ => false

/-- Whether an effect queues the call of a receiver, other than by posting a message. -/
def Effect.queuesWake : Effect → Bool
  | .later task | .schedule _ task => task.isWake
  | _ => false

namespace World

/-- What an effect does to the calls of receivers: only a message that is posted adds one. -/
structure Calls (w : World) (e : Effect) : Prop where
  ready : ∀ m waker, .wakeReceiver m waker ∈ (w.apply e).scheduler.ready →
    .wakeReceiver m waker ∈ w.scheduler.ready ∨
      ∃ message, e = .deliver m message ∧ m.index < w.mailboxes.size
  timers : ∀ timer ∈ (w.apply e).scheduler.timers, timer.task.isWake = false

/-- Every receiver that has been called will find a message, and no timer calls one. -/
structure Fed (w : World) : Prop where
  ready : ∀ m waker, .wakeReceiver m waker ∈ w.scheduler.ready → (w.mailbox m).queue ≠ []
  timers : ∀ timer ∈ w.scheduler.timers, timer.task.isWake = false

variable {w w' : World}

theorem Calls.of_queues {e : Effect} {v : World} {tasks : List Task} (h : w.Fed)
    (hq : v.Queues tasks (w.apply e)) (hr : v.scheduler.ready = w.scheduler.ready)
    (ht : v.scheduler.timers = w.scheduler.timers)
    (hn : ∀ task ∈ tasks, task.isWake = false) : w.Calls e where
  ready m waker hm := by
    rw [hq.ready, hr, List.mem_append] at hm
    exact .inl (hm.resolve_right fun hmem => nomatch hn _ hmem)
  timers := by
    rw [hq.timers, ht]
    exact h.timers

theorem Calls.of_same {e : Effect} (h : w.Fed)
    (hr : (w.apply e).scheduler.ready = w.scheduler.ready)
    (ht : (w.apply e).scheduler.timers = w.scheduler.timers) : w.Calls e where
  ready _ _ hm := .inl (hr ▸ hm)
  timers := ht ▸ h.timers

theorem Calls.of_later {e : Effect} {task : Task} (h : w.Fed) (hn : task.isWake = false)
    (hw : w.apply e = w.later task) : w.Calls e := by
  refine .of_queues h (hw ▸ w.queues_later task) rfl rfl ?_
  exact List.forall_mem_singleton.2 hn

theorem calls_deliver (h : w.Fed) (m : MailboxId) (message : Value) :
    w.Calls (.deliver m message) := by
  have hq := w.queues_deliver m message
  refine ⟨fun b waker hm => ?_, ?_⟩
  · rw [show (w.apply (.deliver m message)).scheduler.ready = _ from hq.ready,
      List.mem_append] at hm
    refine hm.imp_right fun hm => ?_
    obtain ⟨receiver, hreceiver, heq⟩ := List.mem_map.1 hm
    cases heq
    refine ⟨message, rfl, ?_⟩
    by_contra hn
    rw [mailbox, Table.get_of_size_le (Nat.le_of_not_lt hn)] at hreceiver
    cases hreceiver
  · rw [show (w.apply (.deliver m message)).scheduler.timers = _ from hq.timers]
    exact h.timers

theorem joined_isWake (w : World) (result : Value) (waker : Waker) :
    ∀ task ∈ w.joined result waker, task.isWake = false := by
  cases waker with
  | report tag => exact List.forall_mem_nil _
  | resume epoch s k =>
    simp only [joined]
    split
    · exact List.forall_mem_nil _
    · exact List.forall_mem_singleton.2 rfl

theorem calls_bind (h : w.Fed) (v : VariableId) (value : Value) : w.Calls (.bind v value) := by
  cases hv : (w.dataflow v).value with
  | some u =>
    have hw : w.apply (.bind v value) = w := bind_of_bound hv value
    exact .of_same h (by rw [hw]) (by rw [hw])
  | none =>
    refine .of_queues h (bind_of_unbound hv value) rfl rfl fun task hm => ?_
    obtain ⟨waker, -, rfl⟩ := List.mem_map.1 hm
    rfl

theorem calls_awaitVariable (h : w.Fed) (v : VariableId) (s : Stack) (k : Continuation) :
    w.Calls (.awaitVariable v s k) := by
  cases hv : (w.dataflow v).value with
  | some u => exact .of_later h rfl (awaitVariable_of_bound hv s k)
  | none =>
    have hw : w.apply (.awaitVariable v s k) = _ := awaitVariable_of_unbound hv s k
    exact .of_same h (by rw [hw]; rfl) (by rw [hw]; rfl)

theorem calls_awaitProcess (h : w.Fed) (p : ProcessId) (s : Stack) (k : Continuation) :
    w.Calls (.awaitProcess p s k) := by
  cases hv : (w.process p).result with
  | some u => exact .of_later h rfl (awaitProcess_of_result hv s k)
  | none =>
    have hw : w.apply (.awaitProcess p s k) = _ := awaitProcess_of_none hv s k
    exact .of_same h (by rw [hw]; rfl) (by rw [hw]; rfl)

theorem calls_receive (h : w.Fed) (s : Stack) (k : Continuation) : w.Calls (.receive s k) := by
  cases w.receives_receive s k with
  | refuse he hq hw => exact .of_queues h hw rfl rfl (List.forall_mem_singleton.2 rfl)
  | take ho ht hw => exact .of_queues h hw rfl rfl (List.forall_mem_singleton.2 rfl)
  | wait ho hq hr hw =>
    have hw : w.apply (.receive s k) = _ := hw
    exact .of_same h (by rw [hw]; rfl) (by rw [hw]; rfl)

theorem calls_finish (h : w.Fed) (p : ProcessId) (outcome : Outcome) :
    w.Calls (.finish p outcome) := by
  by_cases hs : (w.process p).state = .done
  · have hw : w.apply (.finish p outcome) = _ := finishProcess_of_done hs outcome
    exact .of_same h (by rw [hw]; rfl) (by rw [hw]; rfl)
  · refine .of_queues h (finishProcess_of_ne_done hs outcome) rfl rfl fun task hm => ?_
    obtain ⟨waker, -, hj⟩ := List.mem_flatMap.1 hm
    exact w.joined_isWake _ waker task hj

theorem calls_wakeReceiver (h : w.Fed) (m : MailboxId) (waker : Waker) :
    w.Calls (.wakeReceiver m waker) := by
  have hnone : ∀ task ∈ ([] : List Task), task.isWake = false := List.forall_mem_nil _
  cases waker with
  | resume epoch s k =>
    cases w.offers_offer m epoch (.resume epoch s k) with
    | take ht ha hw hm => exact .of_queues h hw rfl rfl hnone
    | requeue ht ha hw =>
      have hw : w.apply (.wakeReceiver m (.resume epoch s k)) = _ := congrArg Prod.fst hw
      exact .of_same h (by rw [hw]) (by rw [hw])
    | wait hq hr hw | displaced hq hr hw =>
      have hw : w.apply (.wakeReceiver m (.resume epoch s k)) = _ := congrArg Prod.fst hw
      exact .of_same h (by rw [hw]; rfl) (by rw [hw]; rfl)
  | report tag =>
    cases w.hears_wakeNext m tag with
    | take ht hw => exact .of_queues h hw rfl rfl hnone
    | wait hq hr hw =>
      have hw : w.apply (.wakeReceiver m (.report tag)) = _ := hw
      exact .of_same h (by rw [hw]; rfl) (by rw [hw]; rfl)
    | displaced hq hr hw => exact .of_queues h hw rfl rfl hnone

theorem calls_settle (h : w.Fed) : w.Calls .settle := by
  obtain ⟨⟨tasks, hr, ht⟩, htimers⟩ :=
    Scheduler.forall_settle (P := (Task.isWake · = false)) h.timers
  refine ⟨fun m waker hm => .inl ?_, htimers⟩
  rw [show (w.apply .settle).scheduler.ready = _ from hr, List.mem_append] at hm
  exact hm.resolve_right fun hmem => nomatch ht _ hmem

/-- **Only a message that is posted has a receiver called.** -/
theorem calls_apply (h : w.Fed) {e : Effect} (he : e.queuesWake = false) : w.Calls e := by
  by_cases hquiet : e.isQuiet = true
  · have hs := w.sameCells_apply hquiet
    exact .of_same h hs.ready hs.timers
  cases e with
  | deliver m message => exact calls_deliver h m message
  | bind v value => exact calls_bind h v value
  | awaitVariable v s k => exact calls_awaitVariable h v s k
  | awaitProcess p s k => exact calls_awaitProcess h p s k
  | receive s k => exact calls_receive h s k
  | finish p outcome => exact calls_finish h p outcome
  | wakeReceiver m waker => exact calls_wakeReceiver h m waker
  | later task => exact .of_later h he rfl
  | schedule due task =>
    have htimers := Scheduler.forall_timers_schedule (P := (Task.isWake · = false)) h.timers due he
    exact ⟨fun m waker hm => .inl hm, htimers⟩
  | spawn captured block parent =>
    refine ⟨fun m waker hm => ?_, h.timers⟩
    have hm : Task.wakeReceiver m waker ∈ w.scheduler.ready ++ [_] := hm
    exact .inl ((List.mem_append.1 hm).resolve_right fun hmem => nomatch List.mem_singleton.1 hmem)
  | settle => exact calls_settle h
  | beginTurn => exact ⟨fun m waker hm => .inl (List.mem_of_mem_tail hm), h.timers⟩
  | discard => exact ⟨fun _ _ hm => (nomatch hm), fun _ hm => (nomatch hm)⟩
  | newVariable | markRunning | fillSlot | launch => exact .of_same h rfl rfl
  | _ => exact absurd rfl hquiet

/-- **Those who are called are fed**, as long as nobody takes their message. -/
theorem Fed.apply (h : w.Fed) (hi : w.ReceiversIdle) {e : Effect} (he : e.queuesWake = false)
    (ht : ∀ m waker, .wakeReceiver m waker ∈ w.scheduler.ready →
      .wakeReceiver m waker ∈ (w.apply e).scheduler.ready → w.takes m e = []) :
    (w.apply e).Fed := by
  have hcalls := calls_apply h he
  refine ⟨fun m waker hm hnil => ?_, hcalls.timers⟩
  have hkeeps := (keeps_apply hi e).queue m
  rw [hnil, List.append_nil] at hkeeps
  rcases hcalls.ready m waker hm with hold | ⟨message, rfl, hin⟩
  · rw [ht m waker hold hm] at hkeeps
    exact h.ready m waker hold (List.append_eq_nil_iff.1 hkeeps.symm).1
  · simp [takes, posts, hin] at hkeeps

end World

/-! ## One place for each process -/

section Regular

variable {m m' : Moment} {gone : List Thread} {es : List Event}

/-- One who waits in a mailbox, or has been called there, is the process that it belongs to. -/
theorem Moment.Regular.thread_of_wake (h : m.Regular gone) {b : MailboxId} {waker : Waker}
    (hw : .wakeReceiver b waker ∈ m.world.scheduler.ready) :
    (Task.wakeReceiver b waker).thread? = some (.process ⟨b.index⟩) := by
  have hs := h.sound.world.cells.ready _ hw
  exact Regime.LetsWait.thread (h.owned.cells.ready _ hw) hs.1 hs.2

theorem Moment.Regular.thread_of_receiver (h : m.Regular gone) {b : MailboxId} {waker : Waker}
    (hw : (m.world.mailbox b).receiver = some waker) :
    waker.thread? = some (.process ⟨b.index⟩) := by
  have hs := h.sound.world.cells.receiverOf b waker hw
  exact Regime.LetsWait.thread (h.owned.cells.receiverOf b waker hw) hs.1 hs.2

/-- A thread at work has no task. -/
theorem Moment.Regular.not_mem_ready (h : m.Regular gone) {t : Thread} {task : Task}
    (hc : m.control.thread? = some t) (ht : task.thread? = some t) :
    task ∉ m.world.scheduler.ready := by
  intro hm
  have hzero := h.balanced.held_eq_zero hc
  have hpos : 0 < m.world.scheduler.ready.countP (Task.isOf t) :=
    List.countP_pos_iff.2 ⟨task, hm, decide_eq_true ht⟩
  simp only [World.held] at hzero
  omega

/-- **A process at work does not wait in its mailbox.** -/
theorem Moment.Regular.receiver_eq_none (h : m.Regular gone) {p : ProcessId}
    (hc : m.control.thread? = some (.process p)) (hp : p.index < m.world.processes.size) :
    (m.world.mailbox (m.world.process p).mailbox).receiver = none := by
  rw [h.sound.world.matched.mailbox hp]
  refine Option.eq_none_iff_forall_not_mem.2 fun waker hw => ?_
  have ht : waker.thread? = some (.process p) := h.thread_of_receiver hw
  have hpos := World.countP_pos_of_receiver hw ht
  have hzero := h.balanced.held_eq_zero hc
  simp only [World.held] at hzero
  omega

/-- Effects that take no message. -/
def Effect.takesNothing : Effect → Bool
  | .receive _ _ | .wakeReceiver _ _ => false
  | _ => true

theorem World.takes_of_takesNothing {e : Effect} (h : e.takesNothing = true) (w : World)
    (b : MailboxId) : w.takes b e = [] := by
  cases e with
  | receive | wakeReceiver => cases h
  | _ => rfl

theorem World.Fed.replay {w : World} (h : w.Fed) (hi : w.ReceiversIdle) {es : List Effect}
    (he : ∀ e ∈ es, e.queuesWake = false ∧ e.takesNothing = true) : (w.replay es).Fed := by
  induction es generalizing w with
  | nil => exact h
  | cons e es ih =>
    obtain ⟨⟨hqueues, htakes⟩, hes⟩ := List.forall_mem_cons.1 he
    exact ih (h.apply hi hqueues fun b _ _ _ => w.takes_of_takesNothing htakes b)
      (World.keeps_apply hi e).idle hes

theorem SyncEffects.calm {env : EnvId} {s : Stack} {w : World} {es : List Effect}
    {outcome : Outcome} (h : SyncEffects env s w es outcome) :
    ∀ e ∈ es, e.queuesWake = false ∧ e.takesNothing = true := by
  cases h <;> simp [Effect.queuesWake, Effect.takesNothing]

/-- A word that takes over asks for a message, or takes none. -/
theorem AsyncEffects.calm {env : EnvId} {s : Stack} {k : Continuation} {w : World}
    {es : List Effect} (h : AsyncEffects env s k w es) :
    (∃ t, t.owner = s.owner ∧ es = [.receive t k]) ∨
      ∀ e ∈ es, e.queuesWake = false ∧ e.takesNothing = true := by
  cases h with
  | receive ht => exact .inl ⟨_, ht.owner, rfl⟩
  | sync ht hs =>
    exact .inr (List.forall_mem_append.2 ⟨hs.calm, List.forall_mem_singleton.2 ⟨rfl, rfl⟩⟩)
  | _ => exact .inr (by simp [Effect.queuesWake, Effect.takesNothing, Task.isWake])

/-- The work of a turn asks for a message on the stack at work, or takes none. -/
theorem Does.calm {w : World} {c c' : Control} {es : List Effect} (h : Does w c es c') :
    (∃ env d code s k t k', c = .run env (d :: code) s k ∧ t.owner = s.owner ∧
        es = [.receive t k']) ∨
      ∀ e ∈ es, e.queuesWake = false ∧ e.takesNothing = true := by
  cases h with
  | call hv hs => exact .inr hs.calm
  | fail hv hs =>
    exact .inr (List.forall_mem_append.2 ⟨hs.calm, List.forall_mem_singleton.2 ⟨rfl, rfl⟩⟩)
  | takeOver hv ha =>
    rcases ha.calm with ⟨t, ho, rfl⟩ | hcalm
    · exact .inl ⟨_, _, _, _, _, t, _, rfl, ho, rfl⟩
    · exact .inr hcalm
  | _ => exact .inr (by simp [Effect.queuesWake, Effect.takesNothing, Task.isWake])

/-- A turn begins with a receiver that has been called, or nobody takes a message. -/
theorem Begins.calm {w : World} {task : Task} {es : List Effect} {c : Control}
    (h : Begins w task es c) :
    (∃ b waker, task = .wakeReceiver b waker ∧ es = [.wakeReceiver b waker]) ∨
      ∀ e ∈ es, e.queuesWake = false ∧ e.takesNothing = true := by
  cases h with
  | receive | refuse => exact .inl ⟨_, _, rfl, rfl⟩
  | _ => exact .inr (by simp [Effect.queuesWake, Effect.takesNothing])

/-- **A step leaves everyone fed who has been called**: a process that takes a message has not been
called any more. -/
theorem Next.fed (hn : Next .free m es m') (h : m.Regular gone) (hi : m.world.ReceiversIdle)
    (hf : m.world.Fed) : m'.world.Fed := by
  cases hn with
  | @work w c c' roots es hd =>
    rcases hd.calm with ⟨env, d, code, s, k, t, k', rfl, ho, rfl⟩ | hcalm
    · refine hf.apply (e := .receive t k') hi rfl fun b waker hold _ => ?_
      simp only [World.takes]
      cases hp : t.owner with
      | none => rfl
      | some p =>
        -- The process that asks is at work, and so it is not the one that has been called.
        obtain ⟨hs, u, hu, -⟩ := h.sound.control
        have hown : s.owner = u.owner := h.owned.control u hu
        obtain rfl := Thread.eq_process_of_owner (hown.symm.trans (ho.symm.trans hp))
        have hmailbox := h.sound.world.matched.mailbox (hs.owner p (ho ▸ hp))
        refine if_neg fun hb => h.not_mem_ready hu ?_ hold
        rw [h.thread_of_wake hold, ← hb, hmailbox]
    · exact hf.replay hi hcalm
  | @turn w c roots task rest es hr hb =>
    have hbegun : (w.apply .beginTurn).Fed := hf.apply hi rfl fun _ _ _ _ => rfl
    have hidle : (w.apply .beginTurn).ReceiversIdle := (World.keeps_apply hi .beginTurn).idle
    rcases hb.calm with ⟨b, waker, rfl, rfl⟩ | hcalm
    · refine hbegun.apply (e := .wakeReceiver b waker) hidle rfl fun b' other hold _ => ?_
      -- Nobody is called twice.
      refine if_neg fun htaken => ?_
      obtain rfl := htaken.1
      have hold : .wakeReceiver b other ∈ rest := by
        have htail : Task.wakeReceiver b other ∈ w.scheduler.ready.tail := hold
        rwa [hr, List.tail_cons] at htail
      have hfirst : (Task.wakeReceiver b waker).thread? = some (.process ⟨b.index⟩) :=
        h.thread_of_wake (by rw [hr]; exact List.mem_cons_self)
      have hother : (Task.wakeReceiver b other).thread? = some (.process ⟨b.index⟩) :=
        h.thread_of_wake (by rw [hr]; exact List.mem_cons_of_mem _ hold)
      have hone : 0 < rest.countP (Task.isOf (.process ⟨b.index⟩)) :=
        List.countP_pos_iff.2 ⟨_, hold, decide_eq_true hother⟩
      have htwo : w.scheduler.ready.countP (Task.isOf (.process ⟨b.index⟩)) =
          rest.countP (Task.isOf (.process ⟨b.index⟩)) + 1 := by
        have hof : Task.isOf (.process ⟨b.index⟩) (.wakeReceiver b waker) = true :=
          decide_eq_true hfirst
        rw [hr, List.countP_cons_of_pos hof]
      have hbal := h.balanced (.process ⟨b.index⟩)
      have hle := (w.isUnfinished (.process ⟨b.index⟩)).toNat_le
      simp only [World.held] at hbal
      omega
    · show ((w.apply .beginTurn).replay es).Fed
      exact hbegun.replay hidle hcalm
  | @evaluate w roots env stack strict program henv hs =>
    show (w.replay [.launch strict program]).Fed
    exact hf.replay hi (List.forall_mem_singleton.2 ⟨rfl, rfl⟩)
  | @install w roots =>
    show (w.replay [.install]).Fed
    exact hf.replay hi (List.forall_mem_singleton.2 ⟨rfl, rfl⟩)
  | @outside w c roots e he =>
    show (w.replay [e]).Fed
    refine hf.replay hi (List.forall_mem_singleton.2 ?_)
    rcases he with (rfl | rfl | rfl | ⟨elapsed, lapses, rfl⟩) | rfl | ⟨epoch, rfl⟩ <;>
      exact ⟨rfl, rfl⟩

end Regular

theorem World.fed_empty : ({} : World).Fed := ⟨fun _ _ hm => (nomatch hm), fun _ hm => (nomatch hm)⟩

/-- **Whoever is called finds a message**, at every moment of any number of evaluations. -/
theorem Run.fed {m : Moment} {es : List Event} (h : Run .free .dawn es m) : m.world.Fed := by
  induction h with
  | refl => exact World.fed_empty
  | @step m' m'' es fs hr hn ih =>
    refine hn.fed hr.regular ?_ ih
    have hempty : ({} : World).ReceiversIdle := Table.All.empty
    rw [hr.world_eq]
    exact (World.takes_append_queue hempty _ ⟨0⟩).2

/-! ## Stacks that are alive -/

/-- The stack that a task goes on with. -/
def Task.stack? : Task → Option Stack
  | .resume _ (.ok s) | .activate _ _ _ _ s _ | .start _ _ s => some s
  | .wakeReceiver _ (.resume _ s _) | .wakeWaiter (.resume _ s _) _ => some s
  | .resume _ (.error _) | .wakeReceiver _ (.report _) | .wakeWaiter (.report _) _ | .script _ =>
    none

/-- The stack that someone waits on. -/
def Waker.stack? : Waker → Option Stack
  | .resume _ s _ => some s
  | .report _ => none

/-- The stack at work. -/
def Focus.stack? : Focus → Option Stack
  | .run _ _ s _ | .resume _ (.ok s) => some s
  | .done | .resume _ (.error _) | .tell _ _ => none

/-- Whether a stack belongs to a process. -/
def Stack.isOf (p : ProcessId) (s : Stack) : Bool := s.owner = some p

namespace World

/-- The stack that an evaluation has ended with. -/
def delivered? (w : World) (slot : Nat) : Option Stack :=
  match w.outcome? slot with
  | some (.ok s) => some s
  | _ => none

/-- The stacks that are held: those of tasks and timers, those of all who wait, and those that
evaluations have ended with. -/
def heldStacks (w : World) : List Stack :=
  w.scheduler.ready.filterMap Task.stack?
    ++ w.scheduler.timers.filterMap (·.task.stack?)
    ++ (List.range w.dataflows.size).flatMap (fun i =>
      (w.dataflow ⟨i⟩).waiters.filterMap Waker.stack?)
    ++ (List.range w.processes.size).flatMap (fun i =>
      (w.process ⟨i⟩).notify.filterMap Waker.stack?)
    ++ (List.range w.mailboxes.size).flatMap (fun i =>
      (w.mailbox ⟨i⟩).receiver.toList.filterMap Waker.stack?)
    ++ (List.range w.slots.size).filterMap w.delivered?

end World

theorem countP_filterMap_le {α β : Type} {f : α → Option β} {q : β → Bool} {r : α → Bool}
    {l : List α} (h : ∀ a ∈ l, ∀ b, f a = some b → q b = true → r a = true) :
    (l.filterMap f).countP q ≤ l.countP r := by
  rw [List.countP_filterMap]
  refine List.countP_mono_left fun a ha => ?_
  cases hf : f a with
  | none => simp
  | some b => exact h a ha b hf

theorem countP_flatMap_range_le {α β : Type} [Inhabited α] (table : Table α) {f : Nat → List β}
    {q : β → Bool} {n : α → Nat} (h : ∀ i < table.size, (f i).countP q ≤ n (table.get i)) :
    ((List.range table.size).flatMap f).countP q ≤ table.total n := by
  unfold Table.total
  generalize table.size = size at h
  induction size with
  | zero => exact Nat.zero_le _
  | succ size ih =>
    rw [List.range_succ, List.flatMap_append, List.countP_append, Finset.sum_range_succ]
    have hlast := h size (Nat.lt_succ_self size)
    have hrest := ih fun i hi => h i (Nat.lt_succ_of_lt hi)
    simp only [List.flatMap_cons, List.flatMap_nil, List.append_nil]
    omega

/-- No evaluation has ended with a stack that belongs to a process. -/
def World.Released (w : World) : Prop :=
  w.slots.All fun _ outcome => ∀ s, outcome = some (.ok s) → s.owner = none

theorem World.Released.owner {w : World} (h : w.Released) {slot : Nat} {s : Stack}
    (hs : w.delivered? slot = some s) : s.owner = none := by
  unfold delivered? at hs
  split at hs
  · rename_i u ho
    cases hs
    exact Table.All.get_of_default h (fun _ hs => by cases hs) s ho
  · cases hs

section Owned

variable {w : World} {p : ProcessId} {s : Stack}

/-- The stack of a task is that of its thread. -/
theorem Task.isOf_of_stack? {task : Task} (ht : Regime.owned.LetsTask task)
    (hsome : task.thread?.isSome) (hs : task.stack? = some s) (ho : s.isOf p = true) :
    task.isOf (.process p) = true := by
  obtain ⟨t, hthread⟩ := Option.isSome_iff_exists.1 hsome
  have howner : s.owner = t.owner := by
    cases task with
    | resume k outcome =>
      cases outcome with
      | ok u => cases hs; exact ht t hthread
      | error e => cases hs
    | activate captured own block exit u k => cases hs; exact ht t hthread
    | start q code u => cases hs; cases hthread; exact ht
    | wakeReceiver m waker =>
      cases waker with
      | resume epoch u k => cases hs; exact ht t hthread
      | report tag => cases hs
    | wakeWaiter waker value =>
      cases waker with
      | resume epoch u k => cases hs; exact ht t hthread
      | report tag => cases hs
    | script commands => cases hs
  rw [Thread.eq_process_of_owner (howner.symm.trans (of_decide_eq_true ho))] at hthread
  exact decide_eq_true hthread

theorem Waker.isOf_of_stack? {waker : Waker} (hk : Regime.owned.LetsWait waker)
    (hsound : waker.Sound w) (hs : waker.stack? = some s) (ho : s.isOf p = true) :
    waker.isOf (.process p) = true := by
  cases waker with
  | report tag => cases hs
  | resume epoch u k =>
    cases hs
    obtain ⟨-, t, ht, -⟩ := hsound
    have howner : s.owner = t.owner := hk t ht
    rw [Thread.eq_process_of_owner (howner.symm.trans (of_decide_eq_true ho))] at ht
    exact decide_eq_true ht

theorem Control.isOf_of_stack? {f : Focus} {c : Control} (hc : f.control? = some c)
    (hown : Regime.owned.LetsControl c) (hsound : c.Sound w) (hs : f.stack? = some s)
    (ho : s.isOf p = true) : c.isOf (.process p) = true := by
  cases f with
  | done | tell => cases hs
  | run env code u k =>
    cases k with
    | none => cases hc
    | some k =>
      cases hc
      cases hs
      obtain ⟨-, t, ht, -⟩ := hsound
      have howner : s.owner = t.owner := hown t ht
      rw [Thread.eq_process_of_owner (howner.symm.trans (of_decide_eq_true ho))] at ht
      exact decide_eq_true ht
  | resume k outcome =>
    cases hc
    cases outcome with
    | error e => cases hs
    | ok u =>
      cases hs
      obtain ⟨⟨t, ht, -⟩, -⟩ := hsound
      have howner : s.owner = t.owner := hown t ht
      rw [Thread.eq_process_of_owner (howner.symm.trans (of_decide_eq_true ho))] at ht
      exact decide_eq_true ht

/-- **A process owns no more stacks than it is held.** -/
theorem World.countP_heldStacks_le {gone : List Thread} {c : Control} {roots : List EnvId}
    (h : Moment.Regular ⟨w, c, roots⟩ gone) (hr : w.Released) (p : ProcessId) :
    w.heldStacks.countP (Stack.isOf p) ≤ w.held (.process p) := by
  have hcells := h.owned.cells.and h.sound.world.cells
  have htask : ∀ task, Regime.owned.LetsTask task ∧ task.Sound w → ∀ s, task.stack? = some s →
      s.isOf p = true → task.isOf (.process p) = true :=
    fun task ht s hs => Task.isOf_of_stack? ht.1 ht.2.thread hs
  have hslots : ((List.range w.slots.size).filterMap w.delivered?).countP (Stack.isOf p) = 0 := by
    refine List.countP_eq_zero.2 fun s hs ho => ?_
    obtain ⟨slot, -, hslot⟩ := List.mem_filterMap.1 hs
    have howner := of_decide_eq_true ho
    rw [hr.owner hslot] at howner
    cases howner
  have hready : (w.scheduler.ready.filterMap Task.stack?).countP (Stack.isOf p) ≤
      w.scheduler.ready.countP (Task.isOf (.process p)) :=
    countP_filterMap_le fun task hm => htask task (hcells.ready task hm)
  have htimers : (w.scheduler.timers.filterMap (·.task.stack?)).countP (Stack.isOf p) ≤
      w.scheduler.timers.countP fun timer => timer.task.isOf (.process p) :=
    countP_filterMap_le fun timer hm => htask timer.task (hcells.timers timer hm)
  have hwaiters : ((List.range w.dataflows.size).flatMap fun i =>
      (w.dataflow ⟨i⟩).waiters.filterMap Waker.stack?).countP (Stack.isOf p) ≤
        w.dataflows.total fun cell => cell.waiters.countP (Waker.isOf (.process p)) :=
    countP_flatMap_range_le w.dataflows fun i _ =>
      countP_filterMap_le fun waker hm u hs =>
        have hk := hcells.waitersOf ⟨i⟩ waker hm
        Waker.isOf_of_stack? hk.1 hk.2 hs
  have hnotify : ((List.range w.processes.size).flatMap fun i =>
      (w.process ⟨i⟩).notify.filterMap Waker.stack?).countP (Stack.isOf p) ≤
        w.processes.total fun process => process.notify.countP (Waker.isOf (.process p)) :=
    countP_flatMap_range_le w.processes fun i _ =>
      countP_filterMap_le fun waker hm u hs =>
        have hk := hcells.notifyOf ⟨i⟩ waker hm
        Waker.isOf_of_stack? hk.1 hk.2 hs
  have hreceivers : ((List.range w.mailboxes.size).flatMap fun i =>
      (w.mailbox ⟨i⟩).receiver.toList.filterMap Waker.stack?).countP (Stack.isOf p) ≤
        w.mailboxes.total fun mailbox =>
          mailbox.receiver.toList.countP (Waker.isOf (.process p)) :=
    countP_flatMap_range_le w.mailboxes fun i _ =>
      countP_filterMap_le fun waker hm u hs =>
        have hk := hcells.receiverOf ⟨i⟩ waker (Option.mem_toList.1 hm)
        Waker.isOf_of_stack? hk.1 hk.2.1 hs
  simp only [World.heldStacks, List.countP_append, World.held]
  omega

end Owned

/-- Only who works for an evaluation delivers its outcome. -/
theorem Does.eq_of_fillSlot {w : World} {c c' : Control} {es : List Effect} (h : Does w c es c')
    {slot : Nat} {outcome : Outcome} (hm : .fillSlot slot outcome ∈ es) :
    c = .resume ⟨[], .slot slot⟩ outcome := by
  have still : ∀ {fs : List Effect}, (∀ e ∈ fs, e.isStill = true) → .fillSlot slot outcome ∉ fs :=
    fun hf hin => nomatch hf _ hin
  cases h with
  | fillSlot => cases List.mem_singleton.1 hm; rfl
  | call hv hs => exact absurd hm (still hs.isStill)
  | fail hv hs =>
    rcases List.mem_append.1 hm with hm | hm
    · exact absurd hm (still hs.isStill)
    · cases List.mem_singleton.1 hm
  | takeOver hv ha => exact nomatch ha.endsThread _ hm
  | _ => simp at hm

namespace World.Released

variable {w : World}

theorem apply (h : w.Released) {e : Effect}
    (he : ∀ slot s, e = .fillSlot slot (.ok s) → s.owner = none) : (w.apply e).Released := by
  by_cases hk : e.keepsSlots = true
  · rw [Released, w.slots_apply hk]
    exact h
  cases e with
  | fillSlot index outcome =>
    refine Table.All.set h fun s hs => he index s ?_
    rw [Option.some.inj hs]
  | launch strict program => exact Table.All.push h fun s hs => nomatch hs
  | _ => exact absurd rfl hk

theorem replay (h : w.Released) {es : List Effect}
    (he : ∀ e ∈ es, ∀ slot s, e = .fillSlot slot (.ok s) → s.owner = none) :
    (w.replay es).Released :=
  replay_induct h fun _ e hmem hv => hv.apply (he e hmem)

end World.Released

/-- **An evaluation ends with a stack of its own.** -/
theorem Next.released {m m' : Moment} {es : List Event} (hn : Next .free m es m')
    (hown : Regime.owned.LetsControl m.control) (h : m.world.Released) : m'.world.Released := by
  have quiet : ∀ {e : Effect}, e.endsThread = false →
      ∀ slot s, e = .fillSlot slot (.ok s) → s.owner = none :=
    fun he slot s heq => nomatch heq ▸ he
  rw [hn.world_eq]
  refine h.replay ?_
  cases hn with
  | work hd =>
    rw [effectsOf_map]
    rintro _ hm slot s rfl
    obtain rfl := hd.eq_of_fillSlot hm
    exact hown (.main slot) rfl
  | turn hr hb =>
    rw [effectsOf_map]
    refine List.forall_mem_cons.2 ⟨quiet rfl, fun e he => quiet ?_⟩
    exact (hb.account (.main 0)).2 e he
  | evaluate | install => exact List.forall_mem_singleton.2 (quiet rfl)
  | outside he =>
    exact List.forall_mem_singleton.2 (quiet (Effect.still (Policy.isStill_of_allows he)).2.2)

theorem Run.released {m : Moment} {es : List Event} (h : Run .free .dawn es m) :
    m.world.Released := by
  induction h with
  | refl => exact Table.All.empty
  | step hr hn ih => exact hn.released hr.regular.owned.control ih

/-! ## Nothing to report -/

/-- What would be reported about a receiver that finds no message, and someone else in its place. -/
def displacedReport (owner : Nat) : String :=
  "mailbox " ++ toString owner ++ ": woken receiver displaced by another"

/-- What would be reported about a receiver that finds its place taken as it begins to wait. -/
def lostReport (process : Nat) : String :=
  "receive: process " ++ toString process ++ " lost its receiver"

namespace World

/-- Nothing has been reported about receivers. -/
def Quiet (w : World) : Prop :=
  ∀ text ∈ w.reports, ∀ n, text ≠ displacedReport n ∧ text ≠ lostReport n

variable {w v : World}

theorem Quiet.congr (h : w.Quiet) (hr : v.reports = w.reports) : v.Quiet := fun text ht =>
  h text (hr ▸ ht)

/-- Reports about receivers are told by how they begin. -/
theorem Quiet.report (h : w.Quiet) {text : String} {c : Char} (hc : text.toList.head? = some c)
    (hm : c ≠ 'm') (hr : c ≠ 'r') : (w.report text).Quiet := by
  have begins : ∀ {a b : String} {d : Char} (n : Nat), a.toList.head? = some d →
      text = a ++ toString n ++ b → c = d := by
    intro a b d n hd ht
    have hhead := head?_append_of_head? (head?_append_of_head? hd (toString n)) b
    rw [← ht, hc] at hhead
    exact Option.some.inj hhead
  refine List.forall_mem_cons.2 ⟨fun n => ⟨fun ht => hm ?_, fun ht => hr ?_⟩, h⟩
  · exact begins n (by decide) ht
  · exact begins n (by decide) ht

theorem Quiet.apply (h : w.Quiet) {e : Effect} {clock : Nat} (he : e.OfStep clock) :
    (w.apply e).Quiet := by
  by_cases hr : ∃ text, e = .report text
  · obtain ⟨text, rfl⟩ := hr
    rcases he.head? with hd | hs
    · exact h.report hd (by decide) (by decide)
    · exact h.report hs (by decide) (by decide)
  · exact h.congr (reports_apply he (fun text ht => hr ⟨text, ht⟩) w)

theorem Quiet.together {w' v' : World} (h : w.Quiet) (ht : Together w v w' v') : w'.Quiet := by
  cases ht with
  | told | resumed => exact h
  | effects hes =>
    obtain ⟨es, hes⟩ := hes
    generalize w.scheduler.clock = clock at hes
    induction es generalizing w with
    | nil => exact h
    | cons e es ih =>
      obtain ⟨he, hes⟩ := List.forall_mem_cons.1 hes
      exact ih (h.apply he) hes

/-- No step of a turn reports anything about receivers. -/
theorem Quiet.advance (h : w.Quiet) (f : Focus) : (w.advance f).1.Quiet := by
  by_cases hf : f.Unresolved w
  · obtain ⟨rest, s, k, hl⟩ := hf
    rename_i env name
    have hu : (unresolvedReport name).toList.head? = some 'u' :=
      head?_append_of_head? (head?_append_of_head? (by decide) name) _
    cases hs : w.strict with
    | false =>
      rw [advance_of_lax rest s k hl hs]
      exact h.report hu (by decide) (by decide)
    | true =>
      rw [advance_of_strict rest s k hl hs]
      exact h.together (v := w) (.effects (Alongside.refl.failTo _ k))
  · exact h.together (together_advance (.refl w) hf).2

/-- A receiver that finds a message has nothing to report. -/
theorem reports_offer {m : MailboxId} (hm : (w.mailbox m).queue ≠ []) (epoch : Nat)
    (waker : Waker) : (w.offer m epoch waker).1.reports = w.reports := by
  unfold World.offer
  cases ht : (w.mailbox m).take? with
  | none => exact absurd ((Mailbox.take?_eq_none_iff _).1 ht) hm
  | some taken =>
    dsimp only
    split <;> rfl

theorem reports_embark {task : Task} (ht : task.thread?.isSome)
    (hm : ∀ m waker, task = .wakeReceiver m waker → (w.mailbox m).queue ≠ []) :
    (w.embark task).1.reports = w.reports := by
  cases task with
  | resume | start => rfl
  | wakeWaiter waker value => cases waker <;> rfl
  | activate captured own block exit s k => cases own <;> rfl
  | wakeReceiver m waker =>
    cases waker with
    | resume epoch s k => exact reports_offer (hm m _ rfl) epoch _
    | report tag => cases ht
  | script commands => cases ht

theorem Quiet.opening (h : w.Quiet) (hs : w.Sound w) (hf : w.Fed) : w.opening.1.Quiet := by
  cases hr : w.scheduler.ready with
  | nil => rw [opening_of_nil hr]; exact h
  | cons task rest =>
    rw [opening_of_cons hr]
    refine h.congr (reports_embark (hs.thread hr) fun m waker htask => ?_)
    exact hf.ready m waker (by rw [hr, htask]; exact List.mem_cons_self)

theorem Quiet.proceed (h : w.Quiet) (hs : w.Sound w) (hf : w.Fed) : w.proceed.Quiet := by
  cases hr : w.scheduler.ready with
  | nil => rw [proceed_of_nil hr]; exact h
  | cons task rest =>
    have hend := (reaches_turn hr).induct (I := Quiet) (fun _ f hu => hu.advance f)
      (h.opening hs hf)
    rw [proceed_of_cons hr]
    exact hend.congr rfl

end World

section Evaluated

variable {w : World} {is : List Interpreter} {i : Interpreter} {stack : Stack}

theorem Evaluated.quiet_after (h : Evaluated Stack.IsFree w is) (hi : i ∈ is) (program : Program)
    (hs : stack.IsFree w) (hq : w.Quiet) (n : Nat) : (i.after n program stack w).Quiet := by
  induction n with
  | zero =>
    have hend := (reaches_launched i program stack w).induct (I := World.Quiet)
      (fun _ f hu => hu.advance f) (hq.congr rfl)
    rw [after_eq]
    exact hend.congr rfl
  | succ n ih =>
    obtain ⟨es, hr, -⟩ := h.run_after hi program hs n
    rw [after_succ]
    exact ih.proceed hr.regular.sound.world hr.fed

/-- Nothing is ever reported about receivers. -/
theorem Evaluated.quiet (h : Evaluated Stack.IsFree w is) : w.Quiet := by
  induction h with
  | nothing => exact fun text ht => (nomatch ht)
  | new settings h ih => exact World.newBuiltinRoot_induct (I := World.Quiet) ih fun _ _ _ _ hv => hv
  | @eval w is i source stack h hi hs ih =>
    unfold Interpreter.eval
    cases Program.read source with
    | error e => exact ih
    | ok program =>
      have hends := evaluate_ends i program (h.sound Stack.IsFree.sound) hs.1
        (h.leads Stack.IsFree.sound).2
      have hafter := h.quiet_after hi program hs ih i.bound
      dsimp only
      generalize i.evaluate program stack w = result at hends ⊢
      cases hends with
      | delivered | stalled | cutOff => exact hafter.congr rfl
  | pass elapsed lapses h ih => exact ih.congr rfl

theorem Evaluated.quiet_point (h : Evaluated Stack.IsFree w is) (hi : i ∈ is) (program : Program)
    (hs : stack.IsFree w) (n j : Nat) : (i.point program stack w n j).1.Quiet := by
  have hopen : (i.opening program stack w n).1.Quiet := by
    cases n with
    | zero => exact h.quiet.congr rfl
    | succ n =>
      obtain ⟨es, hr, -⟩ := h.run_after hi program hs n
      exact (h.quiet_after hi program hs h.quiet n).opening hr.regular.sound.world hr.fed
  exact World.Reaches.induct (fun _ f hu => hu.advance f) ⟨j, rfl⟩ hopen

end Evaluated

/-! ## At every point -/

namespace World

variable {w : World}

/-- Where nobody waits, `receive` is not refused on account of someone who does. -/
theorem receive_ne_pending {s : Stack}
    (hr : ∀ q, s.owner = some q → (w.mailbox (w.process q).mailbox).receiver = none)
    (k : Continuation) (n : Nat) :
    w.receive s k ≠ w.later (.resume k (.error (.receiverPending n))) := by
  -- Something else is queued, or nothing.
  intro heq
  have hqueue := congrArg (fun v : World => v.scheduler.ready) heq
  have hpending : (w.later (.resume k (.error (.receiverPending n)))).scheduler.ready =
      w.scheduler.ready ++ [.resume k (.error (.receiverPending n))] := rfl
  rw [hpending] at hqueue
  unfold receive at hqueue
  cases ho : s.owner with
  | none =>
    rw [ho] at hqueue
    cases List.append_cancel_left hqueue
  | some q =>
    rw [ho] at hqueue
    dsimp only at hqueue
    cases ht : (w.mailbox (w.process q).mailbox).take? with
    | some taken =>
      rw [ht] at hqueue
      cases List.append_cancel_left hqueue
    | none =>
      rw [ht] at hqueue
      simp only [Mailbox.wait?, hr q ho] at hqueue
      have hlength := congrArg List.length hqueue
      rw [List.length_append] at hlength
      exact absurd hlength (Nat.ne_of_lt (Nat.lt_succ_self _))

end World

/-- No process competes with itself for its mailbox at a point of an evaluation. -/
structure Uncontested (p : World × Focus) : Prop where
  /-- At most one stack that is alive belongs to a process. -/
  single : ∀ q, (p.2.stack?.toList ++ p.1.heldStacks).countP (Stack.isOf q) ≤ 1
  /-- Nobody waits in the mailbox of the process at work. -/
  alone : ∀ s q, p.2.stack? = some s → s.owner = some q →
    (p.1.mailbox (p.1.process q).mailbox).receiver = none
  /-- The process at work is not refused because of someone who waits. -/
  receive : ∀ s, p.2.stack? = some s → ∀ t k n, t.owner = s.owner →
    p.1.receive t k ≠ p.1.later (.resume k (.error (.receiverPending n)))
  /-- There is a message for whoever has been called. -/
  woken : ∀ m waker, .wakeReceiver m waker ∈ p.1.scheduler.ready → (p.1.mailbox m).queue ≠ []
  /-- No receiver has been displaced or lost. -/
  reports : ∀ n, displacedReport n ∉ p.1.reports ∧ lostReport n ∉ p.1.reports

section Points

variable {w : World} {f : Focus} {c : Control} {roots : List EnvId} {es : List Event}

/-- The stack at work is that of the thread at work. -/
theorem Moment.Regular.thread_of_stack? {gone : List Thread}
    (h : Moment.Regular ⟨w, c, roots⟩ gone) (hf : f.control? = some c) {s : Stack}
    (hs : f.stack? = some s) {q : ProcessId} (ho : s.owner = some q) :
    c.thread? = some (.process q) :=
  of_decide_eq_true
    (Control.isOf_of_stack? hf h.owned.control h.sound.control hs (decide_eq_true ho))

theorem Moment.Regular.countP_le_one {gone : List Thread}
    (h : Moment.Regular ⟨w, c, roots⟩ gone) (hr : w.Released) (hf : f.control? = some c)
    (q : ProcessId) : (f.stack?.toList ++ w.heldStacks).countP (Stack.isOf q) ≤ 1 := by
  have hheld := World.countP_heldStacks_le h hr q
  have hwork : f.stack?.toList.countP (Stack.isOf q) ≤ (c.isOf (.process q)).toNat := by
    cases hs : f.stack? with
    | none => exact Nat.zero_le _
    | some s =>
      rw [Option.toList_some, World.countP_one]
      cases ho : s.isOf q with
      | false => exact Nat.zero_le _
      | true =>
        rw [Control.isOf_of_stack? hf h.owned.control h.sound.control hs ho]
  have hbalance := h.balanced (.process q)
  have hle := (w.isUnfinished (.process q)).toNat_le
  rw [List.countP_append]
  simp only at hbalance
  omega

/-- **A process that is somewhere is nowhere else**, wherever a run has come to. -/
theorem Uncontested.of_run (h : Run .free .dawn es ⟨w, c, roots⟩) (hf : f.control? = some c)
    (hq : w.Quiet) : Uncontested (w, f) := by
  have hregular := h.regular
  have halone : ∀ s q, f.stack? = some s → s.owner = some q →
      (w.mailbox (w.process q).mailbox).receiver = none := by
    intro s q hs ho
    have ht := hregular.thread_of_stack? hf hs ho
    exact hregular.receiver_eq_none ht
      (World.isUnfinished_process_iff.1 (hregular.balanced.isUnfinished ht)).1
  exact {
    single := hregular.countP_le_one h.released hf
    alone := halone
    receive := fun s hs t k n ho =>
      World.receive_ne_pending (fun q hq => halone s q hs (ho ▸ hq)) k n
    woken := h.fed.ready
    reports := fun n => ⟨fun hm => (hq _ hm n).1 rfl, fun hm => (hq _ hm n).2 rfl⟩ }

end Points

/-- **No process competes with itself for its mailbox.** In any number of evaluations that begin on
stacks that belong to no process, this holds before and after each of them and at every point on the
way; and the stacks that they end with belong to no process, so that others may begin on them. -/
theorem uncontested {w : World} {is : List Interpreter} (h : Evaluated Stack.IsFree w is) :
    Uncontested (w, .done) ∧
      ∀ i ∈ is, ∀ (program : Program) (stack : Stack), stack.IsFree w →
        (∀ n j, Uncontested (i.point program stack w n j)) ∧
          ∀ s, (i.evaluate program stack w).2 = .ok s →
            s.IsFree (i.evaluate program stack w).1 := by
  obtain ⟨⟨es, hrun⟩, hd⟩ := h.leads Stack.IsFree.sound
  refine ⟨.of_run hrun rfl h.quiet, fun i hi program stack hs => ⟨fun n j => ?_, ?_⟩⟩
  · obtain ⟨c, hc, fs, hpoint⟩ := h.leads_point Stack.IsFree.sound hi program hs n j
    exact .of_run hpoint hc (h.quiet_point hi program hs n j)
  · intro s hok
    obtain ⟨fs, hafter, -⟩ := h.run_after hi program hs i.bound
    have hends := evaluate_ends i program (h.sound Stack.IsFree.sound) hs.1 hd
    have hreleased := hafter.released
    have hsound := hafter.regular.sound.world
    dsimp only at hreleased hsound
    generalize i.evaluate program stack w = result at hends hok ⊢
    cases hends with
    | delivered ho =>
      subst hok
      have hfits := Table.All.get_of_default hsound.outcomes (fun _ hn => by cases hn) _ ho
      exact ⟨hfits, hreleased.owner (by rw [World.delivered?, ho])⟩
    | stalled | cutOff => cases hok

/-- A process waits for a message, and the main program posts one. -/
def calling : Program :=
  [.block () [.word "receive"], .word "go", .word "yield", .symbol "x", .word "swap", .word "post"]

/-- The process has been called, with its message in the mailbox. -/
theorem uncontested_calling :
    ∃ (w : World) (i : Interpreter), Evaluated Stack.IsFree w [i] ∧
      Uncontested (i.point calling .empty w 2 5) ∧
      (i.point calling .empty w 2 5).1.scheduler.ready.filterMap Task.stack? =
        [⟨[.process ⟨0⟩, .nil], some ⟨0⟩⟩, .empty] ∧
      ((i.point calling .empty w 2 5).1.mailbox ⟨0⟩).queue = [.symbol "x"] ∧
      (i.evaluate calling .empty w).2 = .ok .empty ∧
      Stack.empty.IsFree (i.evaluate calling .empty w).1 := by
  have h : Evaluated Stack.IsFree World.fresh [⟨⟨0⟩, {}⟩] := .fresh {}
  obtain ⟨hpoint, hend⟩ := (uncontested h).2 _ (List.mem_singleton.2 rfl) calling .empty
    (Stack.isFree_empty _)
  have hok : (Interpreter.evaluate ⟨⟨0⟩, {}⟩ calling .empty World.fresh).2 = .ok .empty := by cbv
  exact ⟨_, _, h, hpoint 2 5, by cbv, by cbv, hok, hend _ hok⟩

end Catena
