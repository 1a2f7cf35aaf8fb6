import Catena.Proofs.Machine.Addresses
import Catena.Proofs.Machine.Balance

/-!
# The counters account for everything

The counters are bumped all over the machine, and nothing compares them with what they count. That
they agree all the same is shown as one would check books. An effect makes at most one entry and
puts off some tasks (`World.entered_apply`), and an entry changes the counters and what they count
together (`Books.Entry.balanced`). So the books are in balance at every moment of any number of
evaluations (`counters_account`).
-/

namespace Catena

/-! ## Books -/

/-- The counters, and what they count. -/
structure Books where
  stats : Stats
  /-- Tasks that wait for their turn or their time. -/
  pending : Nat
  /-- Tasks that were dropped. -/
  dropped : Nat
  /-- Messages in all mailboxes. -/
  queued : Nat
  /-- Processes that are not done. -/
  unfinished : Nat

namespace Books

/-- One thing that is counted, or nothing. -/
inductive Entry (b : Books) : Books → Prop
  | nothing : Entry b b
  | execute (depth : Nat) (h : 0 < b.pending) :
      Entry b { b with
        stats := { b.stats with
          maxDispatchDepth := depth
          tasksExecuted := b.stats.tasksExecuted + 1 }
        pending := b.pending - 1 }
  | fire (timers : Nat) : Entry b { b with stats := { b.stats with timersFired := timers } }
  | drop : Entry b { b with pending := 0, dropped := b.dropped + b.pending }
  | post : Entry b { b with stats := b.stats.posted, queued := b.queued + 1 }
  | receive (h : 0 < b.queued) :
      Entry b { b with stats := b.stats.received, queued := b.queued - 1 }
  | spawn : Entry b { b with stats := b.stats.spawned, unfinished := b.unfinished + 1 }
  | complete (h : 0 < b.unfinished) :
      Entry b { b with stats := b.stats.completed, unfinished := b.unfinished - 1 }

/-- Some more tasks are put off. -/
def putOff (b : Books) (n : Nat) : Books :=
  { b with
    stats := { b.stats with tasksScheduled := b.stats.tasksScheduled + n }
    pending := b.pending + n }

/-- At most one entry is made, and then some tasks are put off. -/
def Entered (b b' : Books) : Prop := ∃ b₁ n, Entry b b₁ ∧ b' = b₁.putOff n

/-- The counters say how many there are. -/
structure Balanced (b : Books) : Prop where
  tasks : b.stats.tasksScheduled = b.stats.tasksExecuted + b.pending + b.dropped
  messages : b.stats.messagesPosted = b.stats.messagesReceived + b.queued
  processes : b.stats.processesSpawned = b.stats.processesCompleted + b.stats.activeProcesses
  active : b.stats.activeProcesses = b.unfinished
  peak : b.stats.activeProcesses ≤ b.stats.peakProcesses

variable {b b' : Books}

theorem putOff_putOff (b : Books) (m n : Nat) : (b.putOff m).putOff n = b.putOff (m + n) := by
  simp only [putOff, Nat.add_assoc]

theorem Entry.entered (h : Entry b b') (n : Nat) : b.Entered (b'.putOff n) := ⟨b', n, h, rfl⟩

/-- **An entry keeps the books in balance.** -/
theorem Entry.balanced (he : Entry b b') (h : b.Balanced) : b'.Balanced := by
  obtain ⟨ht, hm, hp, ha, hk⟩ := h
  cases he with
  | nothing => exact ⟨ht, hm, hp, ha, hk⟩
  | fire timers => exact ⟨ht, hm, hp, ha, hk⟩
  | execute depth h => exact ⟨by simp only; omega, hm, hp, ha, hk⟩
  | drop => exact ⟨by simp only; omega, hm, hp, ha, hk⟩
  | post => exact ⟨ht, by simp only [Stats.posted]; omega, hp, ha, hk⟩
  | receive h => exact ⟨ht, by simp only [Stats.received]; omega, hp, ha, hk⟩
  | spawn => constructor <;> simp only [Stats.spawned] <;> omega
  | complete h => constructor <;> simp only [Stats.completed] <;> omega

/-- An entry raises the peak only with the number of processes. -/
theorem Entry.peak (he : Entry b b') (h : b.Balanced) :
    b'.stats.peakProcesses = max b.stats.peakProcesses b'.stats.activeProcesses := by
  have hk := h.peak
  cases he with
  | spawn => rfl
  | complete => simp only [Stats.completed]; omega
  | _ => exact (max_eq_left hk).symm

theorem Entered.balanced (he : b.Entered b') (h : b.Balanced) : b'.Balanced := by
  obtain ⟨b₁, n, he, rfl⟩ := he
  obtain ⟨ht, hm, hp, ha, hk⟩ := he.balanced h
  exact ⟨by simp only [putOff]; omega, hm, hp, ha, hk⟩

theorem Entered.peak (he : b.Entered b') (h : b.Balanced) :
    b'.stats.peakProcesses = max b.stats.peakProcesses b'.stats.activeProcesses := by
  obtain ⟨b₁, n, he, rfl⟩ := he
  exact he.peak h

end Books

/-! ## The books of a world -/

/-- Making timers ready counts those that are. -/
theorem Scheduler.stats_settle {τ : Type} (s : Scheduler τ) :
    ∃ timers, s.settle.stats = { s.stats with timersFired := timers } := by
  simp only [settle]
  split
  · exact ⟨_, rfl⟩
  · exact ⟨_, rfl⟩

theorem Mailbox.queue_of_wait? {m m' : Mailbox} {waker : Waker} (h : m.wait? waker = some m') :
    m'.queue = m.queue := by
  unfold wait? at h
  split at h <;> cases h
  rfl

namespace World

/-- The number of messages in all mailboxes. -/
def queued (w : World) : Nat := w.mailboxes.total fun mailbox => mailbox.queue.length

/-- The number of processes that are not done. -/
def unfinished (w : World) : Nat :=
  w.processes.total fun process => if process.state = .done then 0 else 1

/-- The books of a world in which so many tasks have been dropped. -/
def books (w : World) (dropped : Nat) : Books :=
  ⟨w.stats, w.scheduler.pending, dropped, w.queued, w.unfinished⟩

/-- The number of tasks that an effect drops. -/
def discards (w : World) : Effect → Nat
  | .discard => w.scheduler.pending
  | _ => 0

variable {w w' : World} {d : Nat}

/-! ### Cells -/

theorem books_setMailbox {m : MailboxId} {mailbox : Mailbox}
    (h : mailbox.queue.length = (w.mailbox m).queue.length) :
    (w.setMailbox m mailbox).books d = w.books d := by
  have hq : (w.setMailbox m mailbox).queued = w.queued := Table.total_modify_of_eq _ fun _ => h
  simp only [books, hq]
  rfl

theorem queued_setMailbox {m : MailboxId} (mailbox : Mailbox) (h : m.index < w.mailboxes.size) :
    (w.setMailbox m mailbox).queued + (w.mailbox m).queue.length =
      w.queued + mailbox.queue.length :=
  Table.total_modify (fun mailbox : Mailbox => mailbox.queue.length) (fun _ => mailbox) h

theorem books_modifyProcess {p : ProcessId} {f : Process → Process}
    (h : (f (w.process p)).state = .done ↔ (w.process p).state = .done) :
    (w.modifyProcess p f).books d = w.books d := by
  have hu : (w.modifyProcess p f).unfinished = w.unfinished :=
    Table.total_modify_of_eq _ fun _ => if_congr h rfl rfl
  simp only [books, hu]
  rfl

/-! ### Tasks -/

theorem books_later (w : World) (task : Task) (d : Nat) :
    (w.later task).books d = (w.books d).putOff 1 := by
  have hp : (w.later task).scheduler.pending = w.scheduler.pending + 1 :=
    w.scheduler.pending_later task
  simp only [books, hp]
  rfl

theorem books_foldl_later {α : Type} (f : α → Task) (l : List α) (w : World) (d : Nat) :
    (l.foldl (fun w a => w.later (f a)) w).books d = (w.books d).putOff l.length := by
  induction l generalizing w with
  | nil => rfl
  | cons a l ih =>
    rw [List.foldl_cons, ih, books_later, Books.putOff_putOff, List.length_cons, Nat.add_comm]

/-- Those who wait for a process get a task each, unless they have been given up. -/
theorem books_foldl_wakeJoiner (result : Value) (l : List Waker) (w : World) (d : Nat) :
    ∃ n, (l.foldl (fun w waker => w.wakeJoiner result waker) w).books d =
      (w.books d).putOff n := by
  induction l generalizing w with
  | nil => exact ⟨0, rfl⟩
  | cons waker l ih =>
    obtain ⟨n, hn⟩ := ih (w.wakeJoiner result waker)
    obtain ⟨n', hn'⟩ : ∃ n', (w.wakeJoiner result waker).books d = (w.books d).putOff n' := by
      cases waker with
      | report tag => exact ⟨0, rfl⟩
      | resume epoch s k =>
        simp only [wakeJoiner]
        split
        · exact ⟨0, rfl⟩
        · exact ⟨1, w.books_later _ d⟩
    exact ⟨n' + n, by rw [List.foldl_cons, hn, hn', Books.putOff_putOff]⟩

/-! ### Entries -/

/-- A message is posted. -/
theorem entry_post {m : MailboxId} (hm : m.index < w.mailboxes.size) (message : Value) (d : Nat) :
    (w.books d).Entry
      (((w.count Stats.posted).setMailbox m ((w.mailbox m).post message).1).books d) := by
  have h := queued_setMailbox ((w.mailbox m).post message).1 hm
  simp only [Mailbox.queue_post, List.length_append, List.length_singleton] at h
  have hq : (w.setMailbox m ((w.mailbox m).post message).1).queued = w.queued + 1 := by omega
  have he := Books.Entry.post (b := w.books d)
  simp only [books, ← hq] at he
  exact he

/-- A message is received. -/
theorem entry_take {m : MailboxId} {message : Value} {rest : Mailbox}
    (h : (w.mailbox m).take? = some (message, rest)) (d : Nat) :
    (w.books d).Entry (((w.setMailbox m rest).count Stats.received).books d) := by
  have hq := queued_setMailbox rest (lt_of_take? h)
  rw [(Mailbox.queue_of_take? h).1, List.length_cons] at hq
  have hless : (w.setMailbox m rest).queued = w.queued - 1 := by omega
  have he := Books.Entry.receive (b := w.books d) (by simp only [books]; omega)
  simp only [books, ← hless] at he
  exact he

/-- A process that is not done ends. -/
theorem entry_end {p : ProcessId} (hu : w.isUnfinished (.process p) = true) {last : Process}
    (hd : last.state = .done) (d : Nat) :
    (w.books d).Entry (((w.count Stats.completed).modifyProcess p fun _ => last).books d) := by
  obtain ⟨hp, hs⟩ := isUnfinished_process_iff.1 hu
  have h := Table.total_modify (fun process : Process => if process.state = .done then 0 else 1)
    (fun _ => last) hp
  have hs : (w.processes.get p.index).state ≠ .done := hs
  simp only [hd, hs, if_true, if_false] at h
  have hless : (w.modifyProcess p fun _ => last).unfinished = w.unfinished - 1 := by
    simp only [unfinished, modifyProcess]
    omega
  have he := Books.Entry.complete (b := w.books d) (by simp only [books, unfinished]; omega)
  simp only [books, ← hless] at he
  exact he

/-! ### Effects -/

/-- What leaves the cells alone leaves the counters alone. -/
theorem stats_apply_of_isQuiet (w : World) {e : Effect} (h : e.isQuiet = true) :
    (w.apply e).stats = w.stats := by
  cases e with
  | snapshot env block =>
    simp only [apply, instantiate]
    split <;> rfl
  | enter captured own block => cases own <;> rfl
  | install =>
    exact newBuiltinRoot_induct (I := fun v => v.stats = w.stats) rfl fun _ _ _ _ hv => hv
  | report | print | define | defineWord | adopt | newObject | setProperty | restore | harvest
  | wakeWaiter | endTurn | pass | startClock | abandon | beginEpoch => rfl
  | _ => cases h

theorem books_of_sameCells (hc : w.SameCells w') (hs : w'.stats = w.stats) :
    w'.books d = w.books d := by
  simp only [books, queued, unfinished, Scheduler.pending, hs, hc.processes, hc.mailboxes, hc.ready,
    hc.timers]

theorem entered_later (w : World) (task : Task) (d : Nat) :
    (w.books d).Entered ((w.later task).books d) :=
  w.books_later task d ▸ Books.Entry.nothing.entered 1

theorem entered_deliver {m : MailboxId} (hm : m.index < w.mailboxes.size) (message : Value)
    (d : Nat) : (w.books d).Entered ((w.deliver m message).books d) := by
  have hpost := entry_post hm message d
  simp only [deliver]
  split
  · rw [books_later]
    exact hpost.entered 1
  · exact hpost.entered 0

theorem entered_bind (w : World) (v : VariableId) (value : Value) (d : Nat) :
    (w.books d).Entered ((w.bind v value).books d) := by
  unfold bind
  split
  · rename_i cell waiters _
    rw [books_foldl_later (.wakeWaiter · value) waiters]
    exact Books.Entry.nothing.entered _
  · exact Books.Entry.nothing.entered 0

theorem entered_receive (w : World) (s : Stack) (k : Continuation) (d : Nat) :
    (w.books d).Entered ((w.receive s k).books d) := by
  unfold receive
  split
  · exact w.entered_later _ d
  · dsimp only
    split
    · rename_i message rest ht
      rw [resumeLater, books_later]
      exact (entry_take ht d).entered 1
    · split
      · rename_i mailbox hw
        rw [books_setMailbox (congrArg List.length (Mailbox.queue_of_wait? hw))]
        exact Books.Entry.nothing.entered 0
      · exact w.entered_later _ d

theorem entered_finish {p : ProcessId} (hu : w.isUnfinished (.process p) = true)
    (outcome : Outcome) (d : Nat) : (w.books d).Entered ((w.finishProcess p outcome).books d) := by
  have hs := (isUnfinished_process_iff.1 hu).2
  have fold : ∀ (result : Value) (last : Process), last.state = .done →
      (w.books d).Entered (((w.process p).notify.foldl (fun w waker => w.wakeJoiner result waker)
        ((w.count Stats.completed).modifyProcess p fun _ => last)).books d) := by
    intro result last hd
    obtain ⟨n, hn⟩ := books_foldl_wakeJoiner result (w.process p).notify
      ((w.count Stats.completed).modifyProcess p fun _ => last) d
    rw [hn]
    exact (entry_end hu hd d).entered n
  cases outcome <;> simp only [finishProcess, Process.complete, if_neg hs] <;> exact fold _ _ rfl

theorem entered_offer (w : World) (m : MailboxId) (epoch : Nat) (waker : Waker) (d : Nat) :
    (w.books d).Entered ((w.offer m epoch waker).1.books d) := by
  cases ht : (w.mailbox m).take? with
  | some taken =>
    obtain ⟨message, rest⟩ := taken
    cases w.offers_offer m epoch waker with
    | requeue ht' ha h => rw [h]; exact Books.Entry.nothing.entered 0
    | take ht' ha h hm =>
      have ha' : (w.setMailbox m rest).isAbandoned epoch = false := ha
      simp only [offer, ht, ha', Bool.false_eq_true, if_false]
      exact (entry_take ht d).entered 0
    | wait hq hr h => rw [(Mailbox.queue_of_take? ht).1] at hq; cases hq
    | displaced hq hr h => rw [(Mailbox.queue_of_take? ht).1] at hq; cases hq
  | none =>
    simp only [offer, ht]
    split
    · rename_i mailbox hw
      rw [books_setMailbox (congrArg List.length (Mailbox.queue_of_wait? hw))]
      exact Books.Entry.nothing.entered 0
    · exact Books.Entry.nothing.entered 0

theorem entered_spawn (w : World) (captured : Bindings Value) (block : Block)
    (parent : Option ProcessId) (d : Nat) :
    (w.books d).Entered ((w.apply (.spawn captured block parent)).books d) := by
  have hu : (w.apply (.spawn captured block parent)).unfinished = w.unfinished + 1 :=
    Table.total_push _ _ _
  have hq : (w.apply (.spawn captured block parent)).queued = w.queued := Table.total_push _ _ _
  have hp : (w.apply (.spawn captured block parent)).scheduler.pending = w.scheduler.pending + 1 :=
    w.scheduler.pending_later _
  have he := (Books.Entry.spawn (b := w.books d)).entered 1
  simp only [Books.putOff, books] at he
  simp only [books, hu, hq, hp]
  exact he

theorem entered_schedule (w : World) (due : Nat) (task : Task) (d : Nat) :
    (w.books d).Entered ((w.apply (.schedule due task)).books d) := by
  have hp : (w.apply (.schedule due task)).scheduler.pending = w.scheduler.pending + 1 :=
    w.scheduler.pending_schedule due task
  have he := (Books.Entry.nothing (b := w.books d)).entered 1
  simp only [Books.putOff, books] at he
  simp only [books, hp]
  exact he

theorem entered_beginTurn (hr : w.scheduler.ready ≠ []) (d : Nat) :
    (w.books d).Entered ((w.apply .beginTurn).books d) := by
  have hlength := List.length_pos_iff.2 hr
  have hpos : 0 < w.scheduler.pending := by
    simp only [Scheduler.pending]
    omega
  have hp : (w.apply .beginTurn).scheduler.pending = w.scheduler.pending - 1 := by
    simp only [apply, mapScheduler, Scheduler.beginTurn, Scheduler.pending, List.length_tail]
    omega
  have he := (Books.Entry.execute (b := w.books d)
    (max w.stats.maxDispatchDepth (w.scheduler.dispatchDepth + 1)) hpos).entered 0
  simp only [books, ← hp] at he
  exact he

theorem entered_settle (w : World) (d : Nat) :
    (w.books d).Entered ((w.apply .settle).books d) := by
  obtain ⟨timers, ht⟩ := w.scheduler.stats_settle
  have hp : (w.apply .settle).scheduler.pending = w.scheduler.pending := w.scheduler.pending_settle
  have hs : (w.apply .settle).stats = { w.stats with timersFired := timers } := ht
  have hb : (w.apply .settle).books d =
      { w.books d with stats := { w.stats with timersFired := timers } } := by
    simp only [books, hp, hs]
    rfl
  rw [hb]
  exact (Books.Entry.fire (b := w.books d) timers).entered 0

/-- An effect as it happens in evaluations: a message is posted to a mailbox that exists, a process
ends once, and a turn begins only if there is a task to run. -/
structure Takes (w : World) (e : Effect) : Prop where
  known : e.Known w.processes.size
  sound : e.Sound w
  timely : e.Timely w
  ready : e = .beginTurn → w.scheduler.ready ≠ []

/-- **An effect makes at most one entry, and puts off some tasks.** -/
theorem entered_apply {e : Effect} (hm : w.Matched) (he : w.Takes e) (d : Nat) :
    (w.books d).Entered ((w.apply e).books (d + w.discards e)) := by
  by_cases hquiet : e.isQuiet = true
  · have hd : w.discards e = 0 := by cases e <;> first | rfl | cases hquiet
    rw [hd, Nat.add_zero,
      books_of_sameCells (w.sameCells_apply hquiet) (w.stats_apply_of_isQuiet hquiet)]
    exact Books.Entry.nothing.entered 0
  cases e with
  | spawn captured block parent => exact w.entered_spawn captured block parent d
  | deliver m message => exact entered_deliver (hm.size ▸ he.known.1) message d
  | bind v value => exact w.entered_bind v value d
  | newVariable name => exact Books.Entry.nothing.entered 0
  | later task => exact w.entered_later task d
  | schedule due task => exact w.entered_schedule due task d
  | awaitVariable v s k =>
    simp only [apply, awaitVariable]
    split
    · exact w.entered_later _ d
    · exact Books.Entry.nothing.entered 0
  | awaitProcess p s k =>
    simp only [apply, awaitProcess]
    split
    · exact w.entered_later _ d
    · simp only [discards, Nat.add_zero]
      rw [books_modifyProcess (f := (·.addNotify _)) Iff.rfl]
      exact Books.Entry.nothing.entered 0
  | receive s k => exact w.entered_receive s k d
  | fillSlot index outcome => exact Books.Entry.nothing.entered 0
  | finish p outcome => exact entered_finish he.timely outcome d
  | beginTurn => exact entered_beginTurn (he.ready rfl) d
  | markRunning p =>
    simp only [apply, discards, Nat.add_zero]
    rw [books_modifyProcess (Process.done_markRunning _)]
    exact Books.Entry.nothing.entered 0
  | wakeReceiver m waker =>
    cases waker with
    | resume epoch s k => exact w.entered_offer m epoch _ d
    | report tag => exact absurd he.sound.1 id
  | settle => exact w.entered_settle d
  | discard => exact Books.Entry.drop.entered 0
  | launch strict program => exact Books.Entry.nothing.entered 0
  | _ => exact absurd rfl hquiet

/-- Every one of a sequence of effects happens as in evaluations. -/
def TakesAll (w : World) : List Effect → Prop
  | [] => True
  | e :: es => w.Takes e ∧ (w.apply e).TakesAll es

theorem takesAll_append {es fs : List Effect} :
    w.TakesAll (es ++ fs) ↔ w.TakesAll es ∧ (w.replay es).TakesAll fs := by
  induction es generalizing w with
  | nil => simp [TakesAll]
  | cons e es ih => simp [TakesAll, ih, and_assoc]

/-- Effects with which no thread ends and no turn begins. -/
theorem takesAll_of_forall {es : List Effect} (hk : ∀ e ∈ es, e.Known w.processes.size)
    (hs : w.Admits es) (ht : ∀ e ∈ es, e.endsThread = false) (hb : .beginTurn ∉ es) :
    w.TakesAll es := by
  induction es generalizing w with
  | nil => exact trivial
  | cons e es ih =>
    obtain ⟨hk, hks⟩ := List.forall_mem_cons.1 hk
    obtain ⟨ht, hts⟩ := List.forall_mem_cons.1 ht
    obtain ⟨hne, hb⟩ := not_or.1 (mt List.mem_cons.2 hb)
    refine ⟨⟨hk, hs.1, Effect.timely_of_not_endsThread ht w, fun h => absurd h.symm hne⟩, ?_⟩
    exact ih (fun f hf => (hks f hf).mono (w.grows_apply e).processes) hs.2 hts hb

end World

/-! ## Accounts -/

/-- The number of tasks that a sequence of effects dropped. -/
def droppedBy (es : List Effect) : Nat := World.tally World.discards {} es

/-- The numbers of active processes there have been while a sequence of effects happened. -/
def activeDuring (es : List Effect) : Set Nat :=
  { n | ∃ fs, fs <+: es ∧ n = (World.replay {} fs).stats.activeProcesses }

/-- The counters account for what a sequence of effects has brought about. -/
structure World.Accounts (w : World) (es : List Effect) : Prop where
  tasks : w.stats.tasksScheduled = w.stats.tasksExecuted + w.scheduler.ready.length +
    w.scheduler.timers.length + droppedBy es
  messages : w.stats.messagesPosted = w.stats.messagesReceived + w.queued
  processes : w.stats.processesSpawned = w.stats.processesCompleted + w.stats.activeProcesses
  active : w.stats.activeProcesses = w.unfinished
  peak : IsGreatest (activeDuring es) w.stats.peakProcesses

theorem activeDuring_append (es : List Effect) (e : Effect) :
    activeDuring (es ++ [e]) =
      insert (World.replay {} (es ++ [e])).stats.activeProcesses (activeDuring es) := by
  ext n
  simp only [activeDuring, List.prefix_concat_iff, Set.mem_ofPred_eq, Set.mem_insert_iff]
  constructor
  · rintro ⟨fs, rfl | hfs, hn⟩
    · exact .inl hn
    · exact .inr ⟨fs, hfs, hn⟩
  · rintro (hn | ⟨fs, hfs, hn⟩)
    · exact ⟨_, .inl rfl, hn⟩
    · exact ⟨fs, .inr hfs, hn⟩

theorem World.matched_replay {w : World} (h : w.Matched) (es : List Effect) :
    (w.replay es).Matched :=
  replay_induct h fun _ e _ hv => hv.apply e

/-- **The books are in balance after all effects that happen as in evaluations.** -/
theorem World.balanced_replay {es : List Effect} (h : World.TakesAll {} es) :
    ((World.replay {} es).books (droppedBy es)).Balanced ∧
      IsGreatest (activeDuring es) (World.replay {} es).stats.peakProcesses := by
  induction es using List.reverseRecOn with
  | nil =>
    refine ⟨⟨rfl, rfl, rfl, rfl, le_rfl⟩, ⟨[], List.prefix_refl _, rfl⟩, ?_⟩
    rintro n ⟨fs, hfs, rfl⟩
    rw [List.prefix_nil.1 hfs]
    exact le_rfl
  | append_singleton es e ih =>
    obtain ⟨hes, he⟩ := World.takesAll_append.1 h
    obtain ⟨hb, hpeak⟩ := ih hes
    have hmatched : (World.replay {} es).Matched :=
      World.matched_replay (World.Sound.empty {}).matched es
    have hentered := World.entered_apply hmatched he.1 (droppedBy es)
    have hdropped : droppedBy (es ++ [e]) = droppedBy es + (World.replay {} es).discards e := by
      simp only [droppedBy, World.tally_append, World.tally, Nat.add_zero]
    rw [hdropped, activeDuring_append, World.replay_append, World.replay_cons, World.replay_nil]
    refine ⟨hentered.balanced hb, ?_⟩
    have hmax : ((World.replay {} es).apply e).stats.peakProcesses =
        max (World.replay {} es).stats.peakProcesses
          ((World.replay {} es).apply e).stats.activeProcesses := hentered.peak hb
    rw [hmax, max_comm]
    exact hpeak.insert _

/-- A step happens as in evaluations. -/
theorem Next.takesAll {m m' : Moment} {es : List Event}
    (hn : Next (.evaluations fun w s => s.IsWhole w) m es m') (hs : m.Sound) (hk : m.Known)
    {gone : List Thread} (hb : m.Balanced gone) : m.world.TakesAll (effectsOf es) := by
  have hst : ∀ (w : World) (s : Stack), s.IsWhole w → s.Sound w := fun _ _ h => h.1
  obtain ⟨hknown, -⟩ := hn.known hs hk
  obtain ⟨hsound, -⟩ := hn.sound (Policy.evaluations_sound hst) hs
  cases hn with
  | work hd =>
    rw [effectsOf_map] at hknown hsound ⊢
    rcases hd.ends with he | ⟨e, t, rfl, rfl, ht, htimely, -⟩
    · exact World.takesAll_of_forall hknown hsound he fun hm => by cases hd.isDeed _ hm
    · have hne : e ≠ .beginTurn := by
        rintro rfl
        cases hd.isDeed _ (List.mem_singleton.2 rfl)
      exact ⟨⟨hknown e (List.mem_singleton.2 rfl), hsound.1, htimely (hb.isUnfinished ht),
        fun h => absurd h hne⟩, trivial⟩
  | @turn w c roots task rest es hr h =>
    rw [effectsOf_map] at hknown hsound ⊢
    obtain ⟨hk1, hks⟩ := List.forall_mem_cons.1 hknown
    refine ⟨⟨hk1, hsound.1, trivial, fun _ => by rw [hr]; simp⟩, ?_⟩
    refine World.takesAll_of_forall hks hsound.2 (h.account (.main 0)).2 fun hm => ?_
    cases h.keepsPhase _ hm
  | evaluate strict program henv hstack =>
    exact ⟨⟨trivial, trivial, trivial, fun h => (nomatch h)⟩, trivial⟩
  | install => exact ⟨⟨trivial, trivial, trivial, fun h => (nomatch h)⟩, trivial⟩
  | outside he =>
    refine World.takesAll_of_forall hknown hsound (List.forall_mem_singleton.2 ?_) fun hm => ?_
    · exact (Effect.still (Policy.isStill_of_allows he)).2.2
    · cases List.mem_singleton.1 hm
      cases Policy.isStill_of_allows he

theorem Run.takesAll {m : Moment} {es : List Event}
    (h : Run (.evaluations fun w s => s.IsWhole w) .dawn es m) :
    World.TakesAll {} (effectsOf es) := by
  have hst : ∀ (w : World) (s : Stack), s.IsWhole w → s.Sound w := fun _ _ h => h.1
  induction h with
  | refl => exact trivial
  | step hr hn ih =>
    rw [effectsOf_append]
    refine World.takesAll_append.2 ⟨ih, ?_⟩
    have hw : World.replay {} (effectsOf _) = _ := hr.world_eq.symm
    rw [hw]
    exact hn.takesAll (hr.sound (Policy.evaluations_sound hst) Moment.sound_dawn) hr.known
      (hr.balanced hst)

/-- **The counters account for everything, at every moment of any number of evaluations.** -/
theorem Run.accounts {m : Moment} {es : List Event}
    (h : Run (.evaluations fun w s => s.IsWhole w) .dawn es m) :
    m.world.Accounts (effectsOf es) := by
  obtain ⟨hb, hpeak⟩ := World.balanced_replay h.takesAll
  rw [show m.world = World.replay {} (effectsOf es) from h.world_eq]
  refine ⟨?_, hb.messages, hb.processes, hb.active, hpeak⟩
  have ht := hb.tasks
  simp only [World.books, Scheduler.pending] at ht
  omega

/-- Evaluations lead to this world, and however they did, the counters account for it. -/
structure World.Accounted (w : World) (is : List Interpreter) : Prop where
  led : Leads (.evaluations fun w s => s.IsWhole w) .dawn ⟨w, .rest, is.map Interpreter.env⟩
  accounts : ∀ es, Run (.evaluations fun w s => s.IsWhole w) .dawn es
    ⟨w, .rest, is.map Interpreter.env⟩ → w.Accounts (effectsOf es)

/-- **The counters account for everything.** In the worlds that any number of evaluations lead to,
and at every point between two turns of the next one, every task that was scheduled has been
executed, is ready, waits for its time or was dropped; every message that was posted has been
received or is in a mailbox; every process that was spawned has completed or is active, which are
those that are not done; and the peak is the greatest number of active processes there ever was. -/
theorem counters_account {w : World} {is : List Interpreter}
    (h : Evaluated (fun w s => s.IsWhole w) w is) :
    w.Accounted is ∧ ∀ i ∈ is, ∀ (program : Program) (stack : Stack), stack.IsWhole w →
      ∀ n, (i.after n program stack w).Accounted is := by
  have hst : ∀ (w : World) (s : Stack), s.IsWhole w → s.Sound w := fun _ _ h => h.1
  have hl := (h.leads hst).1
  refine ⟨⟨hl, fun _ hrun => hrun.accounts⟩, fun i hi program stack hs n => ?_⟩
  have hn := leads_during program (h.sound hst) hs.1 hs (List.mem_map_of_mem hi) n
  exact ⟨hl.trans hn, fun _ hrun => hrun.accounts⟩

/-- A program posts two messages to a process, which waits for a moment and takes one, and is cut
off. While the process waits the program is ready all the time. Two tasks are dropped, and the
other message stays in the mailbox. -/
theorem counters_account_cutOff :
    ∃ (w : World) (i : Interpreter), Evaluated (fun w s => s.IsWhole w) w [i] ∧ w.Accounted [i] ∧
      w.stats = {
        tasksScheduled := 6, tasksExecuted := 4, timersFired := 1, maxDispatchDepth := 1
        processesSpawned := 1, activeProcesses := 1, peakProcesses := 1
        messagesPosted := 2, messagesReceived := 1 } ∧
      w.scheduler.pending = 0 ∧ (w.mailbox ⟨0⟩).queue.length = 1 ∧ w.reports = [] := by
  have hnew : Evaluated (fun w s => s.IsWhole w) World.fresh [⟨⟨0⟩, { maxTurns := some 4 }⟩] :=
    .fresh _
  -- The first turn takes a millisecond.
  have h := (hnew.pass 0 [0, 1000000]).eval
    "[ 1 after receive yield ] go :first over post :second over post yield yield yield"
    (List.mem_singleton.2 rfl) (Stack.isWhole_empty _)
  exact ⟨_, _, h, (counters_account h).1, by decide +kernel, by decide +kernel, by decide +kernel,
    by decide +kernel⟩

end Catena
