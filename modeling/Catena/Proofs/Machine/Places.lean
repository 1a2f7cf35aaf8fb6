import Catena.Proofs.Machine.Balance
import Catena.Proofs.Machine.Regimes
import Mathlib

/-!
# Where threads wait

In evaluations that begin on stacks of their own, a thread always works on its own stack, so that
the mailbox it waits in is its own. Two threads are then never in the way of each other, and no
thread is lost but those that are given up (`displaced_eq_nil`). `World.places` lists the places
where a thread is held, and the main result says that there is exactly one of them, where something
can still call it, until the thread ends or is given up (`one_continuation`).
-/

namespace Catena

/-! ## Threads work on their own stacks -/

/-- The process whose stacks a thread works on. The main program of an evaluation is no process. -/
def Thread.owner : Thread → Option ProcessId
  | .main _ => none
  | .process p => some p

theorem Thread.eq_process_of_owner {t : Thread} {p : ProcessId} (h : t.owner = some p) :
    t = .process p := by
  cases t with
  | main slot => cases h
  | process q => cases h; rfl

/-- Every thread works on its own stacks. -/
def Regime.owned : Regime where
  works t owner := owner = t.owner
  waits t owner _ := owner = t.owner

theorem Regime.owned_lawful (w : World) : owned.Lawful w := ⟨id, fun h _ => h, fun _ _ => rfl⟩

/-- Stacks that belong to no process. -/
def Stack.IsFree (w : World) (s : Stack) : Prop := s.Sound w ∧ s.owner = none

theorem Stack.isFree_empty (w : World) : Stack.empty.IsFree w :=
  ⟨⟨fun _ hp => (nomatch hp), fun _ hv => (nomatch hv)⟩, rfl⟩

theorem Stack.IsFree.sound : ∀ (w : World) (s : Stack), s.IsFree w → s.Sound w :=
  fun _ _ h => h.1

/-- Evaluations that begin on stacks that belong to no process. -/
def Policy.free : Policy := .evaluations Stack.IsFree

theorem Run.owned {starts : World → Stack → Prop} (hst : ∀ w s, starts w s → s.owner = none)
    {m : Moment} {es : List Event} (h : Run (.evaluations starts) .dawn es m) :
    Regime.owned.Keeps m := by
  refine h.induct (I := Regime.owned.Keeps) (fun hk hn => ?_) ⟨.empty, trivial⟩
  exact (hn.keeps (Regime.owned_lawful _) Policy.letsEffect_of_evaluations
    (fun s hs => hst _ s hs) hk).2

/-- One who waits in a mailbox is the process it belongs to. -/
theorem Regime.LetsWait.thread {w : World} {waker : Waker} {m : MailboxId}
    (h : owned.LetsWait waker) (hs : waker.Sound w) (hf : waker.IsFor m) :
    waker.thread? = some (.process ⟨m.index⟩) := by
  cases waker with
  | report tag => cases hs
  | resume epoch s k =>
    obtain ⟨-, t, ht, -⟩ := hs
    have ho : s.owner = t.owner := h t ht
    rw [show (Waker.resume epoch s k).thread? = k.thread? from rfl, ht]
    exact congrArg some (Thread.eq_process_of_owner (ho.symm.trans hf))

namespace World

variable {w : World}

theorem countP_pos_of_receiver {m : MailboxId} {waker : Waker} {t : Thread}
    (h : (w.mailbox m).receiver = some waker) (ht : waker.thread? = some t) :
    1 ≤ w.mailboxes.total fun mailbox => mailbox.receiver.toList.countP (Waker.isOf t) := by
  have hm : m.index < w.mailboxes.size := by
    by_contra hn
    rw [mailbox, Table.get_of_size_le (Nat.le_of_not_lt hn)] at h
    cases h
  have hle := Table.le_total
    (fun mailbox : Mailbox => mailbox.receiver.toList.countP (Waker.isOf t)) hm
  rw [show w.mailboxes.get m.index = w.mailbox m from rfl, h, Option.toList_some, countP_one] at hle
  simpa [Waker.isOf, ht] using hle

/-- A thread that is woken to receive and waits in a mailbox is held twice. -/
theorem two_le_held {m : MailboxId} {waker other : Waker} {rest : List Task} {t : Thread}
    (hr : w.scheduler.ready = .wakeReceiver m waker :: rest) (ht : waker.thread? = some t)
    (ho : (w.mailbox m).receiver = some other) (hto : other.thread? = some t) :
    2 ≤ w.held t := by
  have hready : 1 ≤ w.scheduler.ready.countP (Task.isOf t) := by
    rw [hr]
    simp [Waker.isOf, ht]
  have hmail := countP_pos_of_receiver ho hto
  simp only [held]
  omega

end World

/-- A moment of evaluations that begin on stacks that belong to no process. -/
structure Moment.Regular (m : Moment) (gone : List Thread) : Prop where
  sound : m.Sound
  balanced : m.Balanced gone
  owned : Regime.owned.Keeps m

theorem Run.regular {m : Moment} {es : List Event} (h : Run .free .dawn es m) :
    m.Regular (World.gather World.lost {} (effectsOf es)) :=
  ⟨h.sound (Policy.evaluations_sound Stack.IsFree.sound) Moment.sound_dawn,
    h.balanced Stack.IsFree.sound, h.owned fun _ _ hs => hs.2⟩

/-- A woken receiver finds its place free. -/
theorem Begins.displaced_eq_nil {w : World} {task : Task} {rest : List Task} {c : Control}
    {es : List Effect} {roots : List EnvId} {gone : List Thread}
    (hb : Begins (w.apply .beginTurn) task es c) (hr : w.scheduler.ready = task :: rest)
    (h : Moment.Regular ⟨w, .rest, roots⟩ gone) :
    (w.apply .beginTurn).gather World.displaced es = [] := by
  have key : ∀ {m waker}, task = .wakeReceiver m waker →
      (w.apply .beginTurn).gather World.displaced [.wakeReceiver m waker] = [] := by
    rintro m waker rfl
    simp only [World.gather, World.displaced, List.append_nil]
    rw [if_neg]
    rintro ⟨-, hsome⟩
    obtain ⟨other, ho⟩ := Option.isSome_iff_exists.1 hsome
    have ho : (w.mailbox m).receiver = some other := ho
    -- Both belong to the process that the mailbox belongs to, which would be held twice.
    have hmem : Task.wakeReceiver m waker ∈ w.scheduler.ready := by rw [hr]; simp
    have hw := h.sound.world.cells.ready _ hmem
    have ht := Regime.LetsWait.thread (h.owned.cells.ready _ hmem) hw.1 hw.2
    have hother := h.sound.world.cells.receiverOf m other ho
    have hto := Regime.LetsWait.thread (h.owned.cells.receiverOf m other ho) hother.1 hother.2
    have htwo := World.two_le_held hr ht ho hto
    have hone := h.balanced (.process ⟨m.index⟩)
    cases hu : w.isUnfinished (.process ⟨m.index⟩) <;>
      simp only [hu, Bool.toNat_true, Bool.toNat_false] at hone <;> omega
  cases hb with
  | receive | refuse => exact key rfl
  | _ => rfl

/-- The work of a turn wakes no receiver. -/
theorem World.gather_displaced {es : List Effect} (h : ∀ e ∈ es, e.isDeed = true) (w : World) :
    w.gather displaced es = [] := by
  induction es generalizing w with
  | nil => rfl
  | cons e es ih =>
    obtain ⟨he, hes⟩ := List.forall_mem_cons.1 h
    rw [gather, ih hes, List.append_nil]
    cases e with
    | wakeReceiver => cases he
    | _ => rfl

/-- **No thread is in the way of another.** -/
theorem Next.displaced_eq_nil {m m' : Moment} {es : List Event} {gone : List Thread}
    (hn : Next .free m es m') (h : m.Regular gone) :
    m.world.gather World.displaced (effectsOf es) = [] := by
  cases hn with
  | work hd =>
    rw [effectsOf_map]
    exact World.gather_displaced hd.isDeed _
  | turn hr hb =>
    rw [effectsOf_map]
    exact hb.displaced_eq_nil hr h
  | evaluate | install => rfl
  | outside he =>
    rcases he with (rfl | rfl | rfl | ⟨elapsed, lapses, rfl⟩) | rfl | ⟨epoch, rfl⟩ <;> rfl

theorem World.count_gather_lost (w : World) (es : List Effect) (t : Thread) :
    (w.gather lost es).count t = (w.gather dropped es).count t + (w.gather displaced es).count t := by
  induction es generalizing w with
  | nil => rfl
  | cons e es ih =>
    simp only [gather, lost, List.count_append] at ih ⊢
    have := ih (w.apply e)
    omega

theorem Run.displaced_eq_nil {m : Moment} {es : List Event} (h : Run .free .dawn es m) :
    World.gather World.displaced {} (effectsOf es) = [] := by
  induction h with
  | refl => rfl
  | step hr hn ih =>
    have hnext := hn.displaced_eq_nil hr.regular
    rw [hr.world_eq] at hnext
    rw [effectsOf_append, World.gather_append, ih, List.nil_append]
    exact hnext

/-- The threads that have been given up in a run. -/
def World.givenUp (w : World) (es : List Event) : List Thread := w.gather dropped (effectsOf es)

/-- Between turns a thread that has begun and not ended is held, or it has been given up. -/
theorem Run.held_add_count {w : World} {roots : List EnvId} {es : List Event}
    (h : Run .free .dawn es ⟨w, .rest, roots⟩) (t : Thread) :
    w.held t + (World.givenUp {} es).count t = (w.isUnfinished t).toNat := by
  have hb := h.regular.balanced t
  rw [World.count_gather_lost, h.displaced_eq_nil] at hb
  exact hb

/-! ## Nobody waits for what has come -/

/-- Nobody waits for a variable that is bound or for a process that is done. -/
structure World.Open (w : World) : Prop where
  dataflows : w.dataflows.All fun _ cell => cell.value.isSome → cell.waiters = []
  processes : w.processes.All fun _ process =>
    process.state = .done → process.result.isSome ∧ process.notify = []

namespace World.Open

variable {w w' : World}

theorem of_eq (h : w.Open) (hd : w'.dataflows = w.dataflows) (hp : w'.processes = w.processes) :
    w'.Open := ⟨hd ▸ h.dataflows, hp ▸ h.processes⟩

theorem modifyProcess (h : w.Open) {p : ProcessId} {f : Process → Process}
    (hf : ∀ process, (process.state = .done → process.result.isSome ∧ process.notify = []) →
      (f process).state = .done → (f process).result.isSome ∧ (f process).notify = []) :
    (w.modifyProcess p f).Open :=
  ⟨h.dataflows, h.processes.modify fun process _ hp => hf process hp⟩

/-- A process without a result is not done. -/
theorem not_done (h : w.Open) {p : ProcessId} (hr : (w.process p).result = none) :
    (w.process p).state ≠ .done := by
  intro hd
  have hall := Table.All.get_of_default (i := p.index) h.processes (fun hs => by cases hs) hd
  rw [show w.processes.get p.index = w.process p from rfl, hr] at hall
  cases hall.1

theorem awaitProcess (h : w.Open) (p : ProcessId) (s : Stack) (k : Continuation) :
    (w.awaitProcess p s k).Open := by
  cases hr : (w.process p).result with
  | some u => rw [awaitProcess_of_result hr]; exact h.of_eq rfl rfl
  | none =>
    rw [awaitProcess_of_none hr]
    refine ⟨h.dataflows, h.processes.modify fun process hg _ hd => ?_⟩
    have hp : w.process p = process := Table.get_eq_of_get? hg
    exact absurd (hp ▸ hd) (h.not_done hr)

theorem awaitVariable (h : w.Open) (v : VariableId) (s : Stack) (k : Continuation) :
    (w.awaitVariable v s k).Open := by
  cases hv : (w.dataflow v).value with
  | some u => rw [awaitVariable_of_bound hv]; exact h.of_eq rfl rfl
  | none =>
    rw [awaitVariable_of_unbound hv]
    refine ⟨h.dataflows.modify fun cell hg _ hsome => ?_, h.processes⟩
    have hc : w.dataflow v = cell := Table.get_eq_of_get? hg
    rw [show (cell.addWaiter _).value = cell.value from rfl, ← hc, hv] at hsome
    cases hsome

theorem finish (h : w.Open) (p : ProcessId) (outcome : Outcome) :
    (w.finishProcess p outcome).Open := by
  by_cases hs : (w.process p).state = .done
  · rw [finishProcess_of_done hs]
    have hc : (w.count Stats.completed).Open := h.of_eq rfl rfl
    refine ⟨hc.dataflows, hc.processes.modify fun process hg hp => ?_⟩
    rw [show w.process p = process from Table.get_eq_of_get? hg]
    exact hp
  · have hq := finishProcess_of_ne_done hs outcome
    refine of_eq (w := w.modifyProcess p fun _ => ended (w.process p) outcome) ?_ hq.dataflows
      hq.processes
    exact h.modifyProcess fun _ _ _ => ⟨rfl, rfl⟩

/-- **Effects call whoever waits for what has come.** -/
theorem apply (h : w.Open) (e : Effect) : (w.apply e).Open := by
  by_cases hkeeps : e.keepsVariables = true ∧ e.keepsProcesses = true
  · exact h.of_eq (w.dataflows_apply hkeeps.1) (w.processes_apply hkeeps.2)
  cases e with
  | spawn captured block parent =>
    exact ⟨h.dataflows, h.processes.push fun hd => by cases hd⟩
  | newVariable name => exact ⟨h.dataflows.push (fun hs => by cases hs), h.processes⟩
  | bind v value =>
    cases hv : (w.dataflow v).value with
    | some u => simp only [World.apply, bind_of_bound hv]; exact h
    | none =>
      have hq := bind_of_unbound hv value
      refine of_eq (w := w.modifyVariable v fun _ => bindTo (w.dataflow v) value) ?_ hq.dataflows
        hq.processes
      exact ⟨h.dataflows.modify fun _ _ _ _ => rfl, h.processes⟩
  | awaitVariable v s k => exact h.awaitVariable v s k
  | awaitProcess p s k => exact h.awaitProcess p s k
  | finish p outcome => exact h.finish p outcome
  | markRunning p =>
    refine h.modifyProcess fun process hp hd => ?_
    rw [Process.result_markRunning, Process.notify_markRunning]
    exact hp (process.done_markRunning.1 hd)
  | _ => exact absurd ⟨rfl, rfl⟩ hkeeps

theorem empty : ({} : World).Open := ⟨.empty, .empty⟩

theorem replay (h : w.Open) (es : List Effect) : (w.replay es).Open :=
  replay_induct h fun _ e _ hv => hv.apply e

end World.Open

/-! ## Places -/

/-- Where a continuation can be held between turns. -/
inductive Place where
  | ready
  | timer
  | waiter (v : VariableId)
  | joiner (p : ProcessId)
  | receiver (m : MailboxId)
  deriving DecidableEq

namespace World

/-- The places where a thread is held, each as often as it holds it. -/
def places (w : World) (t : Thread) : List Place :=
  (w.scheduler.ready.filter (Task.isOf t)).map (fun _ => .ready)
    ++ (w.scheduler.timers.filter fun timer => timer.task.isOf t).map (fun _ => .timer)
    ++ (List.range w.dataflows.size).flatMap (fun i =>
      ((w.dataflow ⟨i⟩).waiters.filter (Waker.isOf t)).map fun _ => .waiter ⟨i⟩)
    ++ (List.range w.processes.size).flatMap (fun i =>
      ((w.process ⟨i⟩).notify.filter (Waker.isOf t)).map fun _ => .joiner ⟨i⟩)
    ++ (List.range w.mailboxes.size).flatMap (fun i =>
      ((w.mailbox ⟨i⟩).receiver.toList.filter (Waker.isOf t)).map fun _ => .receiver ⟨i⟩)

/-- A place from which a thread can still be called: a turn of its own, a variable that is not
bound, a process that is not done, or its own mailbox while it is empty. -/
def CanCall (w : World) (t : Thread) : Place → Prop
  | .ready | .timer => True
  | .waiter v => (w.dataflow v).value = none
  | .joiner p => (w.process p).state ≠ .done
  | .receiver m => (∃ p, t = .process p ∧ (w.process p).mailbox = m) ∧ (w.mailbox m).queue = []

theorem length_flatMap_range {α β : Type} [Inhabited α] (table : Table α) {f : Nat → α → List β}
    {n : α → Nat} (h : ∀ i a, (f i a).length = n a) :
    ((List.range table.size).flatMap fun i => f i (table.get i)).length = table.total n := by
  unfold Table.total
  induction table.size with
  | zero => rfl
  | succ size ih =>
    rw [List.range_succ, List.flatMap_append, List.length_append, ih, Finset.sum_range_succ]
    simp [h]

/-- A thread is held as often as it has places. -/
theorem length_places (w : World) (t : Thread) : (w.places t).length = w.held t := by
  have hmark : ∀ {α : Type} (l : List α) (p : α → Bool) (place : Place),
      ((l.filter p).map fun _ => place).length = l.countP p := fun l p place => by
    rw [List.length_map, List.countP_eq_length_filter]
  have hv := length_flatMap_range w.dataflows (fun i cell =>
    hmark cell.waiters (Waker.isOf t) (.waiter ⟨i⟩))
  have hp := length_flatMap_range w.processes (fun i process =>
    hmark process.notify (Waker.isOf t) (.joiner ⟨i⟩))
  have hm := length_flatMap_range w.mailboxes (fun i mailbox =>
    hmark mailbox.receiver.toList (Waker.isOf t) (.receiver ⟨i⟩))
  simp only [places, held, List.length_append, hmark, dataflow, process, mailbox, hv, hp, hm]

variable {w : World} {t : Thread}

theorem mem_places_waiter {v : VariableId} (h : .waiter v ∈ w.places t) :
    (w.dataflow v).waiters ≠ [] := by
  simp only [places, List.mem_append, List.mem_flatMap, List.mem_map, List.mem_filter] at h
  rcases h with (((⟨_, _, hp⟩ | ⟨_, _, hp⟩) | ⟨i, -, waker, hw, hp⟩) | ⟨_, _, _, _, hp⟩) |
    ⟨_, _, _, _, hp⟩ <;> cases hp
  exact List.ne_nil_of_mem hw.1

theorem mem_places_joiner {p : ProcessId} (h : .joiner p ∈ w.places t) :
    (w.process p).notify ≠ [] := by
  simp only [places, List.mem_append, List.mem_flatMap, List.mem_map, List.mem_filter] at h
  rcases h with (((⟨_, _, hp⟩ | ⟨_, _, hp⟩) | ⟨_, _, _, _, hp⟩) | ⟨i, -, waker, hw, hp⟩) |
    ⟨_, _, _, _, hp⟩ <;> cases hp
  exact List.ne_nil_of_mem hw.1

theorem mem_places_receiver {m : MailboxId} (h : .receiver m ∈ w.places t) :
    ∃ waker, (w.mailbox m).receiver = some waker ∧ waker.thread? = some t := by
  simp only [places, List.mem_append, List.mem_flatMap, List.mem_map, List.mem_filter] at h
  rcases h with (((⟨_, _, hp⟩ | ⟨_, _, hp⟩) | ⟨_, _, _, _, hp⟩) | ⟨_, _, _, _, hp⟩) |
    ⟨i, -, waker, hw, hp⟩ <;> cases hp
  exact ⟨waker, Option.mem_toList.1 hw.1, of_decide_eq_true hw.2⟩

/-- Where nobody waits for what has come, whoever waits can still be called. -/
theorem canCall_of_mem (ho : w.Open) (hi : w.ReceiversIdle) (hs : w.Sound w)
    (hk : Holders (fun _ _ => True) Regime.owned.LetsTask (fun _ => Regime.owned.LetsWait) w)
    {place : Place} (h : place ∈ w.places t) : w.CanCall t place := by
  cases place with
  | ready | timer => exact trivial
  | waiter v =>
    have hnil := Table.All.get_of_default (i := v.index) ho.dataflows fun hsome => by cases hsome
    exact Option.not_isSome_iff_eq_none.1 fun hsome => mem_places_waiter h (hnil hsome)
  | joiner p =>
    have hnil := Table.All.get_of_default (i := p.index) ho.processes fun hd => by cases hd
    exact fun hd => mem_places_joiner h (hnil hd).2
  | receiver m =>
    obtain ⟨waker, hw, ht⟩ := mem_places_receiver h
    obtain ⟨hsound, hfor⟩ := hs.cells.receiverOf m waker hw
    have hthread := Regime.LetsWait.thread (hk.receiverOf m waker hw) hsound hfor
    have hown : t = .process ⟨m.index⟩ := Option.some.inj (ht.symm.trans hthread)
    have hin : m.index < w.processes.size := by
      cases waker with
      | report tag => cases hsound
      | resume epoch s k => exact hsound.1.owner _ hfor
    refine ⟨⟨⟨m.index⟩, hown, hs.matched.mailbox hin⟩, ?_⟩
    have hnil := Table.All.get_of_default (i := m.index) hi fun hsome => by cases hsome
    exact hnil (Option.isSome_iff_exists.2 ⟨waker, hw⟩)

end World

/-- Every thread is accounted for in a world that a run has led to: until it ends, it is held in
exactly one place, from which it can still be called, or it has been given up and is held nowhere;
once it has ended, it is held nowhere. -/
def Accounted (w : World) (es : List Event) : Prop :=
  ∀ t, (w.isUnfinished t = true →
      (∃ place, w.places t = [place] ∧ w.CanCall t place ∧ t ∉ World.givenUp {} es) ∨
        (w.places t = [] ∧ t ∈ World.givenUp {} es)) ∧
    (w.isUnfinished t = false → w.places t = [])

/-- **Between turns every thread is accounted for.** -/
theorem Run.accounted {w : World} {roots : List EnvId} {es : List Event}
    (h : Run .free .dawn es ⟨w, .rest, roots⟩) : Accounted w es := by
  have hw : w = ({} : World).replay (effectsOf es) := h.world_eq
  have hopen : w.Open := hw ▸ World.Open.empty.replay _
  have hempty : ({} : World).ReceiversIdle := Table.All.empty
  have hidle : w.ReceiversIdle := hw ▸ (World.takes_append_queue hempty (effectsOf es) ⟨0⟩).2
  have hreg := h.regular
  intro t
  have hheld := h.held_add_count t
  rw [← World.length_places] at hheld
  refine ⟨fun hu => ?_, fun hu => ?_⟩
  · rw [hu, Bool.toNat_true] at hheld
    by_cases hgone : t ∈ World.givenUp {} es
    · have hpos := List.count_pos_iff.2 hgone
      exact .inr ⟨List.length_eq_zero_iff.1 (by omega), hgone⟩
    · have hzero := List.count_eq_zero.2 hgone
      obtain ⟨place, hplace⟩ := List.length_eq_one_iff.1 (show (w.places t).length = 1 by omega)
      refine .inl ⟨place, hplace, ?_, hgone⟩
      exact World.canCall_of_mem hopen hidle hreg.sound.world hreg.owned.cells (by simp [hplace])
  · rw [hu, Bool.toNat_false] at hheld
    exact List.length_eq_zero_iff.1 (by omega)

/-! ## An evaluation in its own epoch -/

/-- A thread waits in one epoch only. -/
def Regime.inEpoch (t : Thread) (epoch : Nat) : Regime where
  works _ _ := True
  waits u _ e := u = t → e = epoch

namespace Regime

variable {w : World} {t : Thread} {epoch : Nat}

theorem inEpoch_lawful (h : w.scheduler.epoch = epoch) : (inEpoch t epoch).Lawful w :=
  ⟨fun _ _ => h, fun _ _ => trivial, fun _ _ => trivial⟩

theorem not_isGivenUp {waker : Waker} (h : (inEpoch t epoch).LetsWait waker)
    (ht : waker.thread? = some t) (ha : w.isAbandoned epoch = false) :
    waker.isGivenUp w = false := by
  cases waker with
  | report tag => rfl
  | resume e s k =>
    have he : e = epoch := h t ht rfl
    rw [Waker.isGivenUp, he, ha]

/-- As long as the epoch is not given up, nor the tasks are, the thread is not. -/
theorem not_mem_dropped
    (hc : Holders (fun _ _ => True) (inEpoch t epoch).LetsTask (fun _ => (inEpoch t epoch).LetsWait) w)
    (ha : w.isAbandoned epoch = false) {e : Effect} (he : (inEpoch t epoch).LetsEffect e)
    (hd : e ≠ .discard) : t ∉ w.dropped e := by
  have one : ∀ {waker}, (inEpoch t epoch).LetsWait waker → waker.isGivenUp w = true →
      waker.thread? ≠ some t := by
    intro waker hw hg ht
    rw [not_isGivenUp hw ht ha] at hg
    cases hg
  cases e with
  | finish p outcome =>
    simp only [World.dropped]
    split
    · simp
    · intro hmem
      obtain ⟨waker, hw, ht⟩ := List.mem_filterMap.1 hmem
      obtain ⟨hin, hg⟩ := List.mem_filter.1 hw
      exact one (hc.notifyOf p waker hin) hg ht
  | wakeWaiter waker =>
    simp only [World.dropped]
    split
    · rename_i hg
      exact fun hmem => one he hg (Option.mem_toList.1 hmem)
    · simp
  | wakeReceiver m waker =>
    simp only [World.dropped]
    split
    · rename_i hg
      exact fun hmem => one he hg.2 (Option.mem_toList.1 hmem)
    · simp
  | discard => exact absurd rfl hd
  | _ => simp [World.dropped]

theorem not_mem_gather_dropped {es : List Effect}
    (hc : Holders (fun _ _ => True) (inEpoch t epoch).LetsTask (fun _ => (inEpoch t epoch).LetsWait) w)
    (hw : w.scheduler.epoch = epoch) (ha : w.isAbandoned epoch = false)
    (hk : ∀ e ∈ es, e.keepsPhase = true) (he : ∀ e ∈ es, (inEpoch t epoch).LetsEffect e)
    (hd : ∀ e ∈ es, e ≠ .discard) : t ∉ w.gather World.dropped es := by
  induction es generalizing w with
  | nil => simp
  | cons e es ih =>
    obtain ⟨hk1, hks⟩ := List.forall_mem_cons.1 hk
    obtain ⟨he1, hes⟩ := List.forall_mem_cons.1 he
    obtain ⟨hd1, hds⟩ := List.forall_mem_cons.1 hd
    have hg := inEpoch_lawful (t := t) hw
    have hp := w.samePhase_apply hk1
    rw [World.gather, List.mem_append, not_or]
    exact ⟨not_mem_dropped hc ha he1 hd1,
      ih (hc.apply hg.passes (hg.brings he1)) (hp.epoch.trans hw)
        ((hp.isAbandoned epoch).trans ha) hks hes hds⟩

end Regime

/-- A moment in an epoch that has not been given up, in which a thread waits if at all. -/
structure Moment.InEpoch (m : Moment) (t : Thread) (epoch : Nat) : Prop where
  now : m.world.scheduler.epoch = epoch
  alive : m.world.isAbandoned epoch = false
  keeps : (Regime.inEpoch t epoch).Keeps m

/-- While turns are taken, a thread that waits in the epoch is not given up. -/
theorem Next.inEpoch {m m' : Moment} {es : List Event} {t : Thread} {epoch : Nat}
    (hn : Next .turns m es m') (h : m.InEpoch t epoch) :
    m'.InEpoch t epoch ∧ t ∉ m.world.gather World.dropped (effectsOf es) := by
  have hg := Regime.inEpoch_lawful (t := t) h.now
  obtain ⟨hlets, hkeep⟩ := hn.keeps hg Policy.letsEffect_of_turns (fun _ hs => hs.elim) h.keeps
  have phase : m.world.SamePhase m'.world → m'.InEpoch t epoch := fun hp =>
    ⟨hp.epoch.trans h.now, (hp.isAbandoned epoch).trans h.alive, hkeep⟩
  cases hn with
  | work hd =>
    rw [effectsOf_map] at hlets ⊢
    have hne : ∀ e ∈ _, e ≠ Effect.discard := fun e he hdis => by
      have hdeed := hd.isDeed e he
      rw [hdis] at hdeed
      cases hdeed
    exact ⟨phase (World.samePhase_replay hd.keepsPhase), Regime.not_mem_gather_dropped h.keeps.cells
      h.now h.alive hd.keepsPhase hlets hne⟩
  | turn hr hb =>
    rename_i w c roots task rest es
    have hp := World.samePhase_replay (w := w.apply .beginTurn) hb.keepsPhase
    have hcells : Holders (fun _ _ => True) _ _ (w.apply .beginTurn) :=
      h.keeps.cells.apply hg.passes trivial
    rw [effectsOf_map] at hlets
    have hne : ∀ e ∈ es, e ≠ Effect.discard := by cases hb <;> simp
    rw [effectsOf_map]
    refine ⟨⟨hp.epoch.trans h.now, (hp.isAbandoned epoch).trans h.alive, hkeep⟩, ?_⟩
    show t ∉ (w.apply .beginTurn).gather World.dropped es
    exact Regime.not_mem_gather_dropped hcells h.now h.alive hb.keepsPhase
      (List.forall_mem_cons.1 hlets).2 hne
  | evaluate strict program henv hs => exact hs.elim
  | install => exact ⟨phase (World.samePhase_newBuiltinRoot _), List.not_mem_nil⟩
  | outside he =>
    rcases he with rfl | rfl | rfl | ⟨elapsed, lapses, rfl⟩
    · exact ⟨phase (World.samePhase_apply _ (e := .settle) rfl), List.not_mem_nil⟩
    · exact ⟨⟨h.now, h.alive, hkeep⟩, List.not_mem_nil⟩
    · exact ⟨phase (World.samePhase_apply _ (e := .startClock) rfl), List.not_mem_nil⟩
    · exact ⟨phase (World.samePhase_apply _ (e := .pass _ _) rfl), List.not_mem_nil⟩

theorem Run.inEpoch {m m' : Moment} {es : List Event} {t : Thread} {epoch : Nat}
    (hr : Run .turns m es m') (h : m.InEpoch t epoch) :
    m'.InEpoch t epoch ∧ t ∉ m.world.gather World.dropped (effectsOf es) := by
  induction hr with
  | refl => exact ⟨h, by simp⟩
  | step hr hn ih =>
    obtain ⟨hin, hnot⟩ := ih
    obtain ⟨hin', hnot'⟩ := hn.inEpoch hin
    rw [hr.world_eq] at hnot'
    refine ⟨hin', ?_⟩
    rw [effectsOf_append, World.gather_append, List.mem_append, not_or]
    exact ⟨hnot, hnot'⟩

/-- Whoever is held already is not the main program of the next evaluation. -/
theorem World.Sound.inEpoch {w : World} (hw : w.Sound w) (epoch : Nat) :
    Holders (fun _ _ => True) (Regime.inEpoch (.main w.slots.size) epoch).LetsTask
      (fun _ => (Regime.inEpoch (.main w.slots.size) epoch).LetsWait) w := by
  have hwait : ∀ waker, waker.Sound w →
      (Regime.inEpoch (.main w.slots.size) epoch).LetsWait waker := by
    intro waker hs
    cases waker with
    | report tag => cases hs
    | resume e s k =>
      obtain ⟨-, u, hu, hex⟩ := hs
      rintro t ht rfl
      cases hu.symm.trans ht
      exact absurd hex (Nat.lt_irrefl _)
  refine hw.cells.imp (fun _ _ _ => trivial) (fun task ht => ?_) fun c waker hk => ?_
  · cases task with
    | resume k outcome =>
      cases outcome with
      | ok s => exact fun _ _ => trivial
      | error e => exact fun _ _ => ⟨none, trivial⟩
    | activate captured own block exit s k => exact fun _ _ => trivial
    | start p code s => exact trivial
    | wakeReceiver m waker => exact hwait waker ht.1
    | wakeWaiter waker value => exact hwait waker ht.1
    | script commands => exact trivial
  · cases c with
    | mailbox m => exact hwait waker hk.1
    | _ => exact hwait waker hk

/-- An evaluation begins in an epoch of its own. -/
theorem Moment.inEpoch_begun (i : Interpreter) (program : Program) (stack : Stack) {w : World}
    (roots : List EnvId) (hw : w.Sound w)
    (ha : w.isAbandoned (w.scheduler.epoch + 1) = false) :
    (begun i program stack w roots).InEpoch (.main w.slots.size) (w.scheduler.epoch + 1) :=
  ⟨rfl, ha, { hw.inEpoch (w.scheduler.epoch + 1) with }, fun _ _ => trivial⟩

/-- A program that waits in vain: it is held by a variable that is not bound or a process that is
not done, and nowhere else. -/
def World.WaitsInVain (w : World) (t : Thread) : Prop :=
  (∃ v, w.places t = [.waiter v] ∧ (w.dataflow v).value = none) ∨
    ∃ p, w.places t = [.joiner p] ∧ (w.process p).state ≠ .done

/-- Where nothing is queued, the main program of an evaluation that can still be called waits for a
variable or a process. -/
theorem World.waitsInVain_of_idle {w : World} {slot : Nat} {place : Place}
    (hp : w.places (.main slot) = [place]) (hc : w.CanCall (.main slot) place)
    (hr : w.scheduler.ready = []) (ht : w.scheduler.timers = []) :
    w.WaitsInVain (.main slot) := by
  have hmem : place ∈ w.places (.main slot) := by simp [hp]
  cases place with
  | waiter v => exact .inl ⟨v, hp, hc⟩
  | joiner p => exact .inr ⟨p, hp, hc⟩
  | receiver m =>
    obtain ⟨⟨p, hmain, -⟩, -⟩ := hc
    cases hmain
  | ready => simp [places, hr, ht] at hmem
  | timer => simp [places, hr, ht] at hmem

/-- The worlds that evaluations lead to by runs, in each of which all threads are accounted for. -/
structure Settles (w : World) (is : List Interpreter) : Prop where
  reached : Leads .free .dawn ⟨w, .rest, is.map Interpreter.env⟩
  accounted : ∀ es, Run .free .dawn es ⟨w, .rest, is.map Interpreter.env⟩ → Accounted w es

theorem Settles.of_leads {w : World} {is : List Interpreter}
    (h : Leads .free .dawn ⟨w, .rest, is.map Interpreter.env⟩) : Settles w is :=
  ⟨h, fun _ hr => hr.accounted⟩

/-- The outcomes of programs are never those that say how an evaluation ended. -/
theorem World.Sound.outcome_ne_stalled {w : World} (h : w.Sound w) {slot : Nat} :
    w.outcome? slot ≠ some (.error .stalled) := by
  intro ho
  have hfits := Table.All.get_of_default (i := slot) h.outcomes (fun _ hn => by cases hn) _ ho
  cases hfits

theorem Run.givenUp_append {policy : Policy} {m : Moment} {es : List Event}
    (h : Run policy .dawn es m) (fs : List Event) :
    World.givenUp {} (es ++ fs) = World.givenUp {} es ++ m.world.givenUp fs := by
  rw [World.givenUp, effectsOf_append, World.gather_append, h.world_eq]
  rfl

/-- A thread that has not begun has not been given up. -/
theorem Run.not_mem_givenUp {w : World} {roots : List EnvId} {es : List Event}
    (h : Run .free .dawn es ⟨w, .rest, roots⟩) :
    Thread.main w.slots.size ∉ World.givenUp {} es := by
  have hnew : w.isUnfinished (.main w.slots.size) = false := by
    rw [← Bool.not_eq_true, World.isUnfinished_main_iff]
    exact fun hin => Nat.lt_irrefl _ hin.1
  have hzero := h.held_add_count (.main w.slots.size)
  rw [hnew, Bool.toNat_false] at hzero
  exact List.count_eq_zero.1 (by omega)

/-- The run that leads to a point between two turns of an evaluation does not give its main program
up. -/
theorem Evaluated.run_after {w : World} {is : List Interpreter} {i : Interpreter}
    (h : Evaluated Stack.IsFree w is) (hi : i ∈ is) (program : Program) {stack : Stack}
    (hs : stack.IsFree w) (n : Nat) :
    ∃ es, Run .free .dawn es ⟨i.after n program stack w, .rest, is.map Interpreter.env⟩ ∧
      Thread.main w.slots.size ∉ World.givenUp {} es := by
  obtain ⟨⟨es, hrun⟩, -⟩ := h.leads Stack.IsFree.sound
  have hw := h.sound Stack.IsFree.sound
  have halive := h.isAbandoned_of_lt Stack.IsFree.sound (Nat.lt_succ_self w.scheduler.epoch)
  obtain ⟨fs, hturns⟩ := (leads_after i program (is.map Interpreter.env) hw hs.1 n).1
  have hbegin := Moment.inEpoch_begun i program stack (is.map Interpreter.env) hw halive
  have hlaunch := hrun.step
    (.evaluate i.settings.strictWords program (List.mem_map_of_mem hi) hs)
  refine ⟨_, hlaunch.trans hturns.of_turns, ?_⟩
  rw [hlaunch.givenUp_append, hrun.givenUp_append, List.mem_append, List.mem_append, not_or, not_or]
  exact ⟨⟨hrun.not_mem_givenUp, List.not_mem_nil⟩, (hturns.inEpoch hbegin).2⟩

/-- The main program of an evaluation that stalls. -/
theorem Evaluated.waitsInVain {w : World} {is : List Interpreter} {i : Interpreter}
    (h : Evaluated Stack.IsFree w is) (hi : i ∈ is) (program : Program) {stack : Stack}
    (hs : stack.IsFree w) (ho : (i.evaluate program stack w).2 = .error .stalled) :
    (i.evaluate program stack w).1.WaitsInVain (.main w.slots.size) := by
  have hw := h.sound Stack.IsFree.sound
  obtain ⟨es, hrun, hkept⟩ := h.run_after hi program hs i.bound
  have hends := evaluate_ends i program hw hs.1 (h.leads Stack.IsFree.sound).2
  have hslots : w.slots.size + 1 ≤ (i.after i.bound program stack w).slots.size := by
    rw [← Table.size_push w.slots none]
    exact (leads_after i program [] hw hs.1 i.bound).1.grows.slots
  generalize i.evaluate program stack w = result at ho hends ⊢
  generalize i.after i.bound program stack w = v at hrun hends hslots
  cases hends with
  | delivered hout =>
    have hv := (hrun.sound (Policy.evaluations_sound Stack.IsFree.sound) Moment.sound_dawn).world
    cases ho
    exact absurd hout hv.outcome_ne_stalled
  | cutOff bound => cases ho
  | stalled hout hr ht =>
    have hu : v.isUnfinished (.main w.slots.size) = true :=
      World.isUnfinished_main_iff.2 ⟨hslots, hout⟩
    rcases (hrun.accounted (.main w.slots.size)).1 hu with ⟨place, hp, hc, -⟩ | ⟨-, hgone⟩
    · exact World.waitsInVain_of_idle (w := v) hp hc hr ht
    · exact absurd hgone hkept

/-- **No continuation is lost and none is doubled.** In the worlds that any number of evaluations
lead to, and at every point between two turns of the next one, every thread that has begun and not
ended is held in exactly one place, unless it has been given up. An evaluation that stalls has left
its main program waiting for a variable that is not bound or for a process that is not done. -/
theorem one_continuation {w : World} {is : List Interpreter} (h : Evaluated Stack.IsFree w is) :
    Settles w is ∧ ∀ i ∈ is, ∀ (program : Program) (stack : Stack), stack.IsFree w →
      (∀ n, Settles (i.after n program stack w) is) ∧
        ((i.evaluate program stack w).2 = .error .stalled →
          (i.evaluate program stack w).1.WaitsInVain (.main w.slots.size)) := by
  have hw := h.sound Stack.IsFree.sound
  have hl := (h.leads Stack.IsFree.sound).1
  refine ⟨.of_leads hl, fun i hi program stack hs => ⟨fun n => ?_, h.waitsInVain hi program hs⟩⟩
  exact .of_leads (hl.trans (leads_during program hw hs.1 hs (List.mem_map_of_mem hi) n))

/-- A program that waits for a variable which nobody binds. -/
theorem one_continuation_await :
    ∃ (w : World) (i : Interpreter), Evaluated Stack.IsFree w [i] ∧ Settles w [i] ∧
      (i.evaluate [.symbol "v", .word "dfvar", .word "await"] .empty w).2 = .error .stalled ∧
      (i.evaluate [.symbol "v", .word "dfvar", .word "await"] .empty w).1.WaitsInVain
        (.main w.slots.size) := by
  have h : Evaluated Stack.IsFree World.fresh [⟨⟨0⟩, { maxTurns := some 3 }⟩] := .fresh _
  have hstall : (Interpreter.evaluate ⟨⟨0⟩, { maxTurns := some 3 }⟩
      [.symbol "v", .word "dfvar", .word "await"] .empty World.fresh).2 = .error .stalled := by cbv
  obtain ⟨hsettles, hall⟩ := one_continuation h
  exact ⟨_, _, h, hsettles, hstall,
    (hall _ (List.mem_singleton.2 rfl) _ _ (Stack.isFree_empty _)).2 hstall⟩

end Catena
