import Catena.Proofs.Machine.Awaiting
import Catena.Proofs.Machine.Course

/-!
# What a thread goes on with

A thread that has not ended goes on with one continuation, which is at work, in a task or with a
waker. A custody says what that continuation may look like in each of these places. What others do
cannot break it (`Custody.Keeps.other`); and when the thread itself takes a step, all that there is
of it afterwards is what this step leaves behind (`Custody.of_held`), so that one only has to look at
what the step does.

The simplest custody is that of a single task (`Custody.only`): the thread goes on when this task has
its turn, and not before (`Moment.Queued.step`).
-/

namespace Catena

/-- What the continuation of a thread may look like: at work, in a task, and with a waker. -/
structure Custody where
  control : Control → Prop
  task : Task → Prop
  waker : Waker → Prop
  wakes : ∀ {waker' : Waker}, waker waker' → ∀ value, task (.wakeWaiter waker' value)
  receives : ∀ {waker' : Waker}, waker waker' → ∀ m, task (.wakeReceiver m waker')
  resumes : ∀ {epoch : Nat} {s : Stack} {k : Continuation}, waker (.resume epoch s k) →
    ∀ outcome, task (.resume k outcome)

namespace Custody

variable (g : Custody) (t : Thread)

/-- A task is not of the thread, or is as it may be. -/
def LetsTask (task : Task) : Prop := task.thread? = some t → g.task task

/-- A waker is not of the thread, or is as it may be. -/
def LetsWaker (waker : Waker) : Prop := waker.thread? = some t → g.waker waker

/-- All tasks and wakers are as they may be. -/
def Holds (w : World) : Prop := Holders (fun _ _ => True) (g.LetsTask t) (fun _ => g.LetsWaker t) w

/-- What an effect is given of the thread is as it may be. -/
def Feeds : Effect → Prop
  | .later task | .schedule _ task => g.LetsTask t task
  | .awaitVariable _ _ k | .awaitProcess _ _ k | .receive _ k =>
    k.thread? = some t → ∀ epoch s, g.waker (.resume epoch s k)
  | .wakeReceiver _ waker => g.LetsWaker t waker
  | _ => True

/-- The thread exists, and its continuation is as it may be. -/
structure Keeps (m : Moment) : Prop where
  present : t.Exists m.world
  cells : g.Holds t m.world
  control : m.control.thread? = some t → g.control m.control

variable {g t} {w : World} {e : Effect} {es : List Effect}

theorem passes : Passes (fun _ _ => True) (g.LetsTask t) (fun _ => g.LetsWaker t) w where
  waiter hk value _ := fun ht => g.wakes (hk ht) value
  joiner _ hk _ _ := fun ht => g.resumes (hk ht) _
  receiver hk := fun ht => g.receives (hk ht) _

/-- A process that is made is not a thread that exists. -/
theorem Feeds.brings (he : g.Feeds t e) (ht : t.Exists w) :
    e.Brings (fun _ _ => True) (g.LetsTask t) (fun _ => g.LetsWaker t) w := by
  cases e with
  | later | schedule | wakeReceiver => exact he
  | spawn captured block parent =>
    intro hnew
    cases hnew
    exact absurd ht (Nat.lt_irrefl _)
  | awaitVariable v s k =>
    exact ⟨fun _ _ hk => g.resumes (he hk w.scheduler.epoch s) _, fun hk => he hk _ _⟩
  | awaitProcess p s k =>
    exact ⟨fun _ _ hk => g.resumes (he hk w.scheduler.epoch s) _, fun hk => he hk _ _⟩
  | receive s k =>
    have hresume : ∀ outcome, g.LetsTask t (.resume k outcome) :=
      fun _ hk => g.resumes (he hk w.scheduler.epoch s) _
    exact ⟨fun _ _ _ _ => hresume _, fun _ _ => hresume _, fun _ _ hk => he hk _ _⟩
  | _ => exact trivial

theorem feeds_of_given (he : e.given t = 0) : g.Feeds t e := by
  have hno : ∀ {o : Option Thread}, (decide (o = some t)).toNat = 0 → o ≠ some t := by
    intro o h hne
    simp [hne] at h
  cases e with
  | later | schedule | wakeReceiver => exact fun ht => absurd ht (hno he)
  | awaitVariable | awaitProcess | receive => exact fun ht => absurd ht (hno he)
  | _ => exact trivial

theorem feeds_of_isStill (h : ∀ e ∈ es, e.isStill = true) : ∀ e ∈ es, g.Feeds t e :=
  fun e he => feeds_of_given ((Effect.still (h e he)).1 t)

/-- **What is fed as it may be is held as it may be.** -/
theorem Holds.replay (h : g.Holds t w) (ht : t.Exists w) (he : ∀ e ∈ es, g.Feeds t e) :
    g.Holds t (w.replay es) := by
  induction es generalizing w with
  | nil => exact h
  | cons e es ih =>
    obtain ⟨hfirst, hrest⟩ := List.forall_mem_cons.1 he
    exact ih (h.apply passes (hfirst.brings ht)) (ht.mono (w.grows_apply e)) hrest

/-- A thread that is not held anywhere is held as it may be. -/
theorem of_held (h : w.held t = 0) : g.Holds t w :=
  (World.holders_of_held_eq_zero h).imp (fun _ _ hv => hv) (fun _ hne ht => absurd ht hne)
    fun _ _ hne ht => absurd ht hne

end Custody

/-! ## Whose step it is -/

section Steps

variable {w : World} {t : Thread} {es : List Effect}

/-- A thread at work exists. -/
theorem Control.Sound.exists_of_thread? {c : Control} (h : c.Sound w) (ht : c.thread? = some t) :
    t.Exists w := by
  have of_continuation : ∀ {k : Continuation}, k.Sound w → k.thread? = some t → t.Exists w := by
    rintro k ⟨u, hu, hexists⟩ hk
    cases hu.symm.trans hk
    exact hexists
  cases c with
  | rest => cases ht
  | run env code s k => exact of_continuation h.2 ht
  | resume k outcome => exact of_continuation h.1 ht

theorem World.given_eq_zero_iff : w.given t es = 0 ↔ ∀ e ∈ es, e.given t = 0 := by
  induction es generalizing w with
  | nil => simp [World.given, World.tally]
  | cons e es ih =>
    have hstep : w.given t (e :: es) = e.given t + (w.apply e).given t es := rfl
    rw [hstep, Nat.add_eq_zero_iff, ih, List.forall_mem_cons]

/-- The work of others gives nothing of a thread away, and does not become its own. -/
theorem Does.given_eq_zero {c c' : Control} (h : Does w c es c') (hw : w.Sound w)
    (ht : c.thread? ≠ some t) : (∀ e ∈ es, e.given t = 0) ∧ c'.thread? ≠ some t := by
  have hc : (c.isOf t).toNat = 0 := by simp [Control.isOf, ht]
  rcases h.ends with he | ⟨e, u, rfl, rfl, -, -, hacc⟩
  · obtain ⟨hgiven, -⟩ := h.account hw he t
    rw [hc, Nat.add_eq_zero_iff] at hgiven
    refine ⟨World.given_eq_zero_iff.1 hgiven.1, fun hc' => ?_⟩
    rw [Control.isOf_of_thread? hc'] at hgiven
    cases hgiven.2
  · refine ⟨List.forall_mem_singleton.2 ((hacc t).1.trans hc), ?_⟩
    rintro ⟨⟩

theorem Begins.thread? {task : Task} {c : Control} (h : Begins w task es c) :
    c.thread? = task.thread? ∨ c = .rest := by
  cases h with
  | refuse | pass => exact .inr rfl
  | _ => exact .inl rfl

theorem Begins.feeds {g : Custody} {task : Task} {c : Control} (h : Begins w task es c)
    (ht : g.LetsTask t task) (hw : ∀ m waker, task = .wakeReceiver m waker → g.LetsWaker t waker) :
    ∀ e ∈ es, g.Feeds t e := by
  cases h with
  | receive | refuse => exact List.forall_mem_singleton.2 (hw _ _ rfl)
  | resume => simp
  | _ => exact List.forall_mem_singleton.2 trivial

end Steps

/-- The turn of a task begins. -/
inductive Moment.Turns (task : Task) : Moment → List Event → Moment → Prop
  | begins {w : World} {c : Control} {roots : List EnvId} {rest : List Task} {es : List Effect}
      (hr : w.scheduler.ready = task :: rest) (h : Begins (w.apply .beginTurn) task es c) :
      Turns task ⟨w, .rest, roots⟩ ((.beginTurn :: es).map (⟨task.thread?, ·⟩))
        ⟨w.replay (.beginTurn :: es), c, roots⟩

section Turns

variable {m m' : Moment} {es : List Event} {task : Task}

theorem Moment.Turns.mem_ready (h : m.Turns task es m') :
    task ∈ m.world.scheduler.ready := by
  cases h with
  | begins hr => rw [hr]; exact List.mem_cons_self ..

theorem Moment.Turns.mem_events (h : m.Turns task es m') :
    ⟨task.thread?, .beginTurn⟩ ∈ es := by
  cases h with
  | begins => exact List.mem_cons_self ..

theorem Moment.Turns.control (h : m.Turns task es m') : m.control = .rest := by
  cases h with
  | begins => rfl

end Turns

/-- A step that does not belong to a thread. -/
structure Moment.Passes (t : Thread) (m : Moment) (es : List Event) : Prop where
  control : m.control.thread? ≠ some t
  events : ∀ e ∈ es, e.thread ≠ some t

/-- A step belongs to others, or the thread is at work, or its turn begins. -/
inductive Moment.Takes (t : Thread) : Moment → List Event → Moment → Prop
  | other {m m' : Moment} {es : List Event} (h : m.Steps es m') (hp : m.Passes t es) : Takes t m es m'
  | work {w : World} {c c' : Control} {roots : List EnvId} {es : List Effect}
      (ht : c.thread? = some t) (h : Does w c es c')
      (hexact : w.advance c.focus = (w.replay es, c'.focus)) :
      Takes t ⟨w, c, roots⟩ (es.map (⟨c.thread?, ·⟩)) ⟨w.replay es, c', roots⟩
  | turn {m m' : Moment} {es : List Event} {task : Task} (ht : task.thread? = some t)
      (h : m.Turns task es m') : Takes t m es m'

theorem Moment.Steps.takes {m m' : Moment} {es : List Event} (h : m.Steps es m') (t : Thread) :
    m.Takes t es m' := by
  have hsteps := h
  have others : ∀ {u : Option Thread} {es : List Effect}, u ≠ some t →
      ∀ e ∈ es.map (fun f => Event.mk u f), e.thread ≠ some t := by
    intro u es hu e he
    obtain ⟨f, -, rfl⟩ := List.mem_map.1 he
    exact hu
  cases h with
  | @work w c c' roots es hd hexact =>
    by_cases ht : c.thread? = some t
    · exact .work ht hd hexact
    · exact .other hsteps ⟨ht, others ht⟩
  | between hr hn =>
    cases hn with
    | work hd => cases hr; cases hd
    | @turn w c roots task rest es hready hb =>
      by_cases ht : task.thread? = some t
      · exact .turn ht (.begins hready hb)
      · exact .other hsteps ⟨nofun, others ht⟩
    | evaluate | install => exact .other hsteps ⟨nofun, by simp⟩
    | outside he =>
      refine .other hsteps ⟨?_, by simp⟩
      rw [hr]
      nofun

/-- What others do, and a turn of the thread that begins, once its task is off the queue. -/
theorem Custody.Keeps.other {g : Custody} {t : Thread} {m m' : Moment} {es : List Event}
    (h : g.Keeps t m) (hs : m.Steps es m') (hm : m.Sound) (hp : m.Passes t es) :
    g.Keeps t m' ∧ m'.control.thread? ≠ some t := by
  suffices key : (∀ e ∈ effectsOf es, g.Feeds t e) ∧ m'.control.thread? ≠ some t by
    refine ⟨⟨?_, ?_, fun hc => absurd hc key.2⟩, key.2⟩
    · rw [hs.next.world_eq]
      exact h.present.mono (m.world.grows_replay _)
    · rw [hs.next.world_eq]
      exact h.cells.replay h.present key.1
  have hn := hs.next
  cases hn with
  | work hd =>
    rw [effectsOf_map]
    obtain ⟨hgiven, hc'⟩ := hd.given_eq_zero hm.world hp.control
    exact ⟨fun e he => feeds_of_given (hgiven e he), hc'⟩
  | @turn w c roots task rest es hr hb =>
    rw [effectsOf_map]
    have ht : task.thread? ≠ some t := hp.events ⟨task.thread?, .beginTurn⟩ (List.mem_cons_self ..)
    refine ⟨List.forall_mem_cons.2 ⟨trivial, hb.feeds (fun hk => absurd hk ht) ?_⟩, ?_⟩
    · rintro m waker rfl hk
      exact absurd hk ht
    · rcases hb.thread? with hc | rfl
      · exact hc ▸ ht
      · nofun
  | @evaluate w roots env stack strict program henv hst =>
    refine ⟨List.forall_mem_singleton.2 trivial, fun hc => ?_⟩
    cases hc
    exact absurd h.present (Nat.lt_irrefl _)
  | install => exact ⟨List.forall_mem_singleton.2 trivial, nofun⟩
  | outside he =>
    exact ⟨List.forall_mem_singleton.2
      (feeds_of_given ((Effect.still (Policy.isStill_of_allows he)).1 t)), hp.control⟩

/-! ## A single task -/

/-- Everything there is of a thread is one task. -/
def Custody.only (task : Task) : Custody where
  control _ := False
  task := (· = task)
  waker _ := False
  wakes h := h.elim
  receives h := h.elim
  resumes h := h.elim

/-- All tasks have been discarded in the course of some steps. -/
def Discards (ts : List Transition) : Prop := ∃ x ∈ ts, .discard ∈ effectsOf x.events

/-- Everything there is of a thread is a task, which waits for its turn, unless it has been
discarded. -/
structure Moment.Queued (t : Thread) (task : Task) (ts : List Transition) (m : Moment) : Prop where
  keeps : (Custody.only task).Keeps t m
  ready : task ∈ m.world.scheduler.ready ∨ Discards ts

theorem Discards.append {ts : List Transition} (h : Discards ts) (us : List Transition) :
    Discards (ts ++ us) := by
  obtain ⟨x, hx, hd⟩ := h
  exact ⟨x, List.mem_append_left _ hx, hd⟩

/-- A task that waits for its turn still does so after a step that does not take it. -/
theorem Next.mem_ready {m m' : Moment} {es : List Event} {task : Task} (h : Next .sound m es m')
    (ht : task ∈ m.world.scheduler.ready)
    (hother : ∀ e ∈ es, e.thread ≠ task.thread?) (hdrop : .discard ∉ effectsOf es) :
    task ∈ m'.world.scheduler.ready := by
  have keeps : ∀ (w : World) (es : List Effect), (∀ e ∈ es, e.keepsQueue = true) →
      task ∈ w.scheduler.ready → task ∈ (w.replay es).scheduler.ready := by
    intro w es hes hw
    refine World.replay_induct (I := fun v => task ∈ v.scheduler.ready) hw fun v e he hv => ?_
    obtain ⟨tasks, happly⟩ := v.ready_apply (hes e he)
    exact happly ▸ List.mem_append_left _ hv
  cases h with
  | work hd => exact keeps _ _ hd.keepsQueue ht
  | @turn w c roots first rest es hr hb =>
    refine keeps (w.apply .beginTurn) es hb.keepsQueue ?_
    show task ∈ w.scheduler.ready.tail
    rw [hr] at ht ⊢
    refine (List.mem_cons.1 ht).resolve_left fun heq => ?_
    exact hother ⟨first.thread?, .beginTurn⟩ (List.mem_cons_self ..) (heq ▸ rfl)
  | evaluate strict program => exact keeps _ [.launch strict program] (by simp [Effect.keepsQueue]) ht
  | install => exact keeps _ [.install] (by simp [Effect.keepsQueue]) ht
  | outside he =>
    rcases Policy.keepsQueue_of_allows he with hk | rfl
    · exact keeps _ [_] (List.forall_mem_singleton.2 hk) ht
    · exact absurd (List.mem_singleton.2 rfl) hdrop

/-- A thread whose turn begins is not held anywhere any more. -/
theorem Moment.Balanced.held_beginTurn {w : World} {c : Control} {roots : List EnvId}
    {gone : List Thread} (h : Balanced ⟨w, c, roots⟩ gone) {task : Task} {rest : List Task}
    (hr : w.scheduler.ready = task :: rest) {t : Thread} (ht : task.thread? = some t) :
    (w.apply .beginTurn).held t = 0 := by
  have hheld := World.held_beginTurn (w := w) t
  have hle := h.held_le_one t
  have hone : w.scheduler.ready.head?.toList.countP (Task.isOf t) = 1 := by
    simp [hr, Task.isOf, ht]
  dsimp only at hle
  omega

/-- **A thread whose task is queued does nothing before the turn of this task.** When this turn
begins, the thread is not held anywhere any more. -/
theorem Moment.Queued.step {t : Thread} {task : Task} {ts : List Transition} {m m' : Moment}
    {es : List Event} (h : m.Queued t task ts) (ht : task.thread? = some t) (hs : m.Steps es m')
    (hm : Leads .sound .dawn m) :
    m'.Queued t task (ts ++ [⟨m, es, m'⟩]) ∧ m.Passes t es ∧ m'.control.thread? ≠ some t ∨
      m.Turns task es m' ∧ (m.world.apply .beginTurn).held t = 0 := by
  obtain ⟨fs, hrun⟩ := hm
  have hsound := hrun.sound Policy.sound_sound Moment.sound_dawn
  have hbal := hrun.balanced fun _ _ hs => hs
  cases hs.takes t with
  | other _ hp =>
    obtain ⟨hkeeps, hc⟩ := h.keeps.other hs hsound hp
    refine .inl ⟨⟨hkeeps, ?_⟩, hp, hc⟩
    by_cases hdrop : .discard ∈ effectsOf es
    · exact .inr ⟨_, List.mem_append_right _ (List.mem_singleton.2 rfl), hdrop⟩
    · exact h.ready.imp (fun hready => hs.next.mem_ready hready (fun e he => ht ▸ hp.events e he) hdrop)
        fun hd => hd.append _
  | work hc => exact (h.keeps.control hc).elim
  | @turn _ _ _ first hfirst hturn =>
    have hturn' := hturn
    cases hturn with
    | @begins w c roots rest es hr hb =>
      have hmem : first ∈ w.scheduler.ready := by rw [hr]; exact List.mem_cons_self ..
      cases h.keeps.cells.ready first hmem hfirst
      exact .inr ⟨hturn', hbal.held_beginTurn hr ht⟩

/-- A task that has just been made is queued, and it is all there is of its thread. -/
theorem Moment.Queued.of_later {w : World} {t : Thread} {task : Task} {es : List Effect}
    (hheld : w.held t = 0) (ht : t.Exists w) (hes : ∀ e ∈ es, e.given t = 0)
    (roots : List EnvId) (ts : List Transition) :
    Moment.Queued t task ts ⟨(w.replay es).later task, .rest, roots⟩ := by
  have hworld : (w.replay es).later task = w.replay (es ++ [.later task]) := by
    rw [World.replay_append]
    rfl
  refine ⟨⟨?_, ?_, nofun⟩, .inl ?_⟩
  · exact hworld ▸ ht.mono (w.grows_replay _)
  · refine hworld ▸ (Custody.of_held hheld).replay ht (List.forall_mem_append.2 ⟨?_, ?_⟩)
    · exact fun e he => Custody.feeds_of_given (hes e he)
    · exact List.forall_mem_singleton.2 fun _ => rfl
  · exact List.mem_append_right _ (List.mem_singleton.2 rfl)

/-- A block that has just been scheduled is queued, and it is all there is of its thread. -/
theorem Moment.Queued.of_activate {w : World} {t : Thread} (hheld : w.held t = 0)
    (ht : t.Exists w) (env : EnvId) (block : Block) (own : Option (Name × Value)) (exit : Exit)
    (s : Stack) (k : Continuation) (roots : List EnvId) (ts : List Transition) :
    Moment.Queued t (.activate (w.instantiate env block).2 own block exit s k) ts
      ⟨w.activate env block own exit s k, .rest, roots⟩ := by
  have hq : Moment.Queued t (.activate (w.instantiate env block).2 own block exit s k) ts
      ⟨(w.replay [.snapshot env block]).later
        (.activate (w.instantiate env block).2 own block exit s k), .rest, roots⟩ :=
    .of_later hheld ht (List.forall_mem_singleton.2 rfl) roots ts
  exact hq

/-- Code is run for a thread that is not held anywhere. -/
theorem Run.exists_thread {es : List Event} {m : Moment} (h : Run .sound .dawn es m) {env : EnvId}
    {code : Code} {s : Stack} {k : Continuation} (hc : m.control = .run env code s k) :
    ∃ t, k.thread? = some t ∧ t.Exists m.world ∧ m.world.held t = 0 := by
  have hcontrol := (h.sound Policy.sound_sound Moment.sound_dawn).control
  rw [hc] at hcontrol
  obtain ⟨-, t, ht, hexists⟩ := hcontrol
  exact ⟨t, ht, hexists,
    (h.balanced fun _ _ hs => hs).held_eq_zero (by rw [hc]; exact ht)⟩

end Catena
