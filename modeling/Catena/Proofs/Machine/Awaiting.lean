import Catena.Proofs.Machine.Promises

/-!
# Waiting for what comes once

Whoever waits for a promise is parked in its cell until it comes, or, if it has come already, is
called at once; either way it is called through the queue. This module follows one such wait
through every run.

* A thread that waits does nothing until a turn takes the task that calls it. In that turn it goes
  on with its own stack and the value on top, and nothing else of it is left anywhere; or it is
  given up (`Next.pending`). That is one step; `Run.fate` says it for every run.
* Of two who were parked one after the other, the second is not resumed while the first still waits
  (`Run.not_overtaken`).
-/

namespace Catena

/-- A thread waits for a promise, since some epoch, with a stack and a continuation to go on with. -/
structure Await where
  thread : Thread
  promise : Promise
  epoch : Nat
  stack : Stack
  k : Continuation

namespace Await

/-- How it waits in the cell of the promise. -/
def waker (a : Await) : Waker := .resume a.epoch a.stack a.k

/-- What happens when it begins. -/
def effect (a : Await) : Effect :=
  match a.promise with
  | .dataflow v => .awaitVariable v a.stack a.k
  | .process p => .awaitProcess p a.stack a.k

/-- The tasks that end the wait with a value: that of one who was parked for a variable, and that of
any other. -/
inductive Calls (a : Await) (u : Value) : Task → Prop
  | woken : Calls a u (.wakeWaiter a.waker u)
  | resumed : Calls a u (.resume a.k (.ok (a.stack.push u)))

/-- The wait is not over: it is parked while the promise has not come, or it has been called with
what has come. -/
inductive Pending (a : Await) (w : World) : Prop
  | parked (hvalue : w.promised a.promise = none) (hwaiting : a.waker ∈ w.waiting a.promise.cell)
  | called {u : Value} {task : Task} (hvalue : w.promised a.promise = some u)
      (hcalls : a.Calls u task) (hready : task ∈ w.scheduler.ready)

/-- The step by which the wait begins. -/
structure Made (policy : Policy) (a : Await) (m m' : Moment) : Prop where
  next : Next policy m [⟨some a.thread, a.effect⟩] m'
  epoch : a.epoch = m.world.scheduler.epoch

/-- From one moment to another the thread has been waiting and has done nothing. -/
structure Waits (policy : Policy) (a : Await) (m₀ : Moment) (es : List Event) (m : Moment) :
    Prop where
  run : Run policy m₀ es m
  pending : a.Pending m.world
  silent : ∀ e ∈ es, e.thread ≠ some a.thread

/-- The turn in which the thread is resumed: it goes on with its stack and the value on top, and
there is no other task or waker of it. -/
structure Resumes (policy : Policy) (a : Await) (u : Value) (m : Moment) (es : List Event)
    (m' : Moment) : Prop where
  next : Next policy m es m'
  value : m.world.promised a.promise = some u
  turn : ∃ task rest, m.world.scheduler.ready = task :: rest ∧ a.Calls u task
  event : ∃ e rest, es = e :: rest ∧ e.thread = some a.thread
  control : m'.control = .resume a.k (.ok (a.stack.push u))
  alone : m'.world.held a.thread = 0

/-- The step in which the thread is given up: all tasks are discarded, or it is called in an epoch
that has been given up. -/
structure GivesUp (policy : Policy) (a : Await) (m : Moment) (es : List Event) (m' : Moment) :
    Prop where
  next : Next policy m es m'
  lost : a.thread ∈ m.world.gather World.lost (effectsOf es)
  reason : effectsOf es = [.discard] ∨ m.world.isAbandoned a.epoch = true

/-- What has become of a wait: it still goes on, or it was resumed once, or it was given up. -/
inductive Fate (policy : Policy) (a : Await) (m₀ : Moment) : List Event → Moment → Prop
  | waits {es : List Event} {m : Moment} (h : a.Waits policy m₀ es m) : Fate policy a m₀ es m
  | resumed {es fs gs : List Event} {m m' m'' : Moment} {u : Value} (h : a.Waits policy m₀ es m)
      (hresumes : a.Resumes policy u m fs m') (hrun : Run policy m' gs m'') :
      Fate policy a m₀ (es ++ fs ++ gs) m''
  | givenUp {es fs gs : List Event} {m m' m'' : Moment} (h : a.Waits policy m₀ es m)
      (hgives : a.GivesUp policy m fs m') (hrun : Run policy m' gs m'') :
      Fate policy a m₀ (es ++ fs ++ gs) m''

/-- The thread waits with a continuation of its own. -/
def Own (a : Await) : Prop := a.k.thread? = some a.thread

variable {a b : Await} {w : World}

theorem Calls.isOf {u : Value} {task : Task} (h : a.Calls u task) (ha : a.Own) :
    task.isOf a.thread = true := by
  cases h <;> exact decide_eq_true ha

theorem isOf_waker (ha : a.Own) : a.waker.isOf a.thread = true := decide_eq_true ha

end Await

/-! ## A thread is held once -/

namespace World

variable {w : World} {t : Thread}

theorem countP_ready_add_countWaiting_le (w : World) (t : Thread) :
    w.scheduler.ready.countP (Task.isOf t) + w.countWaiting (Waker.isOf t) ≤ w.held t := by
  simp only [held, countWaiting]
  omega

end World

theorem Moment.Balanced.held_le_one {m : Moment} {gone : List Thread} (h : m.Balanced gone)
    (t : Thread) : m.world.held t ≤ 1 := by
  have hb := h t
  have hle := (m.world.isUnfinished t).toNat_le
  omega

/-- A thread that is held is not at work, and has not been lost. -/
theorem Moment.Balanced.of_held {m : Moment} {gone : List Thread} (h : m.Balanced gone)
    {t : Thread} (ht : 1 ≤ m.world.held t) : m.control.thread? ≠ some t ∧ t ∉ gone := by
  have hb := h t
  have hle := (m.world.isUnfinished t).toNat_le
  refine ⟨fun hc => ?_, fun hg => ?_⟩
  · rw [Control.isOf_of_thread? hc, Bool.toNat_true] at hb
    omega
  · have := List.count_pos_iff.2 hg
    omega

namespace Await

variable {a b : Await} {w : World}

theorem Pending.held (h : a.Pending w) (ha : a.Own) : 1 ≤ w.held a.thread := by
  have hle := w.countP_ready_add_countWaiting_le a.thread
  cases h with
  | parked hvalue hwaiting =>
    have := World.countWaiting_pos hwaiting (isOf_waker ha)
    omega
  | called hvalue hcalls hready =>
    have := List.countP_pos_iff.2 ⟨_, hready, hcalls.isOf ha⟩
    omega

/-- A task of the thread that is next is the one that ends its wait. -/
theorem Pending.calls_of_next (h : a.Pending w) (ha : a.Own) (hheld : w.held a.thread ≤ 1)
    {task : Task} {rest : List Task} (hr : w.scheduler.ready = task :: rest)
    (ht : task.thread? = some a.thread) : ∃ u, w.promised a.promise = some u ∧ a.Calls u task := by
  have hle := w.countP_ready_add_countWaiting_le a.thread
  have hof : task.isOf a.thread = true := decide_eq_true ht
  rw [hr, List.countP_cons_of_pos hof] at hle
  cases h with
  | parked hvalue hwaiting =>
    have := World.countWaiting_pos hwaiting (isOf_waker ha)
    omega
  | @called u other hvalue hcalls hready =>
    rw [hr, List.mem_cons] at hready
    rcases hready with rfl | hrest
    · exact ⟨u, hvalue, hcalls⟩
    · have := List.countP_pos_iff.2 ⟨other, hrest, hcalls.isOf ha⟩
      omega

/-! ## Effects on a wait -/

/-- An effect that takes nothing off the queue leaves a wait pending, or the thread is given up. -/
theorem Pending.apply (h : a.Pending w) (ha : a.Own) (hd : w.Decided) {e : Effect}
    (he : e.keepsQueue = true) :
    a.Pending (w.apply e) ∨ (a.thread ∈ w.lost e ∧ w.isAbandoned a.epoch = true) := by
  cases h with
  | @called u task hvalue hcalls hready =>
    obtain ⟨tasks, htasks⟩ := w.ready_apply he
    refine .inl (.called (World.promised_apply hd hvalue e) hcalls ?_)
    rw [htasks]
    exact List.mem_append_left _ hready
  | parked hvalue hwaiting =>
    cases World.develops_apply hd a.promise e with
    | stays hsame hmore =>
      obtain ⟨more, hmore⟩ := hmore
      refine .inl (.parked (hsame.trans hvalue) ?_)
      rw [hmore]
      exact List.mem_append_left _ hwaiting
    | @comes u _ hcomes hready hlost =>
      have hmem : ∀ task ∈ w.calls u a.promise a.waker, task ∈ (w.apply e).scheduler.ready := by
        intro task ht
        rw [hready]
        exact List.mem_append_right _ (List.mem_flatMap.2 ⟨_, hwaiting, ht⟩)
      have hcall : (∃ task ∈ w.calls u a.promise a.waker, a.Calls u task) ∨
          (w.calls u a.promise a.waker = [] ∧ w.isAbandoned a.epoch = true) := by
        cases a.promise with
        | dataflow v => exact .inl ⟨_, List.mem_singleton_self _, .woken⟩
        | process p =>
          simp only [World.calls, waker, World.joined]
          split
          · exact .inr ⟨rfl, by assumption⟩
          · exact .inl ⟨_, List.mem_singleton_self _, .resumed⟩
      rcases hcall with ⟨task, ht, hcalls⟩ | ⟨hnil, hgone⟩
      · exact .inl (.called hcomes hcalls (hmem task ht))
      · exact .inr ⟨hlost _ _ _ _ hwaiting ha hnil, hgone⟩

theorem Pending.replay (h : a.Pending w) (ha : a.Own) (hd : w.Decided) {es : List Effect}
    (he : ∀ e ∈ es, e.keepsQueue = true) (hp : ∀ e ∈ es, e.keepsPhase = true) :
    a.Pending (w.replay es) ∨
      (a.thread ∈ w.gather World.lost es ∧ w.isAbandoned a.epoch = true) := by
  induction es generalizing w with
  | nil => exact .inl h
  | cons e es ih =>
    obtain ⟨he, hes⟩ := List.forall_mem_cons.1 he
    obtain ⟨hp, hps⟩ := List.forall_mem_cons.1 hp
    rcases h.apply ha hd he with h | ⟨hlost, hgone⟩
    · rcases ih h (hd.apply e) hes hps with h | ⟨hlost, hgone⟩
      · exact .inl h
      · rw [(w.samePhase_apply hp).isAbandoned] at hgone
        exact .inr ⟨List.mem_append_right _ hlost, hgone⟩
    · exact .inr ⟨List.mem_append_left _ hlost, hgone⟩

end Await

/-! ## One step -/

section Step

variable {starts : World → Stack → Prop} {a b : Await} {m m' : Moment} {es fs : List Event}

theorem Run.decided {policy : Policy} (h : Run policy .dawn es m) : m.world.Decided := by
  rw [h.world_eq]
  exact World.decided_empty.replay _

theorem Does.keepsQueue {w : World} {c c' : Control} {es : List Effect} (h : Does w c es c') :
    ∀ e ∈ es, e.keepsQueue = true := fun e he => e.keepsQueue_of_isDeed (h.isDeed e he)

/-- A turn that belongs to someone else. -/
theorem Await.Pending.turn {w : World} (h : a.Pending w) (ha : a.Own) (hd : w.Decided)
    {task : Task} {rest : List Task} {c : Control} {es : List Effect}
    (hr : w.scheduler.ready = task :: rest) (hbegins : Begins (w.apply .beginTurn) task es c)
    (ht : task.thread? ≠ some a.thread) :
    a.Pending (w.replay (.beginTurn :: es)) ∨
      (a.thread ∈ w.gather World.lost (.beginTurn :: es) ∧ w.isAbandoned a.epoch = true) := by
  have hbegun : a.Pending (w.apply .beginTurn) := by
    cases h with
    | parked hvalue hwaiting => exact .parked hvalue hwaiting
    | called hvalue hcalls hready =>
      refine .called hvalue hcalls ?_
      rw [hr, List.mem_cons] at hready
      rcases hready with rfl | hrest
      · exact absurd (of_decide_eq_true (hcalls.isOf ha)) ht
      · show _ ∈ w.scheduler.ready.tail
        rw [hr]
        exact hrest
  exact hbegun.replay ha (hd.apply _) hbegins.keepsQueue hbegins.keepsPhase

/-- The turn of the task that ends the wait. -/
theorem Await.Calls.begins {w : World} {u : Value} {task : Task} {c : Control} {es : List Effect}
    (h : a.Calls u task) (ha : a.Own) (hbegins : Begins w task es c) :
    c = .resume a.k (.ok (a.stack.push u)) ∨
      (a.thread ∈ w.gather World.lost es ∧ w.isAbandoned a.epoch = true) := by
  cases h with
  | resumed =>
    cases hbegins
    exact .inl rfl
  | woken =>
    cases hbegins with
    | wake => exact .inl rfl
    | pass hgone =>
      refine .inr ⟨?_, hgone⟩
      have hthread : (Waker.resume a.epoch a.stack a.k).thread? = some a.thread := ha
      simp [World.gather, World.lost, World.dropped, Waker.isGivenUp, hgone, hthread]

/-- **One step of a wait.** It goes on, and the thread does nothing; or the thread is resumed; or it
is given up. -/
theorem Next.pending (hst : ∀ w s, starts w s → s.Sound w)
    (hrun : Run (.evaluations starts) .dawn es m) (hn : Next (.evaluations starts) m fs m')
    (h : a.Pending m.world) (ha : a.Own) :
    (a.Pending m'.world ∧ ∀ e ∈ fs, e.thread ≠ some a.thread) ∨
      (∃ u, a.Resumes (.evaluations starts) u m fs m') ∨
      a.GivesUp (.evaluations starts) m fs m' := by
  have hbal := hrun.balanced hst
  have hidle := (hbal.of_held (h.held ha)).1
  have hbal' := (hrun.step hn).balanced hst
  have hd := hrun.decided
  have none : ∀ e : Effect, ∀ f ∈ ([⟨none, e⟩] : List Event), f.thread ≠ some a.thread := by simp
  cases hn with
  | @work w c c' roots es hdoes =>
    have hn : Next (.evaluations starts) ⟨w, c, roots⟩ _ ⟨w.replay es, c', roots⟩ := .work hdoes
    rcases h.replay ha hd hdoes.keepsQueue hdoes.keepsPhase with h | ⟨hlost, hgone⟩
    · refine .inl ⟨h, fun e he => ?_⟩
      obtain ⟨f, -, rfl⟩ := List.mem_map.1 he
      exact hidle
    · exact .inr (.inr ⟨hn, by rwa [effectsOf_map], .inr hgone⟩)
  | @turn w c roots task rest es hr hbegins =>
    have hn : Next (.evaluations starts) ⟨w, .rest, roots⟩ _ ⟨_, c, roots⟩ := .turn hr hbegins
    by_cases ht : task.thread? = some a.thread
    · obtain ⟨u, hvalue, hcalls⟩ := h.calls_of_next ha (hbal.held_le_one _) hr ht
      rcases hcalls.begins ha hbegins with rfl | ⟨hlost, hgone⟩
      · refine .inr (.inl ⟨u, hn, hvalue, ⟨task, rest, hr, hcalls⟩, ?_, rfl, ?_⟩)
        · exact ⟨⟨task.thread?, .beginTurn⟩, _, rfl, ht⟩
        · exact hbal'.held_eq_zero ha
      · refine .inr (.inr ⟨hn, ?_, .inr hgone⟩)
        rw [effectsOf_map]
        exact List.mem_append_right _ hlost
    · rcases h.turn ha hd hr hbegins ht with h | ⟨hlost, hgone⟩
      · refine .inl ⟨h, fun e he => ?_⟩
        obtain ⟨f, -, rfl⟩ := List.mem_map.1 he
        exact ht
      · exact .inr (.inr ⟨hn, by rwa [effectsOf_map], .inr hgone⟩)
  | @evaluate w roots env stack strict program henv hs =>
    rcases h.apply ha hd (e := .launch strict program) rfl with h | ⟨hlost, -⟩
    · exact .inl ⟨h, none _⟩
    · cases hlost
  | @install w roots =>
    rcases h.apply ha hd (e := .install) rfl with h | ⟨hlost, -⟩
    · exact .inl ⟨h, none _⟩
    · cases hlost
  | @outside w c roots e he =>
    rcases Policy.keepsQueue_of_allows he with hkeeps | rfl
    · rcases h.apply ha hd hkeeps with h | ⟨hlost, hgone⟩
      · exact .inl ⟨h, none _⟩
      · refine .inr (.inr ⟨.outside he, ?_, .inr hgone⟩)
        simpa [effectsOf, World.gather] using hlost
    · cases h with
      | parked hvalue hwaiting => exact .inl ⟨.parked hvalue hwaiting, none _⟩
      | called hvalue hcalls hready =>
        have hthread := of_decide_eq_true (hcalls.isOf ha)
        exact .inr (.inr ⟨.outside he, World.mem_lost_discard hready hthread, .inl rfl⟩)

/-- A thread that has been given up is held nowhere from then on. -/
theorem Await.GivesUp.held_eq_zero (hst : ∀ w s, starts w s → s.Sound w)
    (hrun : Run (.evaluations starts) .dawn es m)
    (h : a.GivesUp (.evaluations starts) m fs m') {gs : List Event} {m'' : Moment}
    (hrest : Run (.evaluations starts) m' gs m'') : m''.world.held a.thread = 0 := by
  by_contra hne
  have hbal := ((hrun.step h.next).trans hrest).balanced hst
  refine (hbal.of_held (Nat.one_le_iff_ne_zero.2 hne)).2 ?_
  rw [effectsOf_append, effectsOf_append, World.gather_append, World.gather_append]
  refine List.mem_append_left _ (List.mem_append_right _ ?_)
  have hlost := h.lost
  rw [hrun.world_eq] at hlost
  exact hlost

/-- **The fate of a wait**, through any number of steps. -/
theorem Run.fate (hst : ∀ w s, starts w s → s.Sound w) {m₀ : Moment}
    (hrun : Run (.evaluations starts) .dawn es m₀) (h : a.Pending m₀.world) (ha : a.Own)
    (hrest : Run (.evaluations starts) m₀ fs m) : a.Fate (.evaluations starts) m₀ fs m := by
  induction hrest with
  | refl => exact .waits ⟨.refl _, h, by simp⟩
  | step hbefore hn ih =>
    cases ih with
    | waits hwaits =>
      rcases hn.pending hst (hrun.trans hbefore) hwaits.pending ha with
        ⟨hpending, hsilent⟩ | ⟨u, hresumes⟩ | hgives
      · refine .waits ⟨hbefore.step hn, hpending, ?_⟩
        exact List.forall_mem_append.2 ⟨hwaits.silent, hsilent⟩
      · have := Await.Fate.resumed hwaits hresumes (.refl _)
        rwa [List.append_nil] at this
      · have := Await.Fate.givenUp hwaits hgives (.refl _)
        rwa [List.append_nil] at this
    | resumed hwaits hresumes hafter =>
      rw [List.append_assoc]
      exact .resumed hwaits hresumes (hafter.step hn)
    | givenUp hwaits hgives hafter =>
      rw [List.append_assoc]
      exact .givenUp hwaits hgives (hafter.step hn)

/-! ## The beginning of a wait -/

theorem SyncEffects.not_mem_await {env : EnvId} {s : Stack} {w : World} {es : List Effect}
    {outcome : Outcome} (h : SyncEffects env s w es outcome) : a.effect ∉ es := by
  unfold Await.effect
  cases h <;> split <;> simp

theorem AsyncEffects.eq_of_await {env : EnvId} {s : Stack} {k : Continuation} {w : World}
    (h : AsyncEffects env s k w [a.effect]) : a.k = k := by
  generalize hes : [a.effect] = es at h
  unfold Await.effect at hes
  cases h with
  | awaitVariable | awaitProcess => split at hes <;> simp_all
  | sync hd hs => split at hes <;> simp [List.singleton_eq_append_iff] at hes
  | _ => split at hes <;> simp at hes

/-- Only a control word lets its thread wait, with the continuation that it took over. -/
theorem Does.thread_of_await {w : World} {c c' : Control} (h : Does w c [a.effect] c') :
    a.k.thread? = c.thread? := by
  generalize hes : [a.effect] = es at h
  cases h with
  | takeOver hv ha =>
    rw [← hes] at ha
    rw [ha.eq_of_await]
    rfl
  | call hv hs =>
    have := hs.not_mem_await (a := a)
    simp [← hes] at this
  | fail hv hs =>
    unfold Await.effect at hes
    split at hes <;> simp [List.singleton_eq_append_iff] at hes
  | _ =>
    unfold Await.effect at hes
    split at hes <;> simp at hes

/-- What the beginning of a wait does to its promise: whoever comes too late is called at once, and
whoever comes early is parked behind the others. -/
theorem Await.begun {w : World} (hepoch : a.epoch = w.scheduler.epoch) (hsound : a.effect.Sound w) :
    (w.promised a.promise = none → (w.apply a.effect).promised a.promise = none ∧
        (w.apply a.effect).waiting a.promise.cell = w.waiting a.promise.cell ++ [a.waker]) ∧
      ∀ u, w.promised a.promise = some u → (w.apply a.effect).promised a.promise = some u ∧
        .resume a.k (.ok (a.stack.push u)) ∈ (w.apply a.effect).scheduler.ready := by
  obtain ⟨t, promise, epoch, s, k⟩ := a
  simp only at hepoch
  subst hepoch
  cases promise with
  | dataflow v =>
    refine ⟨fun hnone => ?_, fun u hu => ?_⟩
    · have hw : w.apply (.awaitVariable v s k) = _ := World.awaitVariable_of_unbound hnone s k
      have hd := w.dataflow_modifyVariable v v (·.addWaiter (.resume w.scheduler.epoch s k))
      rw [if_pos ⟨rfl, hsound.1⟩] at hd
      simp only [effect, World.promised, World.waiting, Promise.cell, hw, hd]
      exact ⟨hnone, rfl⟩
    · have hw : w.apply (.awaitVariable v s k) = _ := World.awaitVariable_of_bound hu s k
      simp only [effect, hw]
      exact ⟨hu, List.mem_append_right _ (List.mem_singleton_self _)⟩
  | process p =>
    refine ⟨fun hnone => ?_, fun u hu => ?_⟩
    · have hw : w.apply (.awaitProcess p s k) = _ := World.awaitProcess_of_none hnone s k
      have hp := w.process_modifyProcess p p (·.addNotify (.resume w.scheduler.epoch s k))
      rw [if_pos ⟨rfl, hsound.1⟩] at hp
      simp only [effect, World.promised, World.waiting, Promise.cell, hw, hp]
      exact ⟨hnone, rfl⟩
    · have hw : w.apply (.awaitProcess p s k) = _ := World.awaitProcess_of_result hu s k
      simp only [effect, hw]
      exact ⟨hu, List.mem_append_right _ (List.mem_singleton_self _)⟩

/-- The step of a wait is the work of its thread. -/
theorem Await.Made.does {policy : Policy} (h : a.Made policy m m') :
    Does m.world m.control [a.effect] m'.control ∧ m.control.thread? = some a.thread ∧
      m'.world = m.world.apply a.effect := by
  have hworld : m'.world = m.world.apply a.effect := h.next.world_eq
  have hnext := h.next
  generalize hes : [(⟨some a.thread, a.effect⟩ : Event)] = es at hnext
  cases hnext with
  | @work w c c' roots fs hdoes =>
    obtain ⟨e, he, hf⟩ := List.map_eq_singleton_iff.1 hes.symm
    obtain ⟨hthread, heffect⟩ := Event.mk.inj hf
    subst he heffect
    exact ⟨hdoes, hthread, hworld⟩
  | turn hr hbegins =>
    unfold Await.effect at hes
    split at hes <;> simp at hes
  | evaluate | install | outside => simp at hes

/-- **A wait begins pending**, parked or called, with the thread's own continuation. -/
theorem Await.Made.pending (hst : ∀ w s, starts w s → s.Sound w)
    (hrun : Run (.evaluations starts) .dawn es m) (h : a.Made (.evaluations starts) m m') :
    a.Pending m'.world ∧ a.Own := by
  obtain ⟨hdoes, hthread, hworld⟩ := h.does
  have hm := hrun.sound (Policy.evaluations_sound hst) Moment.sound_dawn
  obtain ⟨hnone, hsome⟩ := Await.begun h.epoch (hdoes.sound hm.world hm.control).1.1
  refine ⟨?_, hdoes.thread_of_await.trans hthread⟩
  rw [hworld]
  cases hvalue : m.world.promised a.promise with
  | none =>
    obtain ⟨hvalue, hwaiting⟩ := hnone hvalue
    exact .parked hvalue (by rw [hwaiting]; exact List.mem_append_right _ (List.mem_singleton_self _))
  | some u =>
    obtain ⟨hvalue, hready⟩ := hsome u hvalue
    exact .called hvalue .resumed hready

/-! ## Nobody is overtaken -/

/-- The task by which one who is parked is called. -/
def Await.call (a : Await) (u : Value) : Task :=
  match a.promise with
  | .dataflow _ => .wakeWaiter a.waker u
  | .process _ => .resume a.k (.ok (a.stack.push u))

theorem Await.calls_call (a : Await) (u : Value) : a.Calls u (a.call u) := by
  unfold call
  split
  · exact .woken
  · exact .resumed

/-- One who waits for a promise comes before another. -/
def Await.Ahead (a b : Await) (w : World) : Prop :=
  (w.promised a.promise = none ∧ [a.waker, b.waker].Sublist (w.waiting a.promise.cell)) ∨
    ∃ u, w.promised a.promise = some u ∧ [a.call u, b.call u].Sublist w.scheduler.ready

/-- One who is parked is called, or its epoch has been given up. -/
theorem Await.calls_eq (a : Await) (w : World) (u : Value) :
    w.calls u a.promise a.waker = [a.call u] ∨ w.calls u a.promise a.waker = [] := by
  unfold call
  cases a.promise with
  | dataflow v => exact .inl rfl
  | process p =>
    simp only [World.calls, waker, World.joined]
    split
    · exact .inr rfl
    · exact .inl rfl

/-- An effect that takes nothing off the queue keeps the order, or one of the two is given up. -/
theorem Await.Ahead.apply {w : World} (h : a.Ahead b w) (ha : a.Own) (hb : b.Own)
    (hsame : b.promise = a.promise) (hd : w.Decided) {e : Effect} (he : e.keepsQueue = true) :
    a.Ahead b (w.apply e) ∨ a.thread ∈ w.lost e ∨ b.thread ∈ w.lost e := by
  rcases h with ⟨hvalue, hwaiting⟩ | ⟨u, hvalue, hready⟩
  · cases World.develops_apply hd a.promise e with
    | stays hkept hmore =>
      obtain ⟨more, hmore⟩ := hmore
      refine .inl (.inl ⟨hkept.trans hvalue, ?_⟩)
      rw [hmore]
      exact hwaiting.trans (List.sublist_append_left _ _)
    | @comes u _ hcomes hready hlost =>
      have ha' : a.waker ∈ w.waiting a.promise.cell := hwaiting.subset (by simp)
      have hb' : b.waker ∈ w.waiting a.promise.cell := hwaiting.subset (by simp)
      rcases a.calls_eq w u with hca | hca
      · rcases b.calls_eq w u with hcb | hcb
        · refine .inl (.inr ⟨u, hcomes, ?_⟩)
          have hcalls := hwaiting.flatMap (w.calls u a.promise)
          rw [hsame] at hcb
          simp only [List.flatMap_cons, List.flatMap_nil, hca, hcb, List.append_nil,
            List.singleton_append] at hcalls
          rw [hready]
          exact hcalls.trans (List.sublist_append_right _ _)
        · rw [hsame] at hcb
          exact .inr (.inr (hlost _ _ _ _ hb' hb hcb))
      · exact .inr (.inl (hlost _ _ _ _ ha' ha hca))
  · obtain ⟨tasks, htasks⟩ := w.ready_apply he
    refine .inl (.inr ⟨u, World.promised_apply hd hvalue e, ?_⟩)
    rw [htasks]
    exact hready.trans (List.sublist_append_left _ _)

theorem Await.Ahead.replay {w : World} (h : a.Ahead b w) (ha : a.Own) (hb : b.Own)
    (hsame : b.promise = a.promise) (hd : w.Decided) {es : List Effect}
    (he : ∀ e ∈ es, e.keepsQueue = true) :
    a.Ahead b (w.replay es) ∨ a.thread ∈ w.gather World.lost es ∨
      b.thread ∈ w.gather World.lost es := by
  induction es generalizing w with
  | nil => exact .inl h
  | cons e es ih =>
    obtain ⟨he, hes⟩ := List.forall_mem_cons.1 he
    rcases h.apply ha hb hsame hd he with h | hlost | hlost
    · rcases ih h (hd.apply e) hes with h | hlost | hlost
      · exact .inl h
      · exact .inr (.inl (List.mem_append_right _ hlost))
      · exact .inr (.inr (List.mem_append_right _ hlost))
    · exact .inr (.inl (List.mem_append_left _ hlost))
    · exact .inr (.inr (List.mem_append_left _ hlost))

/-- **One step keeps the order** of two who still wait after it. -/
theorem Next.ahead (hst : ∀ w s, starts w s → s.Sound w)
    (hrun : Run (.evaluations starts) .dawn es m) (hn : Next (.evaluations starts) m fs m')
    (ha : a.Own) (hb : b.Own) (hsame : b.promise = a.promise) (h : a.Ahead b m.world)
    (hpa : a.Pending m'.world) (hpb : b.Pending m'.world)
    (hsilent : ∀ e ∈ fs, e.thread ≠ some a.thread) : a.Ahead b m'.world := by
  -- Neither has been lost, since both are still held.
  have hbal := (hrun.step hn).balanced hst
  have hd := hrun.decided
  have hgone : ∀ c : Await, c.Pending m'.world → c.Own →
      c.thread ∉ m.world.gather World.lost (effectsOf fs) := by
    intro c hp hc hlost
    refine (hbal.of_held (hp.held hc)).2 ?_
    rw [effectsOf_append, World.gather_append]
    rw [hrun.world_eq] at hlost
    exact List.mem_append_right _ hlost
  rw [hn.world_eq]
  have keeps : ∀ {es : List Effect}, (a.Ahead b (m.world.replay es) ∨
      a.thread ∈ m.world.gather World.lost es ∨ b.thread ∈ m.world.gather World.lost es) →
      es = effectsOf fs → a.Ahead b (m.world.replay es) := by
    rintro es (h | h | h) rfl
    · exact h
    · exact absurd h (hgone a hpa ha)
    · exact absurd h (hgone b hpb hb)
  cases hn with
  | work hdoes =>
    rw [effectsOf_map] at keeps ⊢
    exact keeps (h.replay ha hb hsame hd hdoes.keepsQueue) rfl
  | @turn w c roots task rest es hr hbegins =>
    rw [effectsOf_map] at keeps ⊢
    have hother : ∀ u, task ≠ a.call u := by
      rintro u rfl
      exact hsilent ⟨(a.call u).thread?, .beginTurn⟩ List.mem_cons_self
        (of_decide_eq_true ((a.calls_call u).isOf ha))
    have hbegun : a.Ahead b (w.apply .beginTurn) := by
      rcases h with h | ⟨u, hvalue, hready⟩
      · exact .inl h
      · refine .inr ⟨u, hvalue, ?_⟩
        show [a.call u, b.call u].Sublist w.scheduler.ready.tail
        rw [hr] at hready ⊢
        exact (List.cons_sublist_cons'.1 hready).resolve_right fun hc => hother u hc.1.symm
    exact keeps (hbegun.replay ha hb hsame (hd.apply _) hbegins.keepsQueue) rfl
  | @evaluate w roots env stack strict program henv hs =>
    exact keeps (h.replay ha hb hsame hd (List.forall_mem_singleton.2 rfl)) rfl
  | @install w roots =>
    exact keeps (h.replay ha hb hsame hd (List.forall_mem_singleton.2 rfl)) rfl
  | @outside w c roots e he =>
    rcases Policy.keepsQueue_of_allows he with hkeeps | rfl
    · exact keeps (h.replay ha hb hsame hd (List.forall_mem_singleton.2 hkeeps)) rfl
    · rcases h with h | ⟨u, hvalue, hready⟩
      · exact .inl h
      -- one who has been called would be lost with its task
      · cases hpa with
        | parked hnone _ => cases hvalue.symm.trans hnone
        | called _ _ hmem => cases hmem

/-- Those who wait one behind the other stay so, as long as both wait. -/
theorem Run.ahead (hst : ∀ w s, starts w s → s.Sound w) {m₀ : Moment}
    (hrun : Run (.evaluations starts) .dawn es m₀) (ha : a.Own) (hb : b.Own)
    (hsame : b.promise = a.promise) (h : a.Ahead b m₀.world) (hpa₀ : a.Pending m₀.world)
    (hpb₀ : b.Pending m₀.world) (hpa : a.Waits (.evaluations starts) m₀ fs m)
    (hpb : b.Waits (.evaluations starts) m₀ fs m) : a.Ahead b m.world := by
  -- Whoever still waits and has been silent has been waiting all along.
  have before : ∀ (c : Await) {fs gs : List Event} {m m' : Moment}, c.Own → c.Pending m₀.world →
      Run (.evaluations starts) m₀ fs m → Next (.evaluations starts) m gs m' →
      c.Waits (.evaluations starts) m₀ (fs ++ gs) m' → c.Waits (.evaluations starts) m₀ fs m := by
    intro c fs gs m m' hc hp hr hn hw
    have hsilent := (List.forall_mem_append.1 hw.silent).1
    cases hrun.fate hst hp hc hr with
    | waits hwaits => exact hwaits
    | resumed hwaits hresumes hafter =>
      obtain ⟨e, rest, rfl, hthread⟩ := hresumes.event
      exact absurd hthread (hsilent e (by simp))
    | givenUp hwaits hgives hafter =>
      have hzero := hgives.held_eq_zero hst (hrun.trans hwaits.run) (hafter.step hn)
      have hpos := hw.pending.held hc
      omega
  obtain ⟨hr, hpa, hsa⟩ := hpa
  obtain ⟨-, hpb, hsb⟩ := hpb
  induction hr with
  | refl => exact h
  | step hr hn ih =>
    have hwa := before a ha hpa₀ hr hn ⟨hr.step hn, hpa, hsa⟩
    have hwb := before b hb hpb₀ hr hn ⟨hr.step hn, hpb, hsb⟩
    exact hn.ahead hst (hrun.trans hr) ha hb hsame (ih hwa.pending hwa.silent hwb.pending hwb.silent)
      hpa hpb (List.forall_mem_append.1 hsa).2

/-- **Nobody is overtaken.** Of two who were parked one after the other, the second is not resumed
while the first still waits. -/
theorem Run.not_overtaken (hst : ∀ w s, starts w s → s.Sound w) {m₁ m₂ m₃ m₄ m₅ m₆ : Moment}
    {es₀ es₁ es₂ fs : List Event} {u : Value} (hrun : Run (.evaluations starts) .dawn es₀ m₁)
    (ha : a.Made (.evaluations starts) m₁ m₂) (hwa : a.Waits (.evaluations starts) m₂ es₁ m₃)
    (hb : b.Made (.evaluations starts) m₃ m₄) (hsame : b.promise = a.promise)
    (hnone : m₃.world.promised a.promise = none) (hwb : b.Waits (.evaluations starts) m₄ es₂ m₅)
    (hresumes : b.Resumes (.evaluations starts) u m₅ fs m₆) :
    ¬a.Waits (.evaluations starts) m₂ (es₁ ++ [⟨some b.thread, b.effect⟩] ++ es₂) m₅ := by
  intro hwaits
  have hrun₃ := (hrun.step ha.next).trans hwa.run
  have hrun₄ := hrun₃.step hb.next
  have hown := (ha.pending hst hrun).2
  obtain ⟨hpb, hown'⟩ := hb.pending hst hrun₃
  obtain ⟨hdoes, -, hworld⟩ := hb.does
  have hm := hrun₃.sound (Policy.evaluations_sound hst) Moment.sound_dawn
  obtain ⟨hvalue, hwaiting⟩ :=
    (Await.begun hb.epoch (hdoes.sound hm.world hm.control).1.1).1 (hsame ▸ hnone)
  rw [← hworld, hsame] at hvalue hwaiting
  -- When the second begins to wait, the first is parked before it.
  have hmem : a.waker ∈ m₃.world.waiting a.promise.cell := by
    cases hwa.pending with
    | parked _ hmem => exact hmem
    | called hcalled _ _ => cases hnone.symm.trans hcalled
  have hahead : a.Ahead b m₄.world := by
    refine .inl ⟨hvalue, ?_⟩
    rw [hwaiting]
    exact (List.singleton_sublist.2 hmem).append (List.Sublist.refl [b.waker])
  have hpa : a.Pending m₄.world :=
    .parked hvalue (by rw [hwaiting]; exact List.mem_append_left _ hmem)
  have hwaits₄ : a.Waits (.evaluations starts) m₄ es₂ m₅ :=
    ⟨hwb.run, hwaits.pending, (List.forall_mem_append.1 hwaits.silent).2⟩
  have hfive := hrun₄.ahead hst hown hown' hsame hahead hpa hpb hwaits₄ hwb
  -- The next task would be of the second, and so would one behind it.
  obtain ⟨task, rest, hr, hcalls⟩ := hresumes.turn
  have hheld := ((hrun₄.trans hwb.run).balanced hst).held_le_one b.thread
  have hle := m₅.world.countP_ready_add_countWaiting_le b.thread
  rw [hr, List.countP_cons_of_pos (hcalls.isOf hown')] at hle
  rcases hfive with ⟨hnone, -⟩ | ⟨v, -, hready⟩
  · rw [← hsame, hresumes.value] at hnone
    cases hnone
  · rw [hr] at hready
    have hbehind : b.call v ∈ rest := by
      rcases List.cons_sublist_cons'.1 hready with h | ⟨-, h⟩
      · exact h.subset (by simp)
      · exact h.subset (by simp)
    have := List.countP_pos_iff.2 ⟨_, hbehind, (b.calls_call v).isOf hown'⟩
    omega

end Step

/-! ## Between evaluations -/

section Idle

variable {starts : World → Stack → Prop}

/-- However an evaluation ends, nothing is left in the queue. -/
theorem evaluate_idle (i : Interpreter) (program : Program) {stack : Stack} {w : World}
    (h : w.Sound w) (hs : stack.Sound w) (hd : w.scheduler.dispatching = false) :
    (i.evaluate program stack w).1.scheduler.ready = [] := by
  have hrest : (i.begin program stack w).scheduler.dispatching = false :=
    (leads_begin i program [] stack w).2.dispatching.trans hd
  have ht := turnsTaken_after i program [] h hs i.bound
  rw [i.evaluate_eq]
  generalize hv : World.takeTurns i.bound 0 (i.begin program stack w) = result at ht
  obtain ⟨v, taken, idle⟩ := result
  rw [World.drain_of_takeTurns hrest hv]
  cases idle with
  | false => rfl
  | true =>
    simp only [if_true]
    cases v.outcome? w.slots.size with
    | some outcome => exact (ht.idle rfl).1
    | none => exact (ht.idle rfl).1

theorem Evaluated.idle (hst : ∀ w s, starts w s → s.Sound w) {w : World} {is : List Interpreter}
    (h : Evaluated starts w is) : w.scheduler.ready = [] := by
  induction h with
  | nothing => rfl
  | @new w is settings h ih => exact w.sameCells_newBuiltinRoot.ready.trans ih
  | @eval w is i source stack h hi hs ih =>
    unfold Interpreter.eval
    cases Program.read source with
    | error e => exact ih
    | ok program => exact evaluate_idle i program (h.sound hst) (hst w stack hs) (h.leads hst).2
  | pass elapsed lapses h ih => exact ih

end Idle

/-! ## Everyone is served once -/

/-- A wait that goes on for something that has come has its task in the queue. -/
theorem Await.Pending.queued {a : Await} {w : World} {u : Value} (h : a.Pending w)
    (hvalue : w.promised a.promise = some u) : ∃ task ∈ w.scheduler.ready, a.Calls u task := by
  cases h with
  | parked hnone _ => cases hnone.symm.trans hvalue
  | @called u' task hvalue' hcalls hready =>
    cases hvalue'.symm.trans hvalue
    exact ⟨task, hready, hcalls⟩

/-- The turn in which a wait is resumed is the first thing that its thread does. So there is only one
in what has happened. -/
theorem Await.Resumes.unique {policy : Policy} {a : Await} {m₀ m m' n n' : Moment}
    {es fs gs es' fs' gs' : List Event} {u u' : Value} (hwaits : a.Waits policy m₀ es m)
    (h : a.Resumes policy u m fs m') (hwaits' : a.Waits policy m₀ es' n)
    (h' : a.Resumes policy u' n fs' n') (hsame : es ++ fs ++ gs = es' ++ fs' ++ gs') : es = es' := by
  obtain ⟨e, rest, rfl, he⟩ := h.event
  obtain ⟨e', rest', rfl, he'⟩ := h'.event
  simp only [List.append_assoc, List.cons_append] at hsame
  rcases List.append_eq_append_iff.1 hsame with ⟨l, rfl, hl⟩ | ⟨l, rfl, hl⟩
  · cases l with
    | nil => exact (List.append_nil es).symm
    | cons f l =>
      obtain ⟨rfl, -⟩ := List.cons.inj hl
      exact absurd he (hwaits'.silent e (by simp))
  · cases l with
    | nil => exact List.append_nil es'
    | cons f l =>
      obtain ⟨rfl, -⟩ := List.cons.inj hl
      exact absurd he' (hwaits.silent e' (by simp))

/-- How those who wait for a promise are served, in every run of any number of evaluations. -/
structure Serves (starts : World → Stack → Prop) (x : Promise) : Prop where
  /-- What has come stays. -/
  constant : ∀ {es m fs m' u}, Run (.evaluations starts) .dawn es m →
    Run (.evaluations starts) m fs m' → m.world.promised x = some u →
      m'.world.promised x = some u
  /-- Every wait goes on, or was resumed with what has come, or was given up. -/
  fate : ∀ {es m m' fs m''} {a : Await}, a.promise = x → Run (.evaluations starts) .dawn es m →
    a.Made (.evaluations starts) m m' → Run (.evaluations starts) m' fs m'' →
      a.Fate (.evaluations starts) m' fs m''
  /-- No wait is resumed twice. -/
  once : ∀ {m₀ m m' n n' es fs gs es' fs' gs' u u'} {a : Await}, a.promise = x →
    a.Waits (.evaluations starts) m₀ es m → a.Resumes (.evaluations starts) u m fs m' →
    a.Waits (.evaluations starts) m₀ es' n → a.Resumes (.evaluations starts) u' n fs' n' →
      es ++ fs ++ gs = es' ++ fs' ++ gs' → es = es'
  /-- A wait that goes on for something that has come has its task in the queue. -/
  queued : ∀ {m es m' u} {a : Await}, a.promise = x → a.Waits (.evaluations starts) m es m' →
    m'.world.promised x = some u → ∃ task ∈ m'.world.scheduler.ready, a.Calls u task
  /-- When an evaluation has ended, waits go on only for what has not come. -/
  settled : ∀ {w is} {a : Await}, a.promise = x → Evaluated starts w is → a.Pending w →
    w.promised x = none
  /-- Of two who were parked one after the other, the second is not resumed while the first waits. -/
  order : ∀ {m₁ m₂ m₃ m₄ m₅ m₆ es₀ es₁ es₂ fs u} {a b : Await}, a.promise = x → b.promise = x →
    Run (.evaluations starts) .dawn es₀ m₁ → a.Made (.evaluations starts) m₁ m₂ →
    a.Waits (.evaluations starts) m₂ es₁ m₃ → m₃.world.promised x = none →
    b.Made (.evaluations starts) m₃ m₄ → b.Waits (.evaluations starts) m₄ es₂ m₅ →
    b.Resumes (.evaluations starts) u m₅ fs m₆ →
      ¬a.Waits (.evaluations starts) m₂ (es₁ ++ [⟨some b.thread, b.effect⟩] ++ es₂) m₅

/-- **Whoever waits for a promise is served once and in order.** -/
theorem serves {starts : World → Stack → Prop} (hst : ∀ w s, starts w s → s.Sound w)
    (x : Promise) : Serves starts x where
  constant hrun hrest hvalue := by
    rw [hrest.world_eq]
    exact World.promised_replay hrun.decided hvalue _
  fate ha hrun hmade hrest := by
    obtain ⟨hpending, hown⟩ := hmade.pending hst hrun
    exact (hrun.step hmade.next).fate hst hpending hown hrest
  once _ hwaits hresumes hwaits' hresumes' hsame :=
    hresumes.unique hwaits hwaits' hresumes' hsame
  queued := by
    rintro m es m' u a rfl hwaits hvalue
    exact hwaits.pending.queued hvalue
  settled := by
    rintro w is a rfl hw hpending
    by_contra hsome
    obtain ⟨u, hvalue⟩ := Option.ne_none_iff_exists'.1 hsome
    obtain ⟨task, hmem, -⟩ := hpending.queued hvalue
    rw [hw.idle hst] at hmem
    cases hmem
  order := by
    rintro m₁ m₂ m₃ m₄ m₅ m₆ es₀ es₁ es₂ fs u a b rfl hsame hrun ha hwa hnone hb hwb hresumes
    exact hrun.not_overtaken hst ha hwa hb hsame hnone hwb hresumes

end Catena
