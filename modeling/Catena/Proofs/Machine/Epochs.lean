import Catena.Proofs.Machine.Places

/-!
# Evaluations that are given up

When an evaluation stalls or is cut off, its epoch is given up, and with it every continuation that
it left waiting in a cell. Since a thread is held in one place at most, nothing else of such a
thread is left, so it never works again, whatever later evaluations do (`given_up_for_good`); a
message that wakes it stays where it is. An evaluation that fails by its own fault is not given up:
the processes that it left waiting go on in a later one (`failed_evaluation_goes_on`).
-/

namespace Catena

/-! ## Who waits in which epoch -/

/-- The thread of a waker and the epoch in which it began to wait. -/
def Waker.stamp? : Waker → Option (Thread × Nat)
  | .resume epoch _ k => k.thread?.map (·, epoch)
  | .report _ => none

/-- A waker of a thread that began to wait in another epoch. -/
def Waker.isStale (t : Thread) (epoch : Nat) (waker : Waker) : Bool :=
  waker.isOf t && decide (waker.stamp? ≠ some (t, epoch))

theorem Waker.isOf_of_stamp? {waker : Waker} {t : Thread} {epoch : Nat}
    (h : waker.stamp? = some (t, epoch)) : waker.isOf t = true := by
  cases waker with
  | report tag => cases h
  | resume e s k =>
    obtain ⟨u, hu, he⟩ := Option.map_eq_some_iff.1 h
    cases he
    exact decide_eq_true hu

theorem Waker.Sound.exists_of_stamp? {r : World} {waker : Waker} {t : Thread} {epoch : Nat}
    (h : waker.Sound r) (hs : waker.stamp? = some (t, epoch)) : t.Exists r := by
  cases waker with
  | report tag => cases hs
  | resume e s k =>
    obtain ⟨-, u, hu, hex⟩ := h
    obtain ⟨u', hu', he⟩ := Option.map_eq_some_iff.1 hs
    cases he
    cases hu.symm.trans hu'
    exact hex

namespace World

/-- A thread waits somewhere since an epoch. -/
def Parked (w : World) (t : Thread) (epoch : Nat) : Prop :=
  ∃ c, some (t, epoch) ∈ (w.waiting c).map Waker.stamp?

/-- In a sound world those who wait are sound. -/
theorem Sound.waiting {w : World} (h : w.Sound w) {c : Cell} {waker : Waker}
    (hw : waker ∈ w.waiting c) : waker.Sound w := by
  have hk := h.cells.of_mem_waiting hw
  cases c with
  | mailbox m => exact hk.1
  | _ => exact hk

/-- Where nothing is queued, those who wait are all there is. -/
theorem holders_of_idle {w : World} {T : Task → Prop} {K : Waker → Prop}
    (hr : w.scheduler.ready = []) (ht : w.scheduler.timers = [])
    (hw : ∀ c, ∀ waker ∈ w.waiting c, K waker) : Holders (fun _ _ => True) T (fun _ => K) w :=
  .of_mem (by simp [hr]) (by simp [ht]) hw fun _ _ _ => trivial

/-- The number of those in all cells who are of a certain kind. -/
def countWaiting (w : World) (q : Waker → Bool) : Nat :=
  w.dataflows.total (fun cell => cell.waiters.countP q)
    + w.processes.total (fun process => process.notify.countP q)
    + w.mailboxes.total (fun mailbox => mailbox.receiver.toList.countP q)

variable {w : World}

theorem countWaiting_le_held (w : World) (t : Thread) : w.countWaiting (Waker.isOf t) ≤ w.held t := by
  simp only [countWaiting, held]
  omega

/-- Whoever waits in a cell is counted. -/
theorem countWaiting_pos {q : Waker → Bool} {c : Cell} {waker : Waker} (h : waker ∈ w.waiting c)
    (hq : q waker = true) : 1 ≤ w.countWaiting q := by
  have hpos : 1 ≤ (w.waiting c).countP q := List.countP_pos_iff.2 ⟨waker, h, hq⟩
  simp only [countWaiting]
  cases c with
  | dataflow v =>
    have hv : v.index < w.dataflows.size := by
      by_contra hn
      rw [waiting, World.dataflow, Table.get_of_size_le (Nat.le_of_not_lt hn)] at h
      cases h
    have hle := Table.le_total (fun cell : Variable => cell.waiters.countP q) hv
    simp only [waiting, World.dataflow] at hpos
    omega
  | process p =>
    have hp : p.index < w.processes.size := by
      by_contra hn
      rw [waiting, World.process, Table.get_of_size_le (Nat.le_of_not_lt hn)] at h
      cases h
    have hle := Table.le_total (fun process : Process => process.notify.countP q) hp
    simp only [waiting, World.process] at hpos
    omega
  | mailbox m =>
    have hm : m.index < w.mailboxes.size := by
      by_contra hn
      rw [waiting, World.mailbox, Table.get_of_size_le (Nat.le_of_not_lt hn)] at h
      cases h
    have hle := Table.le_total (fun mailbox : Mailbox => mailbox.receiver.toList.countP q) hm
    simp only [waiting, World.mailbox] at hpos
    omega

theorem countP_add_le {α : Type} {p q r : α → Bool} (hp : ∀ a, p a = true → r a = true)
    (hq : ∀ a, q a = true → r a = true) (hd : ∀ a, p a = true → q a = false) (l : List α) :
    l.countP p + l.countP q ≤ l.countP r := by
  induction l with
  | nil => simp
  | cons a l ih =>
    have h := hp a
    have h' := hq a
    have h'' := hd a
    simp only [List.countP_cons]
    cases hpa : p a <;> cases hqa : q a <;> cases hra : r a <;> simp_all <;> omega

theorem countWaiting_add_le {p q r : Waker → Bool} (hp : ∀ a, p a = true → r a = true)
    (hq : ∀ a, q a = true → r a = true) (hd : ∀ a, p a = true → q a = false) (w : World) :
    w.countWaiting p + w.countWaiting q ≤ w.countWaiting r := by
  have key : ∀ {α : Type} [Inhabited α] (table : Table α) (f : α → List Waker),
      table.total (fun a => (f a).countP p) + table.total (fun a => (f a).countP q) ≤
        table.total fun a => (f a).countP r := by
    intro α _ table f
    rw [Table.total, Table.total, Table.total, ← Finset.sum_add_distrib]
    exact Finset.sum_le_sum fun i _ => countP_add_le hp hq hd _
  have hv := key w.dataflows Variable.waiters
  have hn := key w.processes Process.notify
  have hm := key w.mailboxes fun mailbox => mailbox.receiver.toList
  simp only [countWaiting]
  omega

/-- A thread that is held once waits in one epoch. -/
theorem stamp_of_parked {t : Thread} {epoch : Nat} (hheld : w.held t ≤ 1) (h : w.Parked t epoch)
    {c : Cell} {waker : Waker} (hw : waker ∈ w.waiting c) (ht : waker.isOf t = true) :
    waker.stamp? = some (t, epoch) := by
  by_contra hne
  obtain ⟨c', hc'⟩ := h
  obtain ⟨parked, hparked, hstamp⟩ := List.mem_map.1 hc'
  have hfresh := countWaiting_pos (q := fun k => decide (k.stamp? = some (t, epoch))) hparked
    (decide_eq_true hstamp)
  have hstale := countWaiting_pos (q := Waker.isStale t epoch) hw (by simp [Waker.isStale, ht, hne])
  have hsum := countWaiting_add_le (p := fun k => decide (k.stamp? = some (t, epoch)))
    (q := Waker.isStale t epoch) (r := Waker.isOf t)
    (fun k hk => Waker.isOf_of_stamp? (of_decide_eq_true hk))
    (fun k hk => (Bool.and_eq_true_iff.1 hk).1)
    (fun k hk => by simp [Waker.isStale, of_decide_eq_true hk]) w
  have hle := w.countWaiting_le_held t
  omega

end World

/-! ## Threads that never work again -/

/-- A thread does not work, and waits in one epoch only. -/
def Regime.asleep (t : Thread) (epoch : Nat) : Regime where
  works u _ := u ≠ t
  waits u _ e := u = t → e = epoch

theorem Regime.asleep_lawful {w : World} {t : Thread} {epoch : Nat}
    (ha : w.isAbandoned epoch = true) (ht : t.Exists w) : (asleep t epoch).Lawful w where
  park hne heq := absurd heq hne
  wake := by
    rintro u owner e hw hlive rfl
    rw [hw rfl, ha] at hlive
    cases hlive
  spawn p hle := by
    rintro rfl
    exact absurd hle (Nat.not_le_of_lt ht)

/-- What has been given up stays given up. -/
theorem World.isAbandoned_apply {w : World} {epoch : Nat} (h : w.isAbandoned epoch = true)
    (e : Effect) : (w.apply e).isAbandoned epoch = true := by
  by_cases hk : e.keepsPhase = true
  · exact ((w.samePhase_apply hk).isAbandoned epoch).trans h
  cases e with
  | abandon other =>
    have hab : w.scheduler.isAbandoned epoch = true := h
    exact (w.scheduler.isAbandoned_abandon other epoch).trans (by rw [hab, Bool.or_true])
  | beginEpoch | launch | beginTurn | endTurn => exact h
  | _ => exact absurd rfl hk

theorem World.isAbandoned_replay {w : World} {epoch : Nat} (h : w.isAbandoned epoch = true)
    (es : List Effect) : (w.replay es).isAbandoned epoch = true :=
  replay_induct (I := fun v => v.isAbandoned epoch = true) h
    fun _ e _ hv => World.isAbandoned_apply hv e

/-- A thread waits, if at all, in an epoch that has been given up. -/
structure Moment.Asleep (m : Moment) (t : Thread) (epoch : Nat) : Prop where
  gone : m.world.isAbandoned epoch = true
  there : t.Exists m.world
  keeps : (Regime.asleep t epoch).Keeps m

section Asleep

variable {starts : World → Stack → Prop} {m m' : Moment} {es : List Event} {t : Thread}
  {epoch : Nat}

theorem Moment.Asleep.lawful (h : m.Asleep t epoch) : (Regime.asleep t epoch).Lawful m.world :=
  Regime.asleep_lawful h.gone h.there

/-- The thread is not at work. -/
theorem Moment.Asleep.thread_ne (h : m.Asleep t epoch) : m.control.thread? ≠ some t := by
  intro ht
  have hc := h.keeps.control
  cases hctl : m.control with
  | rest => rw [hctl] at ht; cases ht
  | run env code s k =>
    rw [hctl] at hc ht
    exact hc t ht rfl
  | resume k outcome =>
    rw [hctl] at hc ht
    cases outcome with
    | ok s => exact hc t ht rfl
    | error e =>
      obtain ⟨owner, hne⟩ := hc t ht
      exact hne rfl

/-- **A step leaves the thread asleep.** -/
theorem Next.asleep (hn : Next (.evaluations starts) m es m') (h : m.Asleep t epoch) :
    (∀ e ∈ effectsOf es, (Regime.asleep t epoch).LetsEffect e) ∧ m'.Asleep t epoch := by
  have hstart : ∀ s, starts m.world s →
      (Regime.asleep t epoch).works (.main m.world.slots.size) s.owner := by
    rintro s - rfl
    exact absurd h.there (Nat.lt_irrefl _)
  obtain ⟨he, hk⟩ := hn.keeps h.lawful Policy.letsEffect_of_evaluations hstart h.keeps
  refine ⟨he, ?_, ?_, hk⟩
  · rw [hn.world_eq]
    exact World.isAbandoned_replay h.gone _
  · rw [hn.world_eq]
    exact h.there.mono (m.world.grows_replay _)

theorem Run.asleep (hr : Run (.evaluations starts) m es m') (h : m.Asleep t epoch) :
    m'.Asleep t epoch :=
  hr.induct (I := fun m => m.Asleep t epoch) (fun h hn => (hn.asleep h).2) h

/-- A woken thread that is asleep has been given up. -/
theorem Regime.LetsWait.isGivenUp {w : World} {waker : Waker}
    (h : (Regime.asleep t epoch).LetsWait waker) (ht : waker.thread? = some t)
    (ha : w.isAbandoned epoch = true) : waker.isGivenUp w = true := by
  cases waker with
  | report tag => cases ht
  | resume e s k =>
    have he : e = epoch := h t ht rfl
    rw [Waker.isGivenUp, he, ha]

/-- What the turn of a thread that is asleep consists of: it is woken and passed over. -/
theorem Next.woken (hn : Next (.evaluations starts) m es m') (h : m.Asleep t epoch)
    {e : Event} (he : e ∈ es) (ht : e.thread = some t) :
    (∃ waker, effectsOf es = [.beginTurn, .wakeWaiter waker]) ∨
      ∃ b waker, effectsOf es = [.beginTurn, .wakeReceiver b waker] ∧ waker.thread? = some t ∧
        (Regime.asleep t epoch).LetsWait waker := by
  cases hn with
  | work hd =>
    obtain ⟨f, -, rfl⟩ := List.mem_map.1 he
    exact absurd ht h.thread_ne
  | turn hr hb =>
    rename_i w c roots task rest fs
    obtain ⟨f, -, rfl⟩ := List.mem_map.1 he
    have htask := h.keeps.cells.ready task (by rw [hr]; simp)
    rw [effectsOf_map]
    have hne : ∀ {k s}, (Regime.asleep t epoch).Lets k s → k.thread? ≠ some t :=
      fun hk hkt => hk t hkt rfl
    cases hb with
    | resume =>
      rename_i k outcome
      cases outcome with
      | ok s => exact absurd ht (hne htask)
      | error e =>
        obtain ⟨owner, hno⟩ := htask t ht
        exact absurd rfl hno
    | activate => exact absurd ht (hne htask)
    | start =>
      cases ht
      exact absurd rfl htask
    | receive | refuse => exact .inr ⟨_, _, rfl, ht, htask⟩
    | wake | pass => exact .inl ⟨_, rfl⟩
  | evaluate | install | outside =>
    rw [List.mem_singleton.1 he] at ht
    cases ht

/-- A message that wakes a thread that is asleep stays in its mailbox. -/
theorem Next.queue_eq (hn : Next (.evaluations starts) m es m') (h : m.Asleep t epoch)
    (hi : m.world.ReceiversIdle) {e : Event} (he : e ∈ es) (ht : e.thread = some t)
    (b : MailboxId) : (m'.world.mailbox b).queue = (m.world.mailbox b).queue := by
  have hlaw := (World.takes_append_queue hi (effectsOf es) b).1
  rw [← hn.world_eq] at hlaw
  rcases hn.woken h he ht with ⟨waker, hes⟩ | ⟨b', waker, hes, hw, hlets⟩
  · rw [hes] at hlaw
    simpa [World.gather, World.takes, World.posts] using hlaw
  · have hgone : waker.isGivenUp (m.world.apply .beginTurn) = true := hlets.isGivenUp hw h.gone
    rw [hes] at hlaw
    simpa [World.gather, World.takes, World.posts, hgone] using hlaw

end Asleep

/-! ## The mailbox of a process that is asleep -/

/-- Where threads work on their own stacks, nobody takes a message from the mailbox of a process
that is asleep. -/
theorem World.takes_eq_nil {w : World} {e : Effect} {p : ProcessId} {epoch : Nat}
    (hm : w.Matched) (he : e.Sound w) (hown : Regime.owned.LetsEffect e)
    (hsleep : (Regime.asleep (.process p) epoch).LetsEffect e)
    (ha : w.isAbandoned epoch = true) : w.takes ⟨p.index⟩ e = [] := by
  cases e with
  | receive s k =>
    obtain ⟨hs, t, hk, -⟩ := he
    have howner : s.owner = t.owner := hown t hk
    have hne : t ≠ .process p := hsleep t hk
    simp only [takes]
    cases ho : s.owner with
    | none => rfl
    | some q =>
      have ht := Thread.eq_process_of_owner (howner.symm.trans ho)
      dsimp only
      rw [if_neg]
      rw [hm.mailbox (hs.owner q ho)]
      rintro hq
      cases p
      cases q
      cases hq
      exact hne ht
  | wakeReceiver b waker =>
    simp only [takes]
    rw [if_neg]
    rintro ⟨rfl, hlive⟩
    have ht := Regime.LetsWait.thread hown he.1 he.2
    rw [Regime.LetsWait.isGivenUp hsleep ht ha] at hlive
    cases hlive
  | _ => rfl

theorem World.gather_takes_eq_nil {w : World} {es : List Effect} {p : ProcessId} {epoch : Nat}
    (hm : w.Matched) (he : w.Admits es) (hown : ∀ e ∈ es, Regime.owned.LetsEffect e)
    (hsleep : ∀ e ∈ es, (Regime.asleep (.process p) epoch).LetsEffect e)
    (ha : w.isAbandoned epoch = true) : w.gather (takes ⟨p.index⟩) es = [] := by
  induction es generalizing w with
  | nil => rfl
  | cons e es ih =>
    obtain ⟨hown1, howns⟩ := List.forall_mem_cons.1 hown
    obtain ⟨hsleep1, hsleeps⟩ := List.forall_mem_cons.1 hsleep
    rw [gather, takes_eq_nil hm he.1 hown1 hsleep1 ha,
      ih (hm.apply e) he.2 howns hsleeps (w.isAbandoned_apply ha e)]
    rfl

/-- A moment at which a process is asleep and threads work on their own stacks. -/
structure Moment.Still (m : Moment) (p : ProcessId) (epoch : Nat) : Prop where
  sound : m.Sound
  owned : Regime.owned.Keeps m
  asleep : m.Asleep (.process p) epoch

section Still

variable {starts : World → Stack → Prop} {m m' : Moment} {es : List Event} {p : ProcessId}
  {epoch : Nat}

theorem Next.still (hst : ∀ w s, starts w s → s.Sound w ∧ s.owner = none)
    (hn : Next (.evaluations starts) m es m') (h : m.Still p epoch) :
    m.world.gather (World.takes ⟨p.index⟩) (effectsOf es) = [] ∧ m'.Still p epoch := by
  obtain ⟨ha, hs⟩ := hn.sound (Policy.evaluations_sound fun w s hw => (hst w s hw).1) h.sound
  obtain ⟨ho, hown⟩ := hn.keeps (Regime.owned_lawful _) Policy.letsEffect_of_evaluations
    (fun s hs => (hst _ s hs).2) h.owned
  obtain ⟨hl, hasleep⟩ := hn.asleep h.asleep
  exact ⟨World.gather_takes_eq_nil h.sound.world.matched ha ho hl h.asleep.gone,
    hs, hown, hasleep⟩

/-- Nothing is taken from the mailbox of a process that is asleep. -/
theorem Run.still (hst : ∀ w s, starts w s → s.Sound w ∧ s.owner = none)
    (hr : Run (.evaluations starts) m es m') (h : m.Still p epoch) :
    m.world.gather (World.takes ⟨p.index⟩) (effectsOf es) = [] ∧ m'.Still p epoch := by
  induction hr with
  | refl => exact ⟨rfl, h⟩
  | step hr hn ih =>
    obtain ⟨hnil, hstill⟩ := ih
    obtain ⟨hnil', hstill'⟩ := hn.still hst hstill
    rw [hr.world_eq] at hnil'
    refine ⟨?_, hstill'⟩
    rw [effectsOf_append, World.gather_append, hnil, List.nil_append]
    exact hnil'

end Still

/-! ## How evaluations end -/

/-- Outcomes that say how an evaluation ended: it stalled, or it was cut off. -/
def Outcome.isGivenUp : Outcome → Bool
  | .error .stalled | .error (.turnLimit _) => true
  | _ => false

/-- The outcome of a program is none of those. -/
theorem World.Fits.not_isGivenUp {r : World} {outcome : Outcome} (h : r.Fits outcome) :
    Outcome.isGivenUp outcome = false := by
  cases outcome with
  | ok s => rfl
  | error e => cases e with
    | stalled | turnLimit => cases h
    | _ => rfl

theorem World.Sound.fits_outcome {w : World} (h : w.Sound w) {slot : Nat} {outcome : Outcome}
    (ho : w.outcome? slot = some outcome) : w.Fits outcome :=
  Table.All.get_of_default (i := slot) h.outcomes (fun _ hn => by cases hn) _ ho

section Ends

variable {starts : World → Stack → Prop} {w : World} {is : List Interpreter} {i : Interpreter}
  {stack : Stack}

/-- Until it ends, the epoch of an evaluation has not been given up. -/
theorem Evaluated.ends (hst : ∀ w s, starts w s → s.Sound w) (h : Evaluated starts w is)
    (program : Program) (hs : starts w stack) :
    ∃ v, Ends w v (i.evaluate program stack w) ∧ v.Sound v ∧
      v.isAbandoned (w.scheduler.epoch + 1) = false := by
  obtain ⟨-, hd⟩ := h.leads hst
  have hw := h.sound hst
  obtain ⟨hl, hphase⟩ := leads_after i program [] hw (hst w stack hs) i.bound
  have hv := hl.sound Policy.turns_sound (Moment.sound_begun i program [] hw (hst w stack hs))
  have halive := h.isAbandoned_of_lt hst (Nat.lt_succ_self w.scheduler.epoch)
  exact ⟨_, evaluate_ends i program hw (hst w stack hs) hd, hv.world,
    (hphase.isAbandoned _).trans halive⟩

/-- **The epoch of an evaluation is given up when it stalls or is cut off**, and only then. -/
theorem Evaluated.isAbandoned_eq (hst : ∀ w s, starts w s → s.Sound w)
    (h : Evaluated starts w is) (program : Program) (hs : starts w stack) :
    (i.evaluate program stack w).1.isAbandoned (w.scheduler.epoch + 1) =
      Outcome.isGivenUp (i.evaluate program stack w).2 := by
  obtain ⟨v, hends, hv, hnow⟩ := h.ends (i := i) hst program hs
  have hgive : (v.apply (.abandon (w.scheduler.epoch + 1))).isAbandoned
      (w.scheduler.epoch + 1) = true :=
    (v.scheduler.isAbandoned_abandon _ _).trans (by simp)
  generalize i.evaluate program stack w = result at hends ⊢
  cases hends with
  | delivered ho => exact hnow.trans (hv.fits_outcome ho).not_isGivenUp.symm
  | stalled ho hr ht => exact hgive
  | cutOff bound => exact hgive

/-- Nothing is queued once an evaluation has been given up. -/
theorem Evaluated.idle_of_isGivenUp (hst : ∀ w s, starts w s → s.Sound w)
    (h : Evaluated starts w is) (program : Program) (hs : starts w stack)
    (ho : Outcome.isGivenUp (i.evaluate program stack w).2 = true) :
    (i.evaluate program stack w).1.scheduler.ready = [] ∧
      (i.evaluate program stack w).1.scheduler.timers = [] := by
  obtain ⟨v, hends, hv, -⟩ := h.ends (i := i) hst program hs
  generalize i.evaluate program stack w = result at ho hends ⊢
  cases hends with
  | delivered hout =>
    have hnot := (hv.fits_outcome hout).not_isGivenUp
    rw [show Outcome.isGivenUp _ = true from ho] at hnot
    cases hnot
  | stalled hout hr ht => exact ⟨hr, ht⟩
  | cutOff bound => exact ⟨rfl, rfl⟩

/-- **Whoever is left waiting in an epoch that is given up sleeps from then on.** -/
theorem Evaluated.asleep (hst : ∀ w s, starts w s → s.Sound w) (h : Evaluated starts w is)
    (hi : i ∈ is) (program : Program) (hs : starts w stack)
    (ho : Outcome.isGivenUp (i.evaluate program stack w).2 = true) {t : Thread}
    (ht : (i.evaluate program stack w).1.Parked t (w.scheduler.epoch + 1)) :
    Moment.Asleep ⟨(i.evaluate program stack w).1, .rest, is.map Interpreter.env⟩ t
      (w.scheduler.epoch + 1) := by
  obtain ⟨hl, hd⟩ := h.leads hst
  have hend := leads_evaluate program (h.sound hst) (hst w stack hs) hs
    (List.mem_map_of_mem (f := Interpreter.env) hi) hd
  obtain ⟨es, hrun⟩ := hl.trans hend.1
  have hsound := (hrun.sound (Policy.evaluations_sound hst) Moment.sound_dawn).world
  have hgone := (h.isAbandoned_eq (i := i) hst program hs).trans ho
  obtain ⟨hr, htimers⟩ := h.idle_of_isGivenUp (i := i) hst program hs ho
  have hbal := hrun.balanced hst t
  generalize (i.evaluate program stack w).1 = v at ht hrun hsound hgone hr htimers hbal
  have hheld : v.held t ≤ 1 := by
    cases hu : v.isUnfinished t <;> simp only [hu, Bool.toNat_true, Bool.toNat_false] at hbal <;>
      omega
  -- In no cell does the thread wait in another epoch.
  have hwait : ∀ c, ∀ waker ∈ v.waiting c,
      (Regime.asleep t (w.scheduler.epoch + 1)).LetsWait waker := by
    intro c waker hw
    cases waker with
    | report tag => exact trivial
    | resume epoch s k =>
      rintro u hk rfl
      have hstamp := World.stamp_of_parked hheld ht hw (decide_eq_true hk)
      obtain ⟨u', hu', he⟩ := Option.map_eq_some_iff.1 hstamp
      cases he
      rfl
  refine ⟨hgone, ?_, World.holders_of_idle hr htimers hwait, trivial⟩
  obtain ⟨c, hc⟩ := ht
  obtain ⟨waker, hw, hstamp⟩ := List.mem_map.1 hc
  exact (hsound.waiting hw).exists_of_stamp? hstamp

/-- A thread is given up for good: in no run from here on it ever works, and when it is woken, all
messages stay in their mailboxes. -/
structure Dormant (policy : Policy) (m₀ : Moment) (t : Thread) : Prop where
  idle : ∀ {m es}, Run policy m₀ es m → m.control.thread? ≠ some t
  woken : ∀ {m m' es fs}, Run policy m₀ es m → Next policy m fs m' →
    (∃ e ∈ fs, e.thread = some t) → ∀ b, (m'.world.mailbox b).queue = (m.world.mailbox b).queue

/-- Where all stacks are free, what is posted to a process that is given up stays in its mailbox. -/
def KeepsMessages (policy : Policy) (m₀ : Moment) (p : ProcessId) : Prop :=
  ∀ es m, Run policy m₀ es m → (m.world.mailbox ⟨p.index⟩).queue =
    (m₀.world.mailbox ⟨p.index⟩).queue ++ m₀.world.gather (World.posts ⟨p.index⟩) (effectsOf es)

/-- **What is given up is given up for good.** The epoch of an evaluation is given up if it stalls
or is cut off, and only then. Every thread that it left waiting in a variable, a process or a
mailbox then never works again, whatever later evaluations do, and a message that wakes it stays in
its mailbox. -/
theorem given_up_for_good (hst : ∀ w s, starts w s → s.Sound w) (h : Evaluated starts w is)
    (hi : i ∈ is) (program : Program) (hs : starts w stack) :
    (i.evaluate program stack w).1.isAbandoned (w.scheduler.epoch + 1) =
        Outcome.isGivenUp (i.evaluate program stack w).2 ∧
      (Outcome.isGivenUp (i.evaluate program stack w).2 = true → ∀ t,
        (i.evaluate program stack w).1.Parked t (w.scheduler.epoch + 1) →
          Dormant (.evaluations starts)
            ⟨(i.evaluate program stack w).1, .rest, is.map Interpreter.env⟩ t ∧
          ((∀ w s, starts w s → s.owner = none) → ∀ p, t = .process p →
            KeepsMessages (.evaluations starts)
              ⟨(i.evaluate program stack w).1, .rest, is.map Interpreter.env⟩ p)) := by
  refine ⟨h.isAbandoned_eq hst program hs, fun ho t ht => ?_⟩
  have hasleep := h.asleep hst hi program hs ho ht
  obtain ⟨hl, hd⟩ := h.leads hst
  have hend := leads_evaluate program (h.sound hst) (hst w stack hs) hs
    (List.mem_map_of_mem (f := Interpreter.env) hi) hd
  obtain ⟨es₀, hrun⟩ := hl.trans hend.1
  have hempty : ({} : World).ReceiversIdle := Table.All.empty
  have hidle : ∀ {es m}, Run (.evaluations starts) .dawn es m → m.world.ReceiversIdle := by
    intro es m hr
    rw [hr.world_eq]
    exact (World.takes_append_queue hempty (effectsOf es) ⟨0⟩).2
  refine ⟨⟨fun hr => (hr.asleep hasleep).thread_ne, ?_⟩, ?_⟩
  · rintro m m' es fs hr hn ⟨e, he, hte⟩
    exact hn.queue_eq (hr.asleep hasleep) (hidle (hrun.trans hr)) he hte
  · rintro hfree p rfl es m hr
    have hstill : Moment.Still ⟨(i.evaluate program stack w).1, .rest, is.map Interpreter.env⟩ p
        (w.scheduler.epoch + 1) :=
      ⟨hrun.sound (Policy.evaluations_sound hst) Moment.sound_dawn, hrun.owned hfree, hasleep⟩
    obtain ⟨hnil, -⟩ := hr.still (fun w s hw => ⟨hst w s hw, hfree w s hw⟩) hstill
    have hlaw := (World.takes_append_queue (hidle hrun) (effectsOf es) ⟨p.index⟩).1
    rw [← hr.world_eq, hnil] at hlaw
    exact hlaw

end Ends

/-- A process waits for a message, and the main program for the process. -/
theorem given_up_for_good_receiver :
    ∃ (w : World) (i : Interpreter), Evaluated Stack.IsFree w [i] ∧
      (i.evaluate [.block () [.word "receive"], .word "go", .word "await"] .empty w).1.Parked
        (.process ⟨0⟩) 1 ∧
      Dormant .free ⟨(i.evaluate [.block () [.word "receive"], .word "go", .word "await"] .empty
        w).1, .rest, [i.env]⟩ (.process ⟨0⟩) ∧
      KeepsMessages .free ⟨(i.evaluate [.block () [.word "receive"], .word "go", .word "await"]
        .empty w).1, .rest, [i.env]⟩ ⟨0⟩ := by
  have h : Evaluated Stack.IsFree World.fresh [⟨⟨0⟩, { maxTurns := some 9 }⟩] := .fresh _
  have hgiven : Outcome.isGivenUp (Interpreter.evaluate ⟨⟨0⟩, { maxTurns := some 9 }⟩
      [.block () [.word "receive"], .word "go", .word "await"] .empty World.fresh).2 = true := by
    decide +kernel
  have hparked : (Interpreter.evaluate ⟨⟨0⟩, { maxTurns := some 9 }⟩
      [.block () [.word "receive"], .word "go", .word "await"] .empty World.fresh).1.Parked
        (.process ⟨0⟩) 1 :=
    ⟨.mailbox ⟨0⟩, by decide +kernel⟩
  have hall := (given_up_for_good Stack.IsFree.sound h (List.mem_singleton.2 rfl)
    [.block () [.word "receive"], .word "go", .word "await"] (Stack.isFree_empty _)).2 hgiven _
    hparked
  exact ⟨_, _, h, hparked, hall.1, hall.2 (fun _ _ hs => hs.2) _ rfl⟩

/-! ## Evaluations that fail by their own fault -/

/-- The thread whose turn it is to be woken by a variable, and the epoch in which it began to
wait. -/
def World.nextWaiter? (w : World) : Option (Thread × Nat) :=
  match w.scheduler.ready with
  | .wakeWaiter waker _ :: _ => waker.stamp?
  | _ => none

/-- A thread that is woken works, unless its epoch has been given up. -/
theorem World.exists_leads_of_nextWaiter? {policy : Policy} {w : World} {t : Thread} {epoch : Nat}
    (h : w.nextWaiter? = some (t, epoch)) (ha : w.isAbandoned epoch = false) (roots : List EnvId) :
    ∃ m, Leads policy ⟨w, .rest, roots⟩ m ∧ m.control.thread? = some t := by
  unfold nextWaiter? at h
  split at h
  · rename_i waker value rest hr
    cases waker with
    | report tag => cases h
    | resume e s k =>
      obtain ⟨u, hu, he⟩ := Option.map_eq_some_iff.1 h
      cases he
      exact ⟨_, .of_next (.turn hr (.wake ha)), hu⟩
  · cases h

/-- A thread that the next evaluation wakes is not given up for good. -/
theorem Evaluated.not_dormant {w : World} {is : List Interpreter} {i : Interpreter}
    (h : Evaluated Stack.IsFree w is) (hi : i ∈ is) {first : Program} (second : Program) (n : Nat)
    {t : Thread} (epoch : Nat)
    (ht : (i.after n second .empty (i.evaluate first .empty w).1).nextWaiter? = some (t, epoch))
    (ha : (i.after n second .empty (i.evaluate first .empty w).1).isAbandoned epoch = false) :
    ¬Dormant .free ⟨(i.evaluate first .empty w).1, .rest, is.map Interpreter.env⟩ t := by
  intro hd
  have henv : i.env ∈ is.map Interpreter.env := List.mem_map_of_mem hi
  obtain ⟨hl, hdepth⟩ := h.leads Stack.IsFree.sound
  have hfirst := leads_evaluate first (h.sound Stack.IsFree.sound) (Stack.isFree_empty w).1
    (Stack.isFree_empty w) henv hdepth
  have hw := ((hl.trans hfirst.1).sound (Policy.evaluations_sound Stack.IsFree.sound)
    Moment.sound_dawn).world
  have hsecond := leads_during second hw (Stack.isFree_empty _).1 (Stack.isFree_empty _) henv n
  obtain ⟨m, hm, hthread⟩ := World.exists_leads_of_nextWaiter? ht ha (is.map Interpreter.env)
  obtain ⟨es, hrun⟩ := hsecond.trans hm
  exact hd.idle hrun hthread

/-- Leaves a process waiting for the variable `v`, and fails because a process is no block. -/
def failing : Program :=
  [.symbol "v", .word "dfvar", .symbol "v", .word "def",
    .block () [.word "v", .word "await", .word "print"], .word "go", .word "yield", .word "do"]

/-- **A process that a failed evaluation left waiting works again**: the evaluation failed by its
own fault, so that its epoch was not given up, and a later one binds the variable. -/
theorem failed_evaluation_goes_on :
    ∃ (w : World) (i : Interpreter), Evaluated Stack.IsFree w [i] ∧
      (i.evaluate failing .empty w).2 = .error (.typeMismatch "do" .block .process) ∧
      (i.evaluate failing .empty w).1.Parked (.process ⟨0⟩) (w.scheduler.epoch + 1) ∧
      ¬Dormant .free ⟨(i.evaluate failing .empty w).1, .rest, [i.env]⟩ (.process ⟨0⟩) := by
  have h : Evaluated Stack.IsFree World.fresh [⟨⟨0⟩, { maxTurns := some 9 }⟩] := .fresh _
  refine ⟨_, _, h, by cbv, ⟨.dataflow ⟨0⟩, by decide +kernel⟩, ?_⟩
  exact h.not_dormant (List.mem_singleton.2 rfl) [.symbol "x", .word "v", .word "bind"] 0 1
    (by decide +kernel) (by decide +kernel)

end Catena
