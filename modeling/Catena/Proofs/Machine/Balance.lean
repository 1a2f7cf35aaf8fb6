import Catena.Proofs.Machine.Threads

/-!
# Every thread is somewhere

At every moment of any number of evaluations a thread that has begun is at work, or held in one
place, or lost, or it has ended, and only one of these (`Balanced`). A step keeps this since the
thread at work gives its continuation to exactly one effect, or keeps it (`Does.account`), and a
turn begins by taking exactly one over (`Begins.account`).
-/

namespace Catena

/-! ## Sequences of effects -/

/-- Sums up something over a sequence of effects, given the world each happens to. -/
def World.tally (f : World → Effect → Nat) (w : World) : List Effect → Nat
  | [] => 0
  | e :: es => f w e + World.tally f (w.apply e) es

/-- Effects with which a thread ends. -/
def Effect.endsThread : Effect → Bool
  | .fillSlot _ _ | .finish _ _ => true
  | _ => false

theorem Effect.timely_of_not_endsThread {e : Effect} (h : e.endsThread = false) (w : World) :
    e.Timely w := by
  cases e with
  | fillSlot | finish => cases h
  | _ => exact trivial

/-- Effects that no continuation passes through. -/
def Effect.isStill : Effect → Bool
  | .later _ | .schedule _ _ | .awaitVariable _ _ _ | .awaitProcess _ _ _ | .receive _ _
  | .fillSlot _ _ | .finish _ _ | .beginTurn | .wakeWaiter _ | .wakeReceiver _ _
  | .launch _ _ => false
  | _ => true

/-- What is still is given nothing, hands nothing over and ends nothing. -/
theorem Effect.still {e : Effect} (h : e.isStill = true) :
    (∀ t, e.given t = 0) ∧ (∀ t w, e.taken t w = 0) ∧ e.endsThread = false := by
  cases e with
  | later | schedule | awaitVariable | awaitProcess | receive | fillSlot | finish | beginTurn
  | wakeWaiter | wakeReceiver | launch => cases h
  | _ => exact ⟨fun _ => rfl, fun _ _ => rfl, rfl⟩

namespace World

/-- How many continuations of a thread a sequence of effects is given. -/
def given (w : World) (t : Thread) (es : List Effect) : Nat := w.tally (fun _ e => e.given t) es

/-- How many continuations of a thread a sequence of effects hands over. -/
def taken (w : World) (t : Thread) (es : List Effect) : Nat := w.tally (fun w e => e.taken t w) es

/-- The threads whose continuation is lost while an effect happens. -/
def lost (w : World) (e : Effect) : List Thread := w.dropped e ++ w.displaced e

theorem tally_append (f : World → Effect → Nat) (w : World) (es fs : List Effect) :
    w.tally f (es ++ fs) = w.tally f es + (w.replay es).tally f fs := by
  induction es generalizing w with
  | nil => simp [tally]
  | cons e es ih => simp only [List.cons_append, tally, ih, replay_cons]; omega

theorem tally_eq_zero {f : World → Effect → Nat} {es : List Effect}
    (h : ∀ e ∈ es, ∀ w, f w e = 0) (w : World) : w.tally f es = 0 := by
  induction es generalizing w with
  | nil => rfl
  | cons e es ih =>
    obtain ⟨he, hes⟩ := List.forall_mem_cons.1 h
    simp only [tally, he, ih hes]

theorem given_of_isStill {es : List Effect} (h : ∀ e ∈ es, e.isStill = true) (w : World)
    (t : Thread) : w.given t es = 0 :=
  tally_eq_zero (fun e he _ => (Effect.still (h e he)).1 t) w

theorem taken_of_isStill {es : List Effect} (h : ∀ e ∈ es, e.isStill = true) (w : World)
    (t : Thread) : w.taken t es = 0 :=
  tally_eq_zero (fun e he w => (Effect.still (h e he)).2.1 t w) w

/-- Continuations are conserved by a sequence of effects with which no thread ends. -/
theorem conserves_replay {w : World} {es : List Effect} (h : w.Sound w) (ha : w.Admits es)
    (he : ∀ e ∈ es, e.endsThread = false) (t : Thread) :
    (w.replay es).held t + (w.isUnfinished t).toNat + w.taken t es + (w.gather lost es).count t =
      w.held t + ((w.replay es).isUnfinished t).toNat + w.given t es := by
  induction es generalizing w with
  | nil => simp [taken, given, tally]
  | cons e es ih =>
    obtain ⟨hes, hrest⟩ := List.forall_mem_cons.1 he
    have h1 := conserves h.matched ha.1 (Effect.timely_of_not_endsThread hes w) t
    have h2 := ih (h.apply ha.1) ha.2 hrest
    simp only [Conserves] at h1
    simp only [replay_cons, taken, given, tally, gather, lost, List.count_append] at h2 ⊢
    omega

end World

/-! ## The account of a step -/

section Account

variable {w : World} {env : EnvId} {s : Stack} {k : Continuation} {es : List Effect}

theorem SyncEffects.isStill {outcome : Outcome} (h : SyncEffects env s w es outcome) :
    ∀ e ∈ es, e.isStill = true := by
  cases h <;> simp [Effect.isStill]

/-- What a sequence of effects does with the continuation of the thread at work: the last of them
gets it. -/
structure Account (w : World) (t : Thread) (es : List Effect) (n : Nat) : Prop where
  given : w.given t es = n
  taken : w.taken t es = 0
  ends : ∀ e ∈ es, e.endsThread = false

theorem Account.of_isStill (h : ∀ e ∈ es, e.isStill = true) (w : World) (t : Thread) :
    Account w t es 0 :=
  ⟨World.given_of_isStill h w t, World.taken_of_isStill h w t,
    fun e he => (Effect.still (h e he)).2.2⟩

theorem Account.snoc {t : Thread} {n : Nat} (h : ∀ e ∈ es, e.isStill = true) {e : Effect}
    (hg : e.given t = n) (ht : e.taken t (w.replay es) = 0) (he : e.endsThread = false) :
    Account w t (es ++ [e]) n where
  given := by
    have hes := World.given_of_isStill h w t
    simp only [World.given, World.tally_append, World.tally] at hes ⊢
    omega
  taken := by
    have hes := World.taken_of_isStill h w t
    simp only [World.taken, World.tally_append, World.tally] at hes ⊢
    omega
  ends := List.forall_mem_append.2
    ⟨fun e he => (Effect.still (h e he)).2.2, List.forall_mem_singleton.2 he⟩

theorem Account.one {t : Thread} {n : Nat} {e : Effect} (hg : e.given t = n)
    (ht : e.taken t w = 0) (he : e.endsThread = false) : Account w t [e] n := by
  have hnil : ∀ d ∈ ([] : List Effect), d.isStill = true := by simp
  exact snoc hnil hg ht he

theorem Account.two {t : Thread} {n : Nat} {d e : Effect} (hd : d.isStill = true)
    (hg : e.given t = n) (ht : e.taken t (w.apply d) = 0) (he : e.endsThread = false) :
    Account w t [d, e] n := by
  have hone : ∀ f ∈ [d], f.isStill = true := List.forall_mem_singleton.2 hd
  exact snoc hone hg ht he

theorem AsyncEffects.account (h : AsyncEffects env s k w es) (hw : w.Sound w) (t : Thread) :
    Account w t es (k.isOf t).toNat := by
  cases h with
  | resume | awaitVariable | awaitProcess | receive | after => exact .one rfl rfl rfl
  | report | activate | iterate | callWord => exact .two rfl rfl rfl rfl
  | sync h hs => exact .snoc hs.isStill rfl rfl rfl
  | swallow hp hb | stall hp hb =>
    have := hp.isNative hw
    rw [hb] at this
    cases this

theorem AsyncEffects.endsThread (h : AsyncEffects env s k w es) :
    ∀ e ∈ es, e.endsThread = false := by
  cases h with
  | sync h hs =>
    exact List.forall_mem_append.2
      ⟨fun e he => (Effect.still (hs.isStill e he)).2.2, List.forall_mem_singleton.2 rfl⟩
  | _ => simp [Effect.endsThread]

/-- **The thread at work passes its continuation on once**, or keeps it, until it ends. -/
theorem Does.account {c c' : Control} (h : Does w c es c') (hw : w.Sound w)
    (he : ∀ e ∈ es, e.endsThread = false) (t : Thread) :
    w.given t es + (c'.isOf t).toNat = (c.isOf t).toNat ∧ w.taken t es = 0 := by
  have still : (∀ e ∈ es, e.isStill = true) → c'.isOf t = c.isOf t →
      w.given t es + (c'.isOf t).toNat = (c.isOf t).toNat ∧ w.taken t es = 0 := by
    intro hs hc
    have ha := Account.of_isStill hs w t
    rw [ha.given, hc]
    exact ⟨by omega, ha.taken⟩
  have gives : Account w t es (c.isOf t).toNat → c' = .rest →
      w.given t es + (c'.isOf t).toNat = (c.isOf t).toNat ∧ w.taken t es = 0 := by
    rintro ha rfl
    exact ⟨ha.given, ha.taken⟩
  cases h with
  | finish | unresolved | enough => exact gives (.one rfl rfl rfl) rfl
  | literal | value | goOn | skip | giveUp => exact still (by simp) rfl
  | block | unbound | leave | harvest => exact still (List.forall_mem_singleton.2 rfl) rfl
  | call hv hs => exact still hs.isStill rfl
  | fail hv hs => exact gives (.snoc hs.isStill rfl rfl rfl) rfl
  | takeOver hv ha => exact gives (ha.account hw t) rfl
  | fillSlot | finishProcess => cases he _ (List.mem_singleton.2 rfl)
  | again => exact gives (.two rfl rfl rfl rfl) rfl

/-- A step with which a thread ends does nothing else. -/
theorem Does.ends {c c' : Control} (h : Does w c es c') :
    (∀ e ∈ es, e.endsThread = false) ∨
      ∃ e t, es = [e] ∧ c' = .rest ∧ c.thread? = some t ∧
        (w.isUnfinished t = true → e.Timely w) ∧
        ∀ u, e.given u = (c.isOf u).toNat ∧ e.taken u w = 0 := by
  cases h with
  | fillSlot =>
    refine .inr ⟨_, _, rfl, rfl, rfl, id, fun u => ⟨?_, rfl⟩⟩
    simp [Effect.given, Continuation.isOf, Continuation.thread?, Sink.thread?, eq_comm]
  | finishProcess =>
    refine .inr ⟨_, _, rfl, rfl, rfl, id, fun u => ⟨?_, rfl⟩⟩
    simp [Effect.given, Continuation.isOf, Continuation.thread?, Sink.thread?, eq_comm]
  | literal | value | goOn | skip | giveUp => exact .inl (by simp)
  | finish | unresolved | enough | block | unbound | leave | harvest =>
    exact .inl (List.forall_mem_singleton.2 rfl)
  | again => exact .inl (List.forall_mem_cons.2 ⟨rfl, List.forall_mem_singleton.2 rfl⟩)
  | call hv hs => exact .inl fun e he => (Effect.still (hs.isStill e he)).2.2
  | fail hv hs =>
    exact .inl (List.forall_mem_append.2
      ⟨fun e he => (Effect.still (hs.isStill e he)).2.2, List.forall_mem_singleton.2 rfl⟩)
  | takeOver hv ha => exact .inl ha.endsThread

/-- A turn begins with the continuation that its task holds. -/
theorem Begins.account {task : Task} {c : Control} (h : Begins w task es c) (t : Thread) :
    (task.isOf t).toNat + w.taken t es = w.given t es + (c.isOf t).toNat ∧
      ∀ e ∈ es, e.endsThread = false := by
  have one : ∀ e : Effect, w.given t [e] = e.given t ∧ w.taken t [e] = e.taken t w :=
    fun e => ⟨Nat.add_zero _, Nat.add_zero _⟩
  cases h with
  | resume => exact ⟨Nat.add_comm _ _, by simp⟩
  | activate => exact ⟨Nat.add_comm _ _, List.forall_mem_singleton.2 rfl⟩
  | start => exact ⟨Nat.add_comm _ _, List.forall_mem_singleton.2 rfl⟩
  | receive ho =>
    rename_i m epoch s k message
    refine ⟨?_, List.forall_mem_singleton.2 rfl⟩
    have htaken : (Effect.wakeReceiver m (.resume epoch s k)).taken t w = (k.isOf t).toNat := by
      obtain ⟨⟨rest, ht⟩, ha⟩ := World.take?_of_offer ho
      have hq : (w.mailbox m).queue ≠ [] := by rw [(Mailbox.queue_of_take? ht).1]; simp
      simp [Effect.taken, Waker.isGivenUp, hq, ha]
    rw [(one _).1, (one _).2, htaken]
    rfl
  | refuse ho =>
    rename_i m epoch s k
    refine ⟨?_, List.forall_mem_singleton.2 rfl⟩
    have htaken : (Effect.wakeReceiver m (.resume epoch s k)).taken t w = 0 := by
      cases w.offers_offer m epoch (.resume epoch s k) with
      | take ht ha hw hm => rw [ho] at hm; cases hm
      | requeue ht ha hw => simp [Effect.taken, Waker.isGivenUp, ha]
      | wait hq hr hw => simp [Effect.taken, hq]
      | displaced hq hr hw => simp [Effect.taken, hq]
    rw [(one _).1, (one _).2, htaken]
    rfl
  | wake ha =>
    refine ⟨?_, List.forall_mem_singleton.2 rfl⟩
    rw [(one _).1, (one _).2]
    simp [Effect.taken, Effect.given, Waker.isGivenUp, ha]
  | pass ha =>
    refine ⟨?_, List.forall_mem_singleton.2 rfl⟩
    rw [(one _).1, (one _).2]
    simp [Effect.taken, Effect.given, Waker.isGivenUp, ha]

end Account

/-! ## The balance -/

/-- Every thread that has begun and not ended is at work, held in one place, or among the lost; and
no other thread is. -/
def Moment.Balanced (m : Moment) (gone : List Thread) : Prop :=
  ∀ t, m.world.held t + (m.control.isOf t).toNat + gone.count t = (m.world.isUnfinished t).toNat

/-- What the policy of evaluations lets happen besides turns moves no continuation on. -/
theorem Policy.isStill_of_allows {starts : World → Stack → Prop} {e : Effect}
    (h : (Policy.evaluations starts).allows e) : e.isStill = true := by
  rcases h with (rfl | rfl | rfl | ⟨elapsed, lapses, rfl⟩) | rfl | ⟨epoch, rfl⟩ <;> rfl

/-- An evaluation begins with a new thread. -/
theorem Moment.Balanced.launch {w : World} {roots : List EnvId} {gone : List Thread}
    (h : Balanced ⟨w, .rest, roots⟩ gone) (env : EnvId) (strict : Bool) (program : Program)
    (stack : Stack) :
    Balanced ⟨w.launch strict program,
      .run env (w.load program).2 stack (.deliver (.slot w.slots.size)), roots⟩ gone := by
  intro t
  have hb := h t
  have hu := World.isUnfinished_launch (w := w) strict program t
  have hh : (w.launch strict program).held t = w.held t := rfl
  have hc : (Control.run env (w.load program).2 stack (.deliver (.slot w.slots.size))).isOf t =
      decide (t = .main w.slots.size) := by
    simp [Continuation.isOf, Continuation.thread?_deliver, Sink.thread?, eq_comm]
  simp only [Control.isOf_rest, Bool.toNat_false] at hb
  simp only [hc, hu, hh]
  omega

theorem Control.isOf_of_thread? {c : Control} {t : Thread} (h : c.thread? = some t) :
    c.isOf t = true := decide_eq_true h

/-- A thread that is at work has not ended. -/
theorem Moment.Balanced.isUnfinished {m : Moment} {gone : List Thread} (h : m.Balanced gone)
    {t : Thread} (ht : m.control.thread? = some t) : m.world.isUnfinished t = true := by
  have hb := h t
  rw [Control.isOf_of_thread? ht] at hb
  cases hu : m.world.isUnfinished t with
  | true => rfl
  | false => rw [hu, Bool.toNat_true, Bool.toNat_false] at hb; omega

/-- A thread that is at work is not held anywhere. -/
theorem Moment.Balanced.held_eq_zero {m : Moment} {gone : List Thread} (h : m.Balanced gone)
    {t : Thread} (ht : m.control.thread? = some t) : m.world.held t = 0 := by
  have hb := h t
  have hle := (m.world.isUnfinished t).toNat_le
  rw [Control.isOf_of_thread? ht, Bool.toNat_true] at hb
  omega

/-- Something happens that moves no continuation on. -/
theorem Moment.Balanced.still {w : World} {c : Control} {roots : List EnvId} {gone : List Thread}
    (h : Balanced ⟨w, c, roots⟩ gone) (hw : w.Sound w) {e : Effect} (he : e.Sound w)
    (hs : e.isStill = true) (roots' : List EnvId) :
    Balanced ⟨w.apply e, c, roots'⟩ (gone ++ w.gather World.lost [e]) := by
  intro t
  have hb := h t
  obtain ⟨hg, ht, hends⟩ := Effect.still hs
  have hcons := World.conserves hw.matched he (Effect.timely_of_not_endsThread hends w) t
  simp only [World.Conserves, hg, ht] at hcons
  simp only [World.gather, World.lost, List.count_append, List.append_nil] at hb ⊢
  omega

/-- **The work of a turn keeps the balance.** -/
theorem Does.balanced {w : World} {c c' : Control} {es : List Effect} (hd : Does w c es c')
    (roots : List EnvId) (hw : w.Sound w) (hc : c.Sound w) {gone : List Thread}
    (hb : Moment.Balanced ⟨w, c, roots⟩ gone) :
    Moment.Balanced ⟨w.replay es, c', roots⟩ (gone ++ w.gather World.lost es) := by
  intro t
  have hbt := hb t
  obtain ⟨ha, -⟩ := hd.sound hw hc
  rcases hd.ends with he | ⟨e, u, rfl, rfl, hu, htimely, hacc⟩
  · have hcons := World.conserves_replay hw ha he t
    obtain ⟨hgiven, htaken⟩ := hd.account hw he t
    simp only [List.count_append] at hbt ⊢
    omega
  · have hcons := World.conserves hw.matched ha.1 (htimely (hb.isUnfinished hu)) t
    simp only [World.Conserves, (hacc t).1, (hacc t).2] at hcons
    simp only [World.replay_cons, World.replay_nil, World.gather, World.lost, List.append_nil,
      List.count_append, Control.isOf_rest, Bool.toNat_false] at hbt ⊢
    omega

/-- A turn begins in balance. -/
theorem Begins.balanced {w : World} {task : Task} {rest : List Task} {c : Control}
    {es : List Effect} (hr : w.scheduler.ready = task :: rest)
    (hbegin : Begins (w.apply .beginTurn) task es c) (roots : List EnvId) (hw : w.Sound w)
    {gone : List Thread} (hb : Moment.Balanced ⟨w, .rest, roots⟩ gone) :
    Moment.Balanced ⟨w.replay (.beginTurn :: es), c, roots⟩
      (gone ++ w.gather World.lost (.beginTurn :: es)) := by
  intro t
  have hbt := hb t
  have hw' : (w.apply .beginTurn).Sound (w.apply .beginTurn) := hw.apply trivial
  have ht : task.Sound (w.apply .beginTurn) :=
    (hw.cells.ready task (by rw [hr]; simp)).mono (w.grows_apply _)
  obtain ⟨ha, -⟩ := hbegin.sound hw' ht
  obtain ⟨hacc, hends⟩ := hbegin.account t
  have hadmits : w.Admits (.beginTurn :: es) := ⟨trivial, ha⟩
  have hcons := World.conserves_replay hw hadmits (List.forall_mem_cons.2 ⟨rfl, hends⟩) t
  have htaken : w.taken t (.beginTurn :: es) =
      (task.isOf t).toNat + (w.apply .beginTurn).taken t es := by
    simp only [World.taken, World.tally, Effect.taken, hr, List.head?_cons, Option.toList_some,
      World.countP_one]
  have hgiven : w.given t (.beginTurn :: es) = (w.apply .beginTurn).given t es := by
    simp only [World.given, World.tally, Effect.given, Nat.zero_add]
  simp only [List.count_append, Control.isOf_rest, Bool.toNat_false] at hbt ⊢
  omega

/-- **A step keeps the balance.** -/
theorem Next.balanced {starts : World → Stack → Prop} {m m' : Moment} {es : List Event}
    (hn : Next (.evaluations starts) m es m') (hst : ∀ w s, starts w s → s.Sound w) (hs : m.Sound)
    {gone : List Thread} (hb : m.Balanced gone) :
    m'.Balanced (gone ++ m.world.gather World.lost (effectsOf es)) := by
  cases hn with
  | work hd =>
    rw [effectsOf_map]
    exact hd.balanced _ hs.world hs.control hb
  | turn hr h =>
    rw [effectsOf_map]
    exact h.balanced hr _ hs.world hb
  | evaluate strict program henv hstack =>
    rw [show effectsOf [⟨none, .launch strict program⟩] = [.launch strict program] from rfl]
    simp only [World.gather, World.lost, World.dropped, World.displaced, List.append_nil]
    exact hb.launch _ strict program _
  | install => exact hb.still hs.world (e := .install) trivial rfl _
  | outside he =>
    exact hb.still hs.world ((Policy.evaluations_sound hst).allows _ _ he)
      (Policy.isStill_of_allows he) _

theorem Moment.balanced_dawn : dawn.Balanced [] := by
  intro t
  cases t <;> rfl

/-- **The balance of any number of evaluations.** -/
theorem Run.balanced {starts : World → Stack → Prop} (hst : ∀ w s, starts w s → s.Sound w)
    {m : Moment} {es : List Event} (h : Run (.evaluations starts) .dawn es m) :
    m.Balanced (World.gather World.lost {} (effectsOf es)) := by
  induction h with
  | refl => exact Moment.balanced_dawn
  | step hr hn ih =>
    have hs := hr.sound (Policy.evaluations_sound hst) Moment.sound_dawn
    have hb := hn.balanced hst hs ih
    rw [hr.world_eq] at hb
    rw [effectsOf_append, World.gather_append]
    exact hb

end Catena
