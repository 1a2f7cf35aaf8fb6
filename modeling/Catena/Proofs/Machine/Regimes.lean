import Catena.Proofs.Machine.Evaluations

/-!
# What threads keep to

A regime says on whose stacks a thread may work, and in which epochs it may wait on them. Programs
have no say in this: a stack passes through all words with its owner, and who waits does so in the
epoch of the evaluation. So a regime that is lawful, which is a matter of the epochs only, is kept
by every step (`Next.keeps`).
-/

namespace Catena

/-- What threads may do. -/
structure Regime where
  /-- On whose stacks a thread may work. -/
  works : Thread → Option ProcessId → Prop
  /-- On whose stacks, and in which epochs, a thread may wait. -/
  waits : Thread → Option ProcessId → Nat → Prop

namespace Regime

variable (g : Regime)

/-- Who may work may begin to wait, who waits and has not been given up may go on to work, and a
new process may work on its own stack. -/
structure Lawful (w : World) : Prop where
  park : ∀ {t owner}, g.works t owner → g.waits t owner w.scheduler.epoch
  wake : ∀ {t owner epoch}, g.waits t owner epoch → w.isAbandoned epoch = false → g.works t owner
  spawn : ∀ p : ProcessId, w.processes.size ≤ p.index → g.works (.process p) (some p)

/-- A continuation that may be gone on with on a stack. -/
def Lets (k : Continuation) (s : Stack) : Prop := ∀ t, k.thread? = some t → g.works t s.owner

/-- A continuation that may be resumed. -/
def LetsResume (k : Continuation) : Outcome → Prop
  | .ok s => g.Lets k s
  | .error _ => ∀ t, k.thread? = some t → ∃ owner, g.works t owner

/-- A waker that may wait. -/
def LetsWait : Waker → Prop
  | .resume epoch s k => ∀ t, k.thread? = some t → g.waits t s.owner epoch
  | .report _ => True

/-- A task that may be worked on. -/
def LetsTask : Task → Prop
  | .resume k outcome => g.LetsResume k outcome
  | .activate _ _ _ _ s k => g.Lets k s
  | .start p _ s => g.works (.process p) s.owner
  | .wakeReceiver _ waker | .wakeWaiter waker _ => g.LetsWait waker
  | .script _ => True

/-- What may go on inside a turn. -/
def LetsControl : Control → Prop
  | .rest => True
  | .run _ _ s k => g.Lets k s
  | .resume k outcome => g.LetsResume k outcome

/-- What may happen. -/
def LetsEffect : Effect → Prop
  | .later task | .schedule _ task => g.LetsTask task
  | .awaitVariable _ s k | .awaitProcess _ s k | .receive s k => g.Lets k s
  | .wakeReceiver _ waker | .wakeWaiter waker => g.LetsWait waker
  | _ => True

/-- All that is held and all that goes on is as it may be. -/
structure Keeps (m : Moment) : Prop where
  cells : Holders (fun _ _ => True) g.LetsTask (fun _ => g.LetsWait) m.world
  control : g.LetsControl m.control

variable {g} {w : World}

theorem Lets.error {k : Continuation} {s : Stack} {e : Error} (h : g.Lets k s) :
    g.LetsResume k (.error e) := fun t ht => ⟨s.owner, h t ht⟩

theorem Lets.congr {k : Continuation} {s s' : Stack} (h : g.Lets k s)
    (ho : s'.owner = s.owner) : g.Lets k s' := fun t ht => ho ▸ h t ht

theorem Lets.concludes {k : Continuation} {s : Stack} {outcome : Outcome} (h : g.Lets k s)
    (hc : w.Concludes s outcome) : g.LetsResume k outcome := by
  cases outcome with
  | ok t => exact h.congr hc.owner
  | error e => exact h.error

theorem Lawful.apply (h : g.Lawful w) {e : Effect} (hk : e.keepsPhase = true) :
    g.Lawful (w.apply e) := by
  have hp := w.samePhase_apply hk
  refine ⟨fun hw => hp.epoch ▸ h.park hw, fun hw ha => h.wake hw (hp.isAbandoned _ ▸ ha), ?_⟩
  exact fun p hle => h.spawn p ((w.grows_apply e).processes.trans hle)

theorem Lawful.passes (h : g.Lawful w) :
    Passes (fun _ _ => True) g.LetsTask (fun _ => g.LetsWait) w where
  waiter hk _ _ := hk
  joiner ha hk _ _ := fun t ht => h.wake (hk t ht) ha
  receiver hk := hk

theorem Lawful.brings (h : g.Lawful w) {e : Effect} (he : g.LetsEffect e) :
    e.Brings (fun _ _ => True) g.LetsTask (fun _ => g.LetsWait) w := by
  have hresume : ∀ {k s}, g.Lets k s → ∀ value : Value, True →
      g.LetsTask (.resume k (.ok (s.push value))) := fun hk _ _ => hk
  cases e with
  | later | schedule | wakeReceiver => exact he
  | spawn captured block parent => exact h.spawn _ le_rfl
  | awaitVariable | awaitProcess => exact ⟨hresume he, fun t ht => h.park (he t ht)⟩
  | receive s k =>
    exact ⟨fun _ value _ _ => hresume he value trivial, fun e _ => Lets.error (e := e) he,
      fun _ _ t ht => h.park (he t ht)⟩
  | _ => exact trivial

/-- **Effects keep a lawful regime.** -/
theorem Lawful.replay {es : List Effect} (h : g.Lawful w)
    (hc : Holders (fun _ _ => True) g.LetsTask (fun _ => g.LetsWait) w)
    (hk : ∀ e ∈ es, e.keepsPhase = true) (he : ∀ e ∈ es, g.LetsEffect e) :
    Holders (fun _ _ => True) g.LetsTask (fun _ => g.LetsWait) (w.replay es) := by
  induction es generalizing w with
  | nil => exact hc
  | cons e es ih =>
    obtain ⟨hk1, hks⟩ := List.forall_mem_cons.1 hk
    obtain ⟨he1, hes⟩ := List.forall_mem_cons.1 he
    exact ih (h.apply hk1) (hc.apply h.passes (h.brings he1)) hks hes

end Regime

/-! ## What a step does -/

section Steps

variable {g : Regime} {w : World} {env : EnvId} {s : Stack} {k : Continuation} {es : List Effect}

theorem SyncEffects.owner {t : Stack} (h : SyncEffects env s w es (.ok t)) :
    t.owner = s.owner := by
  cases h with
  | compute h | print _ h | define _ _ h | defun _ _ h | adopt _ h | newObject _ h
  | setProperty _ _ _ h | spawn _ h | deliver _ _ h | newVariable _ h | bind _ _ h =>
    exact h.owner

theorem SyncEffects.letsEffect {outcome : Outcome} (h : SyncEffects env s w es outcome) :
    ∀ e ∈ es, g.LetsEffect e := by
  cases h <;> simp [Regime.LetsEffect]

theorem SyncEffects.letsResume {outcome : Outcome} (h : SyncEffects env s w es outcome)
    (hk : g.Lets k s) : g.LetsResume k outcome := by
  cases outcome with
  | ok t => exact hk.congr h.owner
  | error e => exact hk.error

theorem AsyncEffects.letsEffect (h : AsyncEffects env s k w es) (hk : g.Lets k s) :
    ∀ e ∈ es, g.LetsEffect e := by
  have two : ∀ {d e : Effect}, g.LetsEffect d → g.LetsEffect e → ∀ f ∈ [d, e], g.LetsEffect f :=
    fun hd he => List.forall_mem_cons.2 ⟨hd, List.forall_mem_singleton.2 he⟩
  cases h with
  | resume hc => exact List.forall_mem_singleton.2 (hk.concludes hc)
  | report message ht => exact two trivial (hk.congr ht.owner)
  | activate exit hb ht => exact two trivial (hk.congr ht.owner)
  | iterate n hb ht => exact two trivial (hk.congr ht.owner)
  | callWord hp hb ht => exact two trivial (hk.congr ht.owner)
  | awaitVariable hv ht => exact List.forall_mem_singleton.2 (hk.congr ht.owner)
  | awaitProcess hp ht => exact List.forall_mem_singleton.2 (hk.congr ht.owner)
  | receive ht => exact List.forall_mem_singleton.2 (hk.congr ht.owner)
  | after due ht => exact List.forall_mem_singleton.2 (hk.congr ht.owner)
  | sync ht hs =>
    exact List.forall_mem_append.2
      ⟨hs.letsEffect, List.forall_mem_singleton.2 (hs.letsResume (hk.congr ht.owner))⟩
  | swallow hp hb => simp
  | stall hp hb => exact List.forall_mem_singleton.2 (hk.error (e := .stalled))

theorem Does.lets {c c' : Control} (h : Does w c es c') (hc : g.LetsControl c) :
    (∀ e ∈ es, g.LetsEffect e) ∧ g.LetsControl c' := by
  cases h with
  | finish => exact ⟨List.forall_mem_singleton.2 hc, trivial⟩
  | literal | value | goOn | skip => exact ⟨by simp, hc⟩
  | giveUp => exact ⟨by simp, hc⟩
  | block | unbound | leave | harvest => exact ⟨List.forall_mem_singleton.2 trivial, hc⟩
  | @unresolved env name code s k hv =>
    exact ⟨List.forall_mem_singleton.2 (Regime.Lets.error (e := .unresolvedWord name) hc), trivial⟩
  | call hv hs => exact ⟨hs.letsEffect, Regime.Lets.congr hc hs.owner⟩
  | fail hv hs =>
    exact ⟨List.forall_mem_append.2
      ⟨hs.letsEffect, List.forall_mem_singleton.2 (hs.letsResume hc)⟩, trivial⟩
  | takeOver hv ha => exact ⟨ha.letsEffect hc, trivial⟩
  | fillSlot | finishProcess => exact ⟨List.forall_mem_singleton.2 trivial, trivial⟩
  | enough => exact ⟨List.forall_mem_singleton.2 hc, trivial⟩
  | again =>
    exact ⟨List.forall_mem_cons.2 ⟨trivial, List.forall_mem_singleton.2 hc⟩, trivial⟩

theorem Begins.lets {task : Task} {c : Control} (h : Begins w task es c) (hg : g.Lawful w)
    (ht : g.LetsTask task) : (∀ e ∈ es, g.LetsEffect e) ∧ g.LetsControl c := by
  cases h with
  | resume => exact ⟨by simp, ht⟩
  | activate => exact ⟨List.forall_mem_singleton.2 trivial, ht⟩
  | start =>
    refine ⟨List.forall_mem_singleton.2 trivial, fun t hk => ?_⟩
    cases hk
    exact ht
  | receive ho =>
    rename_i m epoch s k message
    have ha := (World.take?_of_offer ho).2
    exact ⟨List.forall_mem_singleton.2 ht, fun t hk => hg.wake (ht t hk) ha⟩
  | refuse ho => exact ⟨List.forall_mem_singleton.2 ht, trivial⟩
  | wake ha => exact ⟨List.forall_mem_singleton.2 ht, fun t hk => hg.wake (ht t hk) ha⟩
  | pass ha => exact ⟨List.forall_mem_singleton.2 ht, trivial⟩

/-- **Every step keeps a lawful regime**, as long as evaluations begin as they may. -/
theorem Next.keeps {policy : Policy} {m m' : Moment} {es : List Event} (hn : Next policy m es m')
    (hg : g.Lawful m.world) (ha : ∀ e, policy.allows e → g.LetsEffect e)
    (hs : ∀ s, policy.starts m.world s → g.works (.main m.world.slots.size) s.owner)
    (h : g.Keeps m) : (∀ e ∈ effectsOf es, g.LetsEffect e) ∧ g.Keeps m' := by
  cases hn with
  | work hd =>
    obtain ⟨he, hc⟩ := hd.lets h.control
    rw [effectsOf_map]
    exact ⟨he, hg.replay h.cells hd.keepsPhase he, hc⟩
  | turn hr hb =>
    rename_i w c roots task rest es
    have htask := h.cells.ready task (by rw [hr]; simp)
    have hcells : Holders (fun _ _ => True) g.LetsTask (fun _ => g.LetsWait) (w.apply .beginTurn) :=
      h.cells.apply hg.passes trivial
    have hg' : g.Lawful (w.apply .beginTurn) := ⟨hg.park, hg.wake, hg.spawn⟩
    obtain ⟨he, hc⟩ := hb.lets hg' htask
    rw [effectsOf_map]
    exact ⟨List.forall_mem_cons.2 ⟨trivial, he⟩, hg'.replay hcells hb.keepsPhase he, hc⟩
  | evaluate strict program henv hst =>
    refine ⟨List.forall_mem_singleton.2 trivial,
      h.cells.apply (e := .launch strict program) hg.passes trivial, fun t ht => ?_⟩
    cases ht
    exact hs _ hst
  | install =>
    exact ⟨List.forall_mem_singleton.2 trivial, h.cells.apply (e := .install) hg.passes trivial,
      trivial⟩
  | outside he =>
    exact ⟨List.forall_mem_singleton.2 (ha _ he), h.cells.apply hg.passes (hg.brings (ha _ he)),
      h.control⟩

theorem Policy.letsEffect_of_turns (e : Effect) (h : Policy.turns.allows e) : g.LetsEffect e := by
  rcases h with rfl | rfl | rfl | ⟨elapsed, lapses, rfl⟩ <;> exact trivial

theorem Policy.letsEffect_of_evaluations {starts : World → Stack → Prop} (e : Effect)
    (h : (Policy.evaluations starts).allows e) : g.LetsEffect e := by
  rcases h with h | rfl | ⟨epoch, rfl⟩
  · exact Policy.letsEffect_of_turns e h
  · exact trivial
  · exact trivial

end Steps

end Catena
