import Catena.Proofs.Machine.Activations
import Catena.Proofs.Machine.Balance
import Mathlib

/-!
# Every activation has scopes of its own

Writing goes to the scope that an environment stands on, and environments are shared by everyone
who holds a continuation. So what has to be seen is that nobody goes on in an environment whose
scope has been left. Within a continuation this is so since it is nested (`Roster.Nested`): after
leaving a body it goes on in older environments only. And no other continuation mentions the
environment, since it belongs to the thread that leaves it, and a thread at work is not held anywhere
else (`Roster.Tidy.leave`). Hence code always runs on the frame of its own activation, and writes
there.
-/

namespace Catena

/-! ## Who works where -/

namespace Roster

section Fits

variable (r : Roster) (w : World)

/-- What a thread has left to do, from an environment on. It goes on in that environment until it
leaves the scope of the block body there, whose activation is its own and stands on the frame; then
it goes on in an older environment. In the end it is in an environment that it does not leave. -/
def Nested (t : Option Thread) : EnvId → List Frame → Prop
  | env, [] => ∃ a, r.find env = some a ∧ a.snapshot = none
  | env, .resume env' code :: frames =>
    env' = env ∧ (∃ a, r.find env = some a ∧ r.Runs t a code) ∧ Nested t env frames
  | env, .again env' _ _ :: frames => env' = env ∧ Nested t env frames
  | env, .exit _ guard :: frames =>
    (guard.env = env ∧ ∃ a, r.find env = some a ∧ a.thread = t ∧ a.snapshot = some guard.saved ∧
      w.forest.current env = a.frame) ∧
    ∃ env' : EnvId, env'.index < env.index ∧ Nested t env' frames

/-- A continuation that works where its thread may. -/
def Fits (k : Continuation) : Prop := ∃ env, r.Nested w k.thread? env k.frames

/-- A waker that works where its thread may. -/
def FitsWaker : Waker → Prop
  | .resume _ _ k => r.Fits w k
  | .report _ => True

/-- A task that works where its thread may. -/
def FitsTask : Task → Prop
  | .resume k _ | .activate _ _ _ _ _ k => r.Fits w k
  | .start p code _ => p.index < w.processes.size ∧
      ∃ a, r.find (w.process p).env = some a ∧ a.snapshot = none ∧ r.Runs (some (.process p)) a code
  | .wakeReceiver _ waker | .wakeWaiter waker _ => r.FitsWaker w waker
  | .script _ => True

/-- What may go on inside a turn. -/
def FitsControl : Control → Prop
  | .rest => True
  | .run env code _ k =>
    (∃ a, r.find env = some a ∧ r.Runs k.thread? a code) ∧ r.Nested w k.thread? env k.frames
  | .resume k _ => r.Fits w k

/-- What may happen, unless a scope is left. -/
def FitsEffect : Effect → Prop
  | .later task | .schedule _ task => r.FitsTask w task
  | .awaitVariable _ _ k | .awaitProcess _ _ k | .receive _ k => r.Fits w k
  | .wakeReceiver _ waker | .wakeWaiter waker => r.FitsWaker w waker
  | .restore _ | .harvest _ => False
  | _ => True

end Fits

/-- The environments are charted, the programs are listed, and all continuations work where they
may. -/
structure Tidy (r : Roster) (w : World) : Prop where
  charts : r.Charts w.forest
  programs : r.programs.length = w.slots.size
  cells : Holders (fun _ _ => True) (r.FitsTask w) (fun _ => r.FitsWaker w) w

/-! ## What lasts -/

/-- Later, the roster is longer and processes are as they were. -/
structure Extends (r : Roster) (w : World) (r' : Roster) (w' : World) : Prop where
  activations : r.activations <+: r'.activations
  programs : r.programs <+: r'.programs
  processes : ∀ p : ProcessId, p.index < w.processes.size →
    p.index < w'.processes.size ∧ (w'.process p).env = (w.process p).env

section Extends

variable {r r' r'' : Roster} {w w' w'' : World}

/-- The handles of the activations of a thread stay where they are. -/
def Stays (r : Roster) (w w' : World) (t : Option Thread) : Prop :=
  ∀ env a, r.find env = some a → a.thread = t → w'.forest.current env = w.forest.current env

namespace Extends

theorem find (h : Extends r w r' w') {env : EnvId} {a : Activation} (hf : r.find env = some a) :
    r'.find env = some a := by
  obtain ⟨rest, hr⟩ := h.activations
  have hlt := (List.getElem?_eq_some_iff.1 hf).1
  unfold Roster.find
  rw [← hr, List.getElem?_append_left hlt]
  exact hf

theorem runs (h : Extends r w r' w') {t : Option Thread} {a : Activation} {code : Code}
    (hr : r.Runs t a code) : r'.Runs t a code := by
  obtain ⟨rest, hp⟩ := h.programs
  obtain ⟨env, frame, snapshot, thread, body⟩ := a
  cases body with
  | some body => exact hr
  | none =>
    obtain ⟨slot, program, ht, hs, hc⟩ := hr
    have hlt := (List.getElem?_eq_some_iff.1 hs).1
    refine ⟨slot, program, ht, ?_, hc⟩
    rw [← hp, List.getElem?_append_left hlt]
    exact hs

theorem nested (h : Extends r w r' w') {t : Option Thread} {env : EnvId} {frames : List Frame}
    (hc : ∀ e a, r.find e = some a → a.thread = t → e.index ≤ env.index →
      w'.forest.current e = w.forest.current e)
    (hn : r.Nested w t env frames) : r'.Nested w' t env frames := by
  induction frames generalizing env with
  | nil =>
    obtain ⟨a, hf, hs⟩ := hn
    exact ⟨a, h.find hf, hs⟩
  | cons frame frames ih =>
    cases frame with
    | resume env' code =>
      obtain ⟨henv, ⟨a, hf, hr⟩, hn⟩ := hn
      exact ⟨henv, ⟨a, h.find hf, h.runs hr⟩, ih hc hn⟩
    | again env' block n => exact ⟨hn.1, ih hc hn.2⟩
    | exit kind guard =>
      obtain ⟨⟨henv, a, hf, ht, hs, hcur⟩, env', hlt, hn⟩ := hn
      refine ⟨⟨henv, a, h.find hf, ht, hs, (hc env a hf ht le_rfl).trans hcur⟩, env', hlt, ih ?_ hn⟩
      -- What comes after the exit is in an older environment.
      exact fun e b hb hbt hle => hc e b hb hbt (hle.trans hlt.le)

theorem fits (h : Extends r w r' w') {k : Continuation} (hc : r.Stays w w' k.thread?)
    (hk : r.Fits w k) : r'.Fits w' k := by
  obtain ⟨env, hn⟩ := hk
  exact ⟨env, h.nested (fun e a hf ht _ => hc e a hf ht) hn⟩

theorem fitsWaker (h : Extends r w r' w') {waker : Waker} (hc : r.Stays w w' waker.thread?)
    (hw : r.FitsWaker w waker) : r'.FitsWaker w' waker := by
  cases waker with
  | resume epoch s k => exact h.fits hc hw
  | report tag => exact trivial

theorem fitsTask (h : Extends r w r' w') {task : Task} (hc : r.Stays w w' task.thread?)
    (ht : r.FitsTask w task) : r'.FitsTask w' task := by
  cases task with
  | resume k outcome => exact h.fits hc ht
  | activate captured own block exit s k => exact h.fits hc ht
  | start p code s =>
    obtain ⟨hp, a, hf, hs, hr⟩ := ht
    obtain ⟨hp', henv⟩ := h.processes p hp
    exact ⟨hp', a, henv ▸ h.find hf, hs, h.runs hr⟩
  | wakeReceiver m waker => exact h.fitsWaker hc ht
  | wakeWaiter waker value => exact h.fitsWaker hc ht
  | script commands => exact trivial

theorem fitsControl (h : Extends r w r' w') {c : Control} (hc : r.Stays w w' c.thread?)
    (hfit : r.FitsControl w c) : r'.FitsControl w' c := by
  cases c with
  | rest => exact trivial
  | run env code s k =>
    obtain ⟨⟨a, hf, hr⟩, hn⟩ := hfit
    exact ⟨⟨a, h.find hf, h.runs hr⟩, h.nested (fun e a hf ht _ => hc e a hf ht) hn⟩
  | resume k outcome => exact h.fits hc hfit

theorem fitsEffect (h : Extends r w r' w') {e : Effect} (hc : ∀ t, r.Stays w w' t)
    (he : r.FitsEffect w e) : r'.FitsEffect w' e := by
  cases e with
  | later | schedule => exact h.fitsTask (hc _) he
  | awaitVariable | awaitProcess | receive => exact h.fits (hc _) he
  | wakeReceiver | wakeWaiter => exact h.fitsWaker (hc _) he
  | restore | harvest => exact he.elim
  | _ => exact trivial

end Extends

end Extends

section Apply

variable {r : Roster} {w : World}

/-- **Whatever happens, the roster only gets longer.** -/
theorem extends_after (r : Roster) (w : World) (e : Event) :
    Extends r w (r.after w e) (w.apply e.effect) := by
  obtain ⟨t, e⟩ := e
  refine ⟨?_, ?_, fun p hp => ?_⟩
  · cases e with
    | enter | spawn | install => exact List.prefix_append _ _
    | _ => exact List.prefix_rfl
  · cases e with
    | launch => exact List.prefix_append _ _
    | _ => exact List.prefix_rfl
  · refine ⟨hp.trans_le (w.grows_apply e).processes, ?_⟩
    by_cases hs : e.spawns = false
    · have ht := (w.sameTraits_apply hs).processes p.index
      rw [Table.get?_of_lt hp, Table.get?_of_lt (hp.trans_le (w.grows_apply e).processes)] at ht
      exact congrArg Prod.fst (Option.some.inj ht)
    · cases e with
      | spawn captured block parent => exact congrArg Process.env (Table.get_push_of_lt _ hp)
      | _ => exact absurd rfl hs

theorem FitsEffect.moves {e : Effect} (he : r.FitsEffect w e) : e.moves = none := by
  cases e with
  | restore | harvest => exact he.elim
  | _ => rfl

/-- The handles of all threads stay where they are unless a scope is left. -/
theorem Charts.stays (h : r.Charts w.forest) {e : Effect} (hm : e.moves = none)
    (t : Option Thread) : r.Stays w (w.apply e) t := by
  intro env a hf _
  exact (w.alters_apply e).current env (h.lt_of_find hf) (by simp [hm])

theorem passes (r : Roster) (w' w : World) :
    Passes (fun _ _ => True) (r.FitsTask w') (fun _ => r.FitsWaker w') w where
  waiter hk _ _ := hk
  joiner _ hk _ _ := hk
  receiver hk := hk

/-- What may happen brings in what fits. -/
theorem Charts.brings (h : r.Charts w.forest) {e : Event} (he : r.FitsEffect w e.effect) :
    e.effect.Brings (fun _ _ => True) ((r.after w e).FitsTask (w.apply e.effect))
      (fun _ => (r.after w e).FitsWaker (w.apply e.effect)) w := by
  have hext := r.extends_after w e
  obtain ⟨t, e⟩ := e
  cases e with
  | later | schedule => exact hext.fitsTask (h.stays rfl _) he
  | wakeReceiver => exact hext.fitsWaker (h.stays rfl _) he
  | awaitVariable | awaitProcess =>
    have hk := hext.fits (h.stays rfl _) he
    exact ⟨fun _ _ => hk, hk⟩
  | receive s k =>
    have hk := hext.fits (h.stays rfl _) he
    exact ⟨fun _ _ _ _ => hk, fun _ _ => hk, fun _ _ => hk⟩
  | spawn captured block parent =>
    have henv : ((w.apply (.spawn captured block parent)).process ⟨w.processes.size⟩).env =
        ⟨w.forest.handles.size⟩ := congrArg Process.env (Table.get_push_size _ _)
    have hfind := h.find_add (.ofProcess w block)
    rw [← henv] at hfind
    exact ⟨Table.size_lt_size_push _ _, _, hfind, rfl, rfl, List.suffix_rfl⟩
  | _ => exact trivial

theorem Tidy.programs_apply (h : r.Tidy w) (e : Event) :
    (r.after w e).programs.length = (w.apply e.effect).slots.size := by
  obtain ⟨t, e⟩ := e
  cases e with
  | launch strict program =>
    show (r.programs ++ [_]).length = (w.slots.push _).size
    rw [List.length_append, Table.size_push, h.programs]
    rfl
  | fillSlot index outcome => exact h.programs.trans (Table.size_set _ _ _).symm
  | _ => exact h.programs.trans (congrArg Table.size (w.slots_apply rfl)).symm

/-- **What may happen keeps everything tidy.** -/
theorem Tidy.apply (h : r.Tidy w) {e : Event} (he : r.FitsEffect w e.effect) :
    (r.after w e).Tidy (w.apply e.effect) := by
  have hext := r.extends_after w e
  have hstays := h.charts.stays he.moves
  refine ⟨h.charts.apply e (by simp [he.moves]), h.programs_apply e, ?_⟩
  have hcells := h.cells.imp (fun _ _ hv => hv) (fun _ => hext.fitsTask (hstays _)) fun _ _ =>
    hext.fitsWaker (hstays _)
  exact hcells.apply (passes _ _ w) (h.charts.brings he)

/-- Where a thread goes on, there is an activation, and the environment stands on its frame. -/
theorem Charts.frame_of_nested (h : r.Charts w.forest) {t : Option Thread} {env : EnvId}
    {frames : List Frame} (hn : r.Nested w t env frames) :
    ∃ a, r.find env = some a ∧ w.forest.current env = a.frame := by
  induction frames with
  | nil =>
    obtain ⟨a, hf, hs⟩ := hn
    exact ⟨a, hf, h.env env a hf ▸ (h.stands_of_find hf).current_of_none hs⟩
  | cons frame frames ih =>
    cases frame with
    | resume env' code => exact ih hn.2.2
    | again env' block n => exact ih hn.2
    | exit kind guard =>
      obtain ⟨⟨-, a, hf, -, -, hc⟩, -⟩ := hn
      exact ⟨a, hf, hc⟩

/-- Nothing but new things come about. -/
structure Lasts (r : Roster) (w : World) (r' : Roster) (w' : World) : Prop
    extends Extends r w r' w' where
  stays : ∀ t, r.Stays w w' t

theorem Lasts.refl (r : Roster) (w : World) : Lasts r w r w :=
  ⟨⟨List.prefix_rfl, List.prefix_rfl, fun _ hp => ⟨hp, rfl⟩⟩, fun _ _ _ _ _ => rfl⟩

theorem Lasts.trans {r' r'' : Roster} {w' w'' : World} (h : Lasts r w r' w')
    (h' : Lasts r' w' r'' w'') : Lasts r w r'' w'' where
  activations := h.activations.trans h'.activations
  programs := h.programs.trans h'.programs
  processes p hp := by
    obtain ⟨hp', he⟩ := h.processes p hp
    obtain ⟨hp'', he'⟩ := h'.processes p hp'
    exact ⟨hp'', he'.trans he⟩
  stays t env a hf ht := (h'.stays t env a (h.find hf) ht).trans (h.stays t env a hf ht)

theorem Tidy.lasts (h : r.Tidy w) {e : Event} (hm : e.effect.moves = none) :
    Lasts r w (r.after w e) (w.apply e.effect) := ⟨r.extends_after w e, h.charts.stays hm⟩

/-- **A sequence of what may happen keeps everything tidy.** -/
theorem Tidy.replay (h : r.Tidy w) (t : Option Thread) {es : List Effect}
    (he : ∀ e ∈ es, r.FitsEffect w e) :
    (Roster.replay w r (es.map (⟨t, ·⟩))).Tidy (w.replay es) ∧
      Lasts r w (Roster.replay w r (es.map (⟨t, ·⟩))) (w.replay es) := by
  induction es generalizing r w with
  | nil => exact ⟨h, .refl r w⟩
  | cons e es ih =>
    obtain ⟨hfirst, hrest⟩ := List.forall_mem_cons.1 he
    have hlasts := h.lasts (e := ⟨t, e⟩) hfirst.moves
    obtain ⟨htidy, hlasts'⟩ := ih (h.apply (e := ⟨t, e⟩) hfirst) fun d hd =>
      hlasts.fitsEffect hlasts.stays (hrest d hd)
    exact ⟨htidy, hlasts.trans hlasts'⟩

end Apply

end Roster

/-! ## The work of threads -/

section Steps

variable {r : Roster} {w : World} {env : EnvId} {s : Stack} {k : Continuation} {es : List Effect}

theorem SyncEffects.fits {outcome : Outcome} (h : SyncEffects env s w es outcome) :
    ∀ e ∈ es, r.FitsEffect w e := by
  cases h <;> simp [Roster.FitsEffect]

theorem AsyncEffects.fits (h : AsyncEffects env s k w es)
    (hk : r.Nested w k.thread? env k.frames) : ∀ e ∈ es, r.FitsEffect w e := by
  have hfit : r.Fits w k := ⟨env, hk⟩
  have two : ∀ {d e : Effect}, r.FitsEffect w d → r.FitsEffect w e →
      ∀ f ∈ [d, e], r.FitsEffect w f :=
    fun hd he => List.forall_mem_cons.2 ⟨hd, List.forall_mem_singleton.2 he⟩
  cases h with
  | resume | awaitVariable | awaitProcess | receive | after | stall =>
    exact List.forall_mem_singleton.2 hfit
  | report | activate | callWord => exact two trivial hfit
  | iterate n hb ht => exact two trivial ⟨env, rfl, hk⟩
  | sync ht hs => exact List.forall_mem_append.2 ⟨hs.fits, List.forall_mem_singleton.2 hfit⟩
  | swallow => simp

/-- An effect with which a scope is left. -/
def Effect.Leaves (guard : Guard) (e : Effect) : Prop := e = .restore guard ∨ e = .harvest guard

/-- The work of a turn leaves a scope, or all that happens may happen. -/
theorem Does.fits {c c' : Control} (h : Does w c es c') (hc : r.FitsControl w c) :
    (∀ e ∈ es, r.FitsEffect w e) ∧ r.FitsControl w c' ∨
      ∃ guard e kind frames sink outcome outcome', e.Leaves guard ∧ es = [e] ∧
        c = .resume ⟨.exit kind guard :: frames, sink⟩ outcome ∧
        c' = .resume ⟨frames, sink⟩ outcome' := by
  have goesOn : ∀ {env : EnvId} {d : Datum BlockId} {code : Code} {s t : Stack} {k : Continuation},
      r.FitsControl w (.run env (d :: code) s k) → r.FitsControl w (.run env code t k) := by
    rintro env d code s t k ⟨⟨a, hf, hr⟩, hn⟩
    exact ⟨⟨a, hf, hr.rest⟩, hn⟩
  cases h with
  | finish | unresolved => exact .inl ⟨List.forall_mem_singleton.2 ⟨_, hc.2⟩, trivial⟩
  | literal | value => exact .inl ⟨by simp, goesOn hc⟩
  | block | unbound => exact .inl ⟨List.forall_mem_singleton.2 trivial, goesOn hc⟩
  | call hv hs => exact .inl ⟨hs.fits, goesOn hc⟩
  | fail hv hs =>
    exact .inl ⟨List.forall_mem_append.2 ⟨hs.fits, List.forall_mem_singleton.2 ⟨_, hc.2⟩⟩, trivial⟩
  | takeOver hv ha =>
    obtain ⟨⟨a, hf, hr⟩, hn⟩ := hc
    exact .inl ⟨ha.fits ⟨rfl, ⟨a, hf, hr.rest⟩, hn⟩, trivial⟩
  | fillSlot | finishProcess => exact .inl ⟨List.forall_mem_singleton.2 trivial, trivial⟩
  | goOn =>
    obtain ⟨env', rfl, hr, hn⟩ := hc
    exact .inl ⟨by simp, hr, hn⟩
  | skip =>
    obtain ⟨env', rfl, -, hn⟩ := hc
    exact .inl ⟨by simp, _, hn⟩
  | leave => exact .inr ⟨_, _, _, _, _, _, _, .inl rfl, rfl, rfl, rfl⟩
  | harvest => exact .inr ⟨_, _, _, _, _, _, _, .inr rfl, rfl, rfl, rfl⟩
  | enough =>
    obtain ⟨env', rfl, hn⟩ := hc
    exact .inl ⟨List.forall_mem_singleton.2 ⟨_, hn⟩, trivial⟩
  | again =>
    obtain ⟨env', rfl, hn⟩ := hc
    refine .inl ⟨List.forall_mem_cons.2 ⟨trivial, List.forall_mem_singleton.2 ?_⟩, trivial⟩
    exact ⟨_, rfl, hn⟩
  | giveUp =>
    obtain ⟨env', rfl, hn⟩ := hc
    exact .inl ⟨by simp, _, hn⟩

/-- A turn begins where its thread may work. The body of a block gets an activation of its own. -/
theorem Begins.fits {task : Task} {c : Control} (h : Begins w task es c) (hr : r.Tidy w)
    (ht : r.FitsTask w task) :
    (∀ e ∈ es, r.FitsEffect w e) ∧
      (Roster.replay w r (es.map (⟨task.thread?, ·⟩))).FitsControl (w.replay es) c := by
  have lasts : ∀ e : Effect, e.moves = none →
      Roster.Lasts r w (r.after w ⟨task.thread?, e⟩) (w.apply e) :=
    fun e hm => hr.lasts (e := ⟨task.thread?, e⟩) hm
  cases h with
  | resume => exact ⟨by simp, ht⟩
  | @activate captured own block exit s k =>
    have hlasts := lasts (.enter captured own block) rfl
    obtain ⟨env, hn⟩ := ht
    obtain ⟨a, hf, -⟩ := hr.charts.frame_of_nested hn
    have hfind := hr.charts.find_add (.ofBody w k.thread? block)
    refine ⟨List.forall_mem_singleton.2 trivial, ⟨_, hfind, rfl, List.suffix_rfl⟩, ?_⟩
    rw [w.guard_openActivation captured own]
    obtain ⟨-, hcurrent⟩ := w.stands_openActivation captured own k.thread? block
    refine ⟨⟨rfl, _, hfind, rfl, rfl, hcurrent⟩, env, hr.charts.lt_of_find hf, ?_⟩
    exact hlasts.nested (fun e b hb ht _ => hlasts.stays _ e b hb ht) hn
  | @start p code s =>
    have hlasts := lasts (.markRunning p) rfl
    obtain ⟨hp, a, hf, hs, hruns⟩ := ht
    exact ⟨List.forall_mem_singleton.2 trivial,
      ⟨a, hlasts.find hf, hlasts.runs hruns⟩, a, hlasts.find hf, hs⟩
  | @receive m epoch s k message ho =>
    have hlasts := lasts (.wakeReceiver m (.resume epoch s k)) rfl
    exact ⟨List.forall_mem_singleton.2 ht, hlasts.fits (hlasts.stays _) ht⟩
  | @wake epoch s k value ha =>
    have hlasts := lasts (.wakeWaiter (.resume epoch s k)) rfl
    exact ⟨List.forall_mem_singleton.2 ht, hlasts.fits (hlasts.stays _) ht⟩
  | refuse ho | pass ha => exact ⟨List.forall_mem_singleton.2 ht, trivial⟩

end Steps

/-! ## Leaving a scope -/

section Leaving

variable {r : Roster} {w : World} {guard : Guard} {e : Effect}

namespace Effect.Leaves

theorem forest (h : e.Leaves guard) (w : World) : (w.apply e).forest = w.forest.restore guard := by
  rcases h with rfl | rfl <;> rfl

theorem moves (h : e.Leaves guard) : e.moves = some guard.env := by
  rcases h with rfl | rfl <;> rfl

theorem after (h : e.Leaves guard) (r : Roster) (w : World) (t : Option Thread) :
    r.after w ⟨t, e⟩ = r := by
  rcases h with rfl | rfl <;> rfl

theorem brings (h : e.Leaves guard) {V : Cell → Value → Prop} {T : Task → Prop}
    {K : Cell → Waker → Prop} (w : World) : e.Brings V T K w := by
  rcases h with rfl | rfl <;> exact trivial

end Effect.Leaves

/-- Leaving a scope moves the handle of no other activation. -/
theorem Roster.Charts.current_leave (h : r.Charts w.forest) (he : e.Leaves guard) {env : EnvId}
    {a : Activation} (hf : r.find env = some a) (hne : guard.env ≠ env) :
    (w.apply e).forest.current env = w.forest.current env :=
  (w.alters_apply e).current env (h.lt_of_find hf) (by simp [he.moves, hne])

/-- **A scope can be left since nobody else works there.** Its thread is not held anywhere, and the
activations of the other threads keep their handles. -/
theorem Roster.Tidy.leave (h : r.Tidy w) (he : e.Leaves guard) {a : Activation}
    (hf : r.find guard.env = some a) (hs : a.snapshot = some guard.saved) {t : Thread}
    (ht : a.thread = some t) (hheld : w.held t = 0) : r.Tidy (w.apply e) := by
  have hext := r.extends_after w ⟨none, e⟩
  have hprograms := h.programs_apply ⟨none, e⟩
  have hcharts := h.charts.apply ⟨none, e⟩ fun env b hm hb => by
    rw [he.moves] at hm
    cases hm
    cases hf.symm.trans hb
    rw [hs, he.forest w]
    exact congrArg some (Forest.current_moveTo_self _ _ (h.charts.lt_of_find hf)).symm
  rw [he.after] at hext hprograms hcharts
  have stays : ∀ u : Option Thread, u ≠ some t → r.Stays w (w.apply e) u := by
    intro u hu env b hb hbu
    refine h.charts.current_leave he hb ?_
    rintro rfl
    cases hf.symm.trans hb
    exact hu (hbu.symm.trans ht)
  refine ⟨hcharts, hprograms, ?_⟩
  have hcells := h.cells.and (World.holders_of_held_eq_zero hheld)
  have hcells := hcells.imp (fun _ _ _ => trivial)
    (fun _ hk => hext.fitsTask (stays _ hk.2) hk.1) fun _ _ hk => hext.fitsWaker (stays _ hk.2) hk.1
  exact hcells.apply (r.passes _ w) (he.brings w)

end Leaving

/-! ## Runs -/

/-- Everything is tidy, the thread at work works where it may, and interpreters have environments
that are never left. -/
structure Moment.Scoped (r : Roster) (m : Moment) : Prop where
  tidy : r.Tidy m.world
  control : r.FitsControl m.world m.control
  roots : ∀ env ∈ m.roots, ∃ a, r.find env = some a ∧ a.snapshot = none ∧ a.body = none

namespace Moment.Scoped

variable {r : Roster} {w w' : World} {c : Control} {roots : List EnvId}

theorem dawn : Moment.dawn.Scoped {} where
  tidy := ⟨.empty, rfl, .empty⟩
  control := trivial
  roots _ h := by cases h

theorem roots_extends {r' : Roster} (h : Scoped r ⟨w, c, roots⟩) (hext : Roster.Extends r w r' w') :
    ∀ env ∈ roots, ∃ a, r'.find env = some a ∧ a.snapshot = none ∧ a.body = none := by
  intro env henv
  obtain ⟨a, hf, ha⟩ := h.roots env henv
  exact ⟨a, hext.find hf, ha⟩

/-- The work of a turn, unless a scope is left. -/
theorem replay {c' : Control} {es : List Effect} (h : Scoped r ⟨w, c, roots⟩) (t : Option Thread)
    (he : ∀ e ∈ es, r.FitsEffect w e)
    (hc : (Roster.replay w r (es.map (⟨t, ·⟩))).FitsControl (w.replay es) c') :
    Scoped (Roster.replay w r (es.map (⟨t, ·⟩))) ⟨w.replay es, c', roots⟩ := by
  obtain ⟨htidy, hlasts⟩ := h.tidy.replay t he
  exact ⟨htidy, hc, h.roots_extends hlasts.toExtends⟩

/-- The work of a turn when a scope is left. -/
theorem leave {kind : Exit} {guard : Guard} {frames : List Frame} {sink : Sink}
    {outcome : Outcome} {e : Effect} {gone : List Thread}
    (h : Scoped r ⟨w, .resume ⟨.exit kind guard :: frames, sink⟩ outcome, roots⟩)
    (hs : Moment.Sound ⟨w, .resume ⟨.exit kind guard :: frames, sink⟩ outcome, roots⟩)
    (hb : Moment.Balanced ⟨w, .resume ⟨.exit kind guard :: frames, sink⟩ outcome, roots⟩ gone)
    (he : e.Leaves guard) (outcome' : Outcome) :
    Scoped r ⟨w.apply e, .resume ⟨frames, sink⟩ outcome', roots⟩ := by
  obtain ⟨env, ⟨rfl, a, hf, hat, hsnap, -⟩, env', hlt, hn⟩ := h.control
  obtain ⟨⟨t, ht, -⟩, -⟩ := hs.control
  have hheld : w.held t = 0 := hb.held_eq_zero ht
  have hext := r.extends_after w ⟨none, e⟩
  rw [he.after] at hext
  refine ⟨h.tidy.leave he hf hsnap (hat.trans ht) hheld, ⟨env', ?_⟩, h.roots_extends hext⟩
  refine hext.nested (fun env b hb _ hle => h.tidy.charts.current_leave he hb ?_) hn
  rintro rfl
  omega

end Moment.Scoped

/-- **A step keeps everybody where they may work.** -/
theorem Next.scoped {starts : World → Stack → Prop} {m m' : Moment} {es : List Event} {r : Roster}
    (hn : Next (.evaluations starts) m es m') (hs : m.Sound) {gone : List Thread}
    (hb : m.Balanced gone) (h : m.Scoped r) : m'.Scoped (Roster.replay m.world r es) := by
  cases hn with
  | @work w c c' roots es hd =>
    rcases hd.fits h.control with
      ⟨he, hc⟩ | ⟨guard, e, kind, frames, sink, o, o', he, rfl, rfl, rfl⟩
    · obtain ⟨-, hlasts⟩ := h.tidy.replay c.thread? he
      exact h.replay _ he (hlasts.fitsControl (hlasts.stays _) hc)
    · have hsame : Roster.replay w r ([e].map (⟨sink.thread?, ·⟩)) = r := he.after r w _
      have hleft := h.leave hs hb he o'
      rw [← hsame] at hleft
      exact hleft
  | @turn w c roots task rest es hr hbegin =>
    have htask := h.tidy.cells.ready task (by rw [hr]; simp)
    have hlasts := h.tidy.lasts (e := ⟨task.thread?, .beginTurn⟩) rfl
    have htidy := h.tidy.apply (e := ⟨task.thread?, .beginTurn⟩) trivial
    have hbegun : Moment.Scoped r ⟨w.apply .beginTurn, .rest, roots⟩ :=
      ⟨htidy, trivial, h.roots⟩
    obtain ⟨he, hc⟩ := hbegin.fits htidy (hlasts.fitsTask (hlasts.stays _) htask)
    exact hbegun.replay task.thread? he hc
  | @evaluate w roots env stack strict program henv hst =>
    have hlasts := h.tidy.lasts (e := ⟨none, .launch strict program⟩) rfl
    obtain ⟨a, hf, hsnap, hbody⟩ := h.roots env henv
    refine ⟨h.tidy.apply (e := ⟨none, .launch strict program⟩) trivial, ⟨⟨a, hf, ?_⟩, a, hf, hsnap⟩,
      h.roots_extends hlasts.toExtends⟩
    have hprogram : (r.programs ++ [(w.load program).2])[w.slots.size]? =
        some (w.load program).2 := by
      rw [← h.tidy.programs]
      exact List.getElem?_concat_length
    unfold Roster.Runs
    rw [hbody]
    exact ⟨_, _, rfl, hprogram, List.suffix_rfl⟩
  | @install w roots =>
    have hext := r.extends_after w ⟨none, .install⟩
    have hfind := h.tidy.charts.find_add (.ofInterpreter w)
    exact ⟨h.tidy.apply (e := ⟨none, .install⟩) trivial, trivial, List.forall_mem_cons.2
      ⟨⟨_, hfind, rfl, rfl⟩, h.roots_extends hext⟩⟩
  | @outside w c roots e hallow =>
    have he : r.FitsEffect w e := by
      rcases hallow with (rfl | rfl | rfl | ⟨elapsed, lapses, rfl⟩) | rfl | ⟨epoch, rfl⟩ <;> exact trivial
    have hlasts := h.tidy.lasts (e := ⟨none, e⟩) he.moves
    exact ⟨h.tidy.apply (e := ⟨none, e⟩) he, hlasts.fitsControl (hlasts.stays _) h.control,
      h.roots_extends hlasts.toExtends⟩

/-- The roster of all that has happened. -/
def roster (es : List Event) : Roster := Roster.replay {} {} es

theorem Run.roster_append {policy : Policy} {m : Moment} {es : List Event}
    (h : Run policy .dawn es m) (fs : List Event) :
    roster (es ++ fs) = Roster.replay m.world (roster es) fs := by
  rw [h.world_eq]
  exact Roster.replay_append {} {} es fs

/-- **Everybody works where they may**, at every moment of any number of evaluations. -/
theorem Run.scoped {m : Moment} {es : List Event} (h : Run .sound .dawn es m) :
    m.Scoped (roster es) := by
  induction h with
  | refl => exact Moment.Scoped.dawn
  | step hr hn ih =>
    have hst : ∀ (w : World) (s : Stack), s.Sound w → s.Sound w := fun _ _ hs => hs
    have hs := hr.sound (Policy.evaluations_sound hst) Moment.sound_dawn
    rw [hr.roster_append]
    exact hn.scoped hs (hr.balanced hst) ih

/-! ## Where is written -/

section Writes

variable {w : World} {env : EnvId} {s : Stack} {k : Continuation} {es : List Effect}

/-- An effect that writes in no environment but one, and leaves no scope. -/
def Effect.KeepsTo (env : EnvId) (e : Effect) : Prop :=
  (∀ env', e.writesIn = some env' → env' = env) ∧ e.moves = none

theorem SyncEffects.keepsTo {outcome : Outcome} (h : SyncEffects env s w es outcome) :
    ∀ e ∈ es, e.KeepsTo env := by
  cases h <;> simp [Effect.KeepsTo, Effect.writesIn, Effect.moves]

theorem AsyncEffects.keepsTo (h : AsyncEffects env s k w es) : ∀ e ∈ es, e.KeepsTo env := by
  cases h with
  | sync ht hs =>
    refine List.forall_mem_append.2 ⟨hs.keepsTo, ?_⟩
    simp [Effect.KeepsTo, Effect.writesIn, Effect.moves]
  | _ => simp [Effect.KeepsTo, Effect.writesIn, Effect.moves]

/-- Code writes in the environment that it is run in; nothing else writes. -/
theorem Does.keepsTo {c c' : Control} (h : Does w c es c') :
    (∃ env code s k, c = .run env code s k ∧ ∀ e ∈ es, e.KeepsTo env) ∨
      ∀ e ∈ es, e.writesIn = none := by
  cases h with
  | call hv hs => exact .inl ⟨_, _, _, _, rfl, hs.keepsTo⟩
  | fail hv hs =>
    refine .inl ⟨_, _, _, _, rfl, List.forall_mem_append.2 ⟨hs.keepsTo, ?_⟩⟩
    simp [Effect.KeepsTo, Effect.writesIn, Effect.moves]
  | takeOver hv ha => exact .inl ⟨_, _, _, _, rfl, ha.keepsTo⟩
  | _ => exact .inr (by simp [Effect.writesIn])

theorem Begins.writesIn {task : Task} {c : Control} (h : Begins w task es c) :
    ∀ e ∈ es, e.writesIn = none := by
  cases h <;> simp [Effect.writesIn]

/-- **A step changes only the scope that the code at work stands on.** -/
theorem Next.writes {starts : World → Stack → Prop} {m m' : Moment} {fs : List Event}
    {x : ScopeId} (hn : Next (.evaluations starts) m fs m')
    (henv : ∀ env code s k, m.control = .run env code s k → env.index < m.world.forest.handles.size)
    (hx : x.index < m.world.forest.scopes.size)
    (hne : m'.world.forest.scopes.get? x.index ≠ m.world.forest.scopes.get? x.index) :
    ∃ env code s k, m.control = .run env code s k ∧ m.world.forest.current env = x := by
  have silent : (∀ e ∈ effectsOf fs, e.writesIn = none) → False := by
    intro hsilent
    rw [hn.world_eq] at hne
    refine hne (World.scope_replay _ hx fun e he env henv => ?_)
    rw [hsilent e he] at henv
    cases henv
  cases hn with
  | @work w c c' roots es hd =>
    rw [effectsOf_map] at silent
    rcases hd.keepsTo with ⟨env, code, s, k, rfl, hkeep⟩ | hsilent
    · refine ⟨env, code, s, k, rfl, by_contra fun hcur => hne ?_⟩
      refine World.scope_replay _ hx fun e he env' henv' => ?_
      rw [(hkeep e he).1 env' henv']
      exact ⟨henv env code s k rfl, hcur, fun d hd => (hkeep d hd).2⟩
    · exact (silent hsilent).elim
  | turn hr h =>
    rw [effectsOf_map] at silent
    exact (silent (List.forall_mem_cons.2 ⟨rfl, h.writesIn⟩)).elim
  | evaluate strict program hroot hst => exact (silent (List.forall_mem_singleton.2 rfl)).elim
  | install => exact (silent (List.forall_mem_singleton.2 rfl)).elim
  | outside he =>
    refine (silent (List.forall_mem_singleton.2 ?_)).elim
    rcases he with (rfl | rfl | rfl | ⟨elapsed, lapses, rfl⟩) | rfl | ⟨epoch, rfl⟩ <;> rfl

end Writes

/-- The scopes that names are looked up in from `s` on. -/
inductive Forest.Reaches {α : Type} (f : Forest α) (s : ScopeId) : ScopeId → Prop
  | here : Reaches f s s
  | outer {x y : ScopeId} {scope : Scope α} (h : Reaches f s x)
      (hs : f.scopes.get? x.index = some scope) (ho : scope.outer = some y) : Reaches f s y

/-- An activation is at work: its code is being run, in its environment, on its frame. -/
def Roster.AtWork (r : Roster) (m : Moment) (a : Activation) : Prop :=
  ∃ code s k, m.control = .run a.env code s k ∧ r.Runs k.thread? a code ∧
    m.world.forest.current a.env = a.frame

theorem Roster.AtWork.current {r : Roster} {m : Moment} {a : Activation} (h : r.AtWork m a) :
    m.world.forest.current a.env = a.frame := by
  obtain ⟨_, _, _, -, -, hc⟩ := h
  exact hc

namespace Activation.Stands

variable {f : Forest Value} {a : Activation}

/-- The chain of an activation is its frame and its snapshot. -/
theorem reaches_iff (h : a.Stands f) {x : ScopeId} : f.Reaches a.frame x ↔ x ∈ a.scopes := by
  obtain ⟨scope, hscope, hout⟩ := Option.map_eq_some_iff.1 h.frame
  constructor
  · intro hx
    induction hx with
    | here => exact List.mem_cons_self ..
    | @outer x y other _ hs ho ih =>
      rcases List.mem_cons.1 ih with rfl | hmem
      · cases hscope.symm.trans hs
        exact List.mem_cons_of_mem _ (Option.mem_toList.2 (hout.symm.trans ho))
      · have hnone := (h.snapshot x (Option.mem_toList.1 hmem)).2
        rw [hs, Option.map_some, ho] at hnone
        cases hnone
  · intro hx
    rcases List.mem_cons.1 hx with rfl | hmem
    · exact .here
    · exact .outer .here hscope (hout.trans (Option.mem_toList.1 hmem))

theorem reaches_current (h : a.Stands f) : f.Reaches a.frame (f.current a.env) := by
  refine h.reaches_iff.2 ?_
  rcases h.current with hc | hc
  · exact hc ▸ List.mem_cons_self ..
  · exact List.mem_cons_of_mem _ (Option.mem_toList.2 hc)

theorem depth (h : a.Stands f) (hs : a.snapshot = none) : f.depth a.env = 1 := by
  obtain ⟨scope, hscope, hout⟩ := Option.map_eq_some_iff.1 h.frame
  unfold Forest.depth
  rw [h.current_of_none hs, Forest.chain_of_outermost hscope (hout.trans hs)]
  rfl

end Activation.Stands

namespace Roster.Charts

variable {r : Roster} {f : Forest Value}

/-- There is one activation for each environment. -/
theorem map_env (h : r.Charts f) :
    r.activations.map Activation.env = (List.range f.handles.size).map EnvId.mk := by
  refine List.ext_getElem? fun i => ?_
  rw [List.getElem?_map, List.getElem?_map]
  rcases Nat.lt_or_ge i f.handles.size with hi | hi
  · have hlt : i < r.activations.length := h.length ▸ hi
    have hfind : r.find ⟨i⟩ = some r.activations[i] := List.getElem?_eq_getElem hlt
    rw [List.getElem?_range hi, List.getElem?_eq_getElem hlt]
    exact congrArg some (h.env _ _ hfind)
  · have hle : r.activations.length ≤ i := h.length ▸ hi
    have hrange : (List.range f.handles.size).length ≤ i := List.length_range ▸ hi
    rw [List.getElem?_eq_none hle, List.getElem?_eq_none hrange]
    rfl

/-- A scope belongs to one activation only. -/
theorem eq_of_mem_scopes (h : r.Charts f) {a b : Activation} (ha : a ∈ r.activations)
    (hb : b ∈ r.activations) {x : ScopeId} (hxa : x ∈ a.scopes) (hxb : x ∈ b.scopes) : b = a := by
  by_contra hne
  have : Std.Symm fun a b : Activation => ∀ x ∈ a.scopes, x ∉ b.scopes :=
    ⟨fun a b hab x hx hxa => hab x hxa hx⟩
  exact h.apart.forall hb ha hne x hxb hxa

end Roster.Charts

namespace Moment.Scoped

variable {r : Roster} {m m' : Moment} {fs : List Event}

/-- The code that is being run is that of an activation at work. -/
theorem atWork (h : m.Scoped r) {env : EnvId} {code : Code} {s : Stack} {k : Continuation}
    (hc : m.control = .run env code s k) : ∃ a ∈ r.activations, r.AtWork m a ∧ a.env = env := by
  have hfit := h.control
  rw [hc] at hfit
  obtain ⟨⟨a, hf, hruns⟩, hn⟩ := hfit
  obtain ⟨b, hb, hcur⟩ := h.tidy.charts.frame_of_nested hn
  cases hf.symm.trans hb
  have henv := h.tidy.charts.env env a hf
  subst henv
  exact ⟨a, List.mem_of_getElem? hf, ⟨code, s, k, hc, hruns, hcur⟩, rfl⟩

/-- **A scope that changes is the frame of the activation at work.** -/
theorem writes (h : m.Scoped r) (hn : Next .sound m fs m') {x : ScopeId}
    (hx : x.index < m.world.forest.scopes.size)
    (hne : m'.world.forest.scopes.get? x.index ≠ m.world.forest.scopes.get? x.index) :
    ∃ a ∈ r.activations, r.AtWork m a ∧ x = a.frame := by
  have henv : ∀ env code s k, m.control = .run env code s k →
      env.index < m.world.forest.handles.size := by
    intro env code s k hc
    obtain ⟨a, ha, -, rfl⟩ := h.atWork hc
    exact h.tidy.charts.lt_of_find (h.tidy.charts.find_of_mem ha)
  obtain ⟨env, code, s, k, hc, rfl⟩ := hn.writes henv hx hne
  obtain ⟨a, ha, hwork, rfl⟩ := h.atWork hc
  exact ⟨a, ha, hwork, hwork.current⟩

/-- A step changes the snapshot of no activation. -/
theorem snapshot (h : m.Scoped r) (hn : Next .sound m fs m') {a : Activation}
    (ha : a ∈ r.activations) {s : ScopeId} (hs : a.snapshot = some s) :
    m'.world.forest.scopes.get? s.index = m.world.forest.scopes.get? s.index := by
  by_contra hne
  have hstands := h.tidy.charts.stands a ha
  have hmem : s ∈ a.scopes := List.mem_cons_of_mem _ (Option.mem_toList.2 hs)
  obtain ⟨b, hb, -, hframe⟩ := h.writes hn (hstands.lt_of_mem hmem) hne
  have heq := h.tidy.charts.eq_of_mem_scopes ha hb hmem (hframe ▸ List.mem_cons_self ..)
  subst heq
  exact hstands.frame_ne hs hframe.symm

end Moment.Scoped

/-- The activations stay on the roster. -/
theorem Roster.mem_replay {a : Activation} {r : Roster} (ha : a ∈ r.activations) (w : World)
    (es : List Event) : a ∈ (Roster.replay w r es).activations := by
  induction es generalizing w r with
  | nil => exact ha
  | cons e es ih => exact ih ((r.extends_after w e).activations.subset ha) _

/-- **The snapshot of an activation never changes.** -/
theorem Run.snapshot {m m' : Moment} {es fs : List Event} (h : Run .sound .dawn es m)
    (hr : Run .sound m fs m') {a : Activation} (ha : a ∈ (roster es).activations) {s : ScopeId}
    (hs : a.snapshot = some s) :
    m'.world.forest.scopes.get? s.index = m.world.forest.scopes.get? s.index := by
  induction hr with
  | refl => rfl
  | @step m' m'' fs gs hr hn ih =>
    have hscoped := (h.trans hr).scoped
    rw [h.roster_append] at hscoped
    exact (hscoped.snapshot hn (Roster.mem_replay ha m.world fs) hs).trans ih

/-- **Every activation has scopes of its own and writes to its frame only.** At every moment of any
number of evaluations there is one activation for each environment, and the code that is being run
is the code of its activation, on its frame. A scope that a step changes is the frame of the
activation at work and on the chain of no other; the scope of a snapshot never changes again. The
chains of two activations have no scope in common, the handle of an environment stays on the chain
of its activation, and the environments of interpreters have one scope only. -/
theorem writes_own_frame {m : Moment} {es : List Event} (h : Run .sound .dawn es m) :
    (roster es).activations.map Activation.env =
        (List.range m.world.forest.handles.size).map EnvId.mk ∧
      (∀ env code s k, m.control = .run env code s k →
        ∃ a ∈ (roster es).activations, (roster es).AtWork m a ∧ a.env = env) ∧
      (∀ fs m', Next .sound m fs m' → ∀ x : ScopeId, x.index < m.world.forest.scopes.size →
        m'.world.forest.scopes.get? x.index ≠ m.world.forest.scopes.get? x.index →
        ∃ a ∈ (roster es).activations, (roster es).AtWork m a ∧ x = a.frame ∧
          ∀ b ∈ (roster es).activations, m.world.forest.Reaches b.frame x → b = a) ∧
      (∀ fs m', Run .sound m fs m' → ∀ a ∈ (roster es).activations, ∀ s, a.snapshot = some s →
        m'.world.forest.scopes.get? s.index = m.world.forest.scopes.get? s.index) ∧
      (roster es).activations.Pairwise (fun a b => ∀ x,
        m.world.forest.Reaches a.frame x → ¬ m.world.forest.Reaches b.frame x) ∧
      (∀ a ∈ (roster es).activations,
        m.world.forest.Reaches a.frame (m.world.forest.current a.env)) ∧
      ∀ env ∈ m.roots, m.world.forest.depth env = 1 := by
  have hscoped := h.scoped
  have hcharts := hscoped.tidy.charts
  refine ⟨hcharts.map_env, fun env code s k => hscoped.atWork, ?_,
    fun fs m' hr a ha s => h.snapshot hr ha, ?_,
    fun a ha => (hcharts.stands a ha).reaches_current, ?_⟩
  · intro fs m' hn x hx hne
    obtain ⟨a, ha, hwork, rfl⟩ := hscoped.writes hn hx hne
    refine ⟨a, ha, hwork, rfl, fun b hb hreach => ?_⟩
    exact hcharts.eq_of_mem_scopes ha hb (List.mem_cons_self ..)
      ((hcharts.stands b hb).reaches_iff.1 hreach)
  · refine hcharts.apart.imp_of_mem fun ha hb hab x hx hx' => ?_
    exact hab x ((hcharts.stands _ ha).reaches_iff.1 hx) ((hcharts.stands _ hb).reaches_iff.1 hx')
  · intro env henv
    obtain ⟨a, hf, hs, -⟩ := hscoped.roots env henv
    rw [← hcharts.env env a hf]
    exact (hcharts.stands_of_find hf).depth hs

/-- The body of `[ :v :x def ] do` is about to define `x`. -/
theorem writes_own_frame_do :
    ∃ (es fs : List Event) (m m' : Moment), Run .sound .dawn es m ∧ Next .sound m fs m' ∧
      m'.world.forest.scopes.get? 2 ≠ m.world.forest.scopes.get? 2 ∧
      (∃ a ∈ (roster es).activations, (roster es).AtWork m a ∧ a.env = ⟨1⟩ ∧ a.frame = ⟨2⟩) ∧
      m.world.forest.depth ⟨0⟩ = 1 := by
  suffices key : ∃ (es fs : List Event) (m m' : Moment) (s : Stack) (k : Continuation),
      Run .sound .dawn es m ∧ Next .sound m fs m' ∧ m.control = .run ⟨1⟩ [.word "def"] s k ∧
        ⟨0⟩ ∈ m.roots ∧ 2 < m.world.forest.scopes.size ∧
        m'.world.forest.scopes.get? 2 ≠ m.world.forest.scopes.get? 2 by
    obtain ⟨es, fs, m, m', s, k, hrun, hnext, hc, hroot, hlt, hne⟩ := key
    obtain ⟨-, -, hwrites, -, -, -, hdepth⟩ := writes_own_frame hrun
    obtain ⟨a, ha, hwork, hframe, -⟩ := hwrites fs m' hnext ⟨2⟩ hlt hne
    have henv : a.env = ⟨1⟩ := by
      obtain ⟨code, t, k', hc', -, -⟩ := hwork
      rw [hc] at hc'
      injection hc' with henv
      exact henv.symm
    exact ⟨es, fs, m, m', hrun, hnext, hne, ⟨a, ha, hwork, henv, hframe.symm⟩, hdepth _ hroot⟩
  have hinstall : Run .sound .dawn _ _ := .one .install_fresh
  have hlaunch := hinstall.step (.evaluate false
    [.block () [.symbol "v", .symbol "x", .word "def"], .word "do"] (List.mem_singleton.2 rfl)
    (.empty _))
  have hpush := hlaunch.step (.work
    (@Does.block _ ⟨0⟩ ⟨0⟩ [.symbol "v", .symbol "x", .word "def"] [.word "do"] _ _))
  have hdo := hpush.step (.work (@Does.takeOver _ ⟨0⟩ "do" _ [] _ _ _ (by cbv)
    (@AsyncEffects.activate _ _ _ _ .leave ⟨⟨0⟩, [.symbol "v", .symbol "x", .word "def"]⟩
      Stack.empty (.kept (List.mem_singleton.2 rfl)) ⟨rfl, fun v hv => by cases hv⟩)))
  have henter := hdo.step (.turn rfl .activate)
  have hrun := (henter.step (.work (.literal rfl))).step (.work (.literal rfl))
  refine ⟨_, _, _, _, _, _, hrun, .work (@Does.call _ ⟨1⟩ "def" _ [] _ Stack.empty _ _ (by cbv)
    (.define "x" (v := .symbol "v") (List.mem_cons_of_mem _ (List.mem_singleton.2 rfl))
      ⟨rfl, fun v hv => by cases hv⟩)), rfl, List.mem_singleton.2 rfl, ?_, ?_⟩
  · cbv
  · refine ne_of_apply_ne (Option.map fun scope => (scope.bindings.get? "x").isSome) ?_
    cbv
    simp

end Catena
