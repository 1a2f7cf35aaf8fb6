import Catena.Proofs.Machine.Channels
import Catena.Proofs.Machine.Estates
import Catena.Proofs.Machine.Places

/-!
# Processes are isolated

Blocks are written once and run by many, and the snapshot of a block is taken once for all who run
it. So a process is isolated as far as the blocks written in its own block are concerned only as long
as nobody else takes their first snapshots (`Undisturbed`). Then what a word of its block means to it
was in the snapshot that it was made with, or was defined by itself, in every run.

The proof follows the continuation of the process: as long as all continuations work where they may,
whatever they do is something that may happen (`Does.stays`, `Begins.stays`), and the estate of the
process stays secure (`Run.secure`).
-/

namespace Catena

namespace Estate

variable {p : ProcessId} {g : Estate} {w : World}

/-- Along a sequence of events the blocks of an estate get no snapshots but the process's own. -/
def Undisturbed (p : ProcessId) (w : World) (g : Estate) : List Event → Prop
  | [] => True
  | e :: es => g.SnapshotsOwn p w e ∧ Undisturbed p (w.apply e.effect) (g.after p w e) es

theorem undisturbed_append {es fs : List Event} :
    g.Undisturbed p w (es ++ fs) ↔ g.Undisturbed p w es ∧
      (g.replay p w es).Undisturbed p (w.replay (effectsOf es)) fs := by
  induction es generalizing w g with
  | nil => exact (iff_of_eq (true_and _)).symm
  | cons e es ih => exact (and_congr_right fun _ => ih).trans and_assoc.symm

/-- **What may happen from the start keeps an estate secure to the end.** -/
theorem Secure.replay (h : Secure p g w) {es : List Event} (he : ∀ e ∈ es, g.LetsEvent p w e)
    (hu : g.Undisturbed p w es) :
    Secure p (g.replay p w es) (w.replay (effectsOf es)) ∧
      Extends p g w (g.replay p w es) (w.replay (effectsOf es)) := by
  induction es generalizing w g with
  | nil => exact ⟨h, .of_grows (.refl _) le_rfl⟩
  | cons e es ih =>
    obtain ⟨hfirst, hrest⟩ := List.forall_mem_cons.1 he
    have hext := h.extends_after e
    obtain ⟨hsecure, hlater⟩ :=
      ih (h.apply hfirst hu.1) (fun e' he' => hext.letsEvent (hrest e' he')) hu.2
    exact ⟨hsecure, hext.trans hlater⟩

/-! ## Continuations -/

theorem LetsRest.push {k : Continuation} (hk : g.LetsRest p w k) {frame : Frame}
    (hf : g.LetsFrame p w k.thread? frame) : g.LetsRest p w (k.push frame) :=
  List.forall_mem_cons.2 ⟨hf, hk⟩

theorem LetsRest.pop {frame : Frame} {frames : List Frame} {sink : Sink}
    (hk : g.LetsRest p w ⟨frame :: frames, sink⟩) :
    g.LetsFrame p w sink.thread? frame ∧ g.LetsRest p w ⟨frames, sink⟩ :=
  List.forall_mem_cons.1 hk

/-- A process at work has been made. -/
theorem lt_of_thread? {k : Continuation} (hk : k.Sound w) (ht : k.thread? = some (.process p)) :
    p.index < w.processes.size := by
  obtain ⟨t, hkt, hex⟩ := hk
  cases ht.symm.trans hkt
  exact hex

/-- A thread that takes the snapshot of a block may enter the block with it. -/
theorem Secure.letsEnter (h : Secure p g w) {k : Continuation} (hk : k.Sound w) {t : Option Thread}
    {env : EnvId} {block : Block} (hown : g.SnapshotsOwn p w ⟨t, .snapshot env block⟩) :
    g.LetsEnter p w k.thread? (w.instantiate env block).2 block :=
  fun ht => ⟨lt_of_thread? hk ht, h.captured hown⟩

end Estate

namespace World

/-- A block body gets one environment and two scopes. -/
theorem size_openActivation (w : World) (captured : Bindings Value) (own : Option (Name × Value)) :
    (w.openActivation captured own).1.forest.handles.size = w.forest.handles.size + 1 ∧
      (w.openActivation captured own).1.forest.scopes.size = w.forest.scopes.size + 2 := by
  have hseed : (w.forest.addEnv ⟨captured, none⟩).1.handles.size = w.forest.handles.size + 1 ∧
      (w.forest.addEnv ⟨captured, none⟩).1.scopes.size = w.forest.scopes.size + 1 :=
    ⟨Table.size_push _ _, Table.size_push _ _⟩
  have henter : ∀ (f : Forest Value) (e : EnvId),
      (f.enter e).handles.size = f.handles.size ∧ (f.enter e).scopes.size = f.scopes.size + 1 :=
    fun _ _ => ⟨Table.size_set _ _ _, Table.size_push _ _⟩
  cases own with
  | none => exact ⟨(henter _ _).1.trans hseed.1, (henter _ _).2.trans (congrArg (· + 1) hseed.2)⟩
  | some entry =>
    refine ⟨(henter _ _).1.trans hseed.1, (henter _ _).2.trans (congrArg (· + 1) ?_)⟩
    exact (Forest.size_scopes_define _ _ _ _).trans hseed.2

/-- The environment of a block body and the way back from it are new. -/
theorem openActivation_snd (w : World) (captured : Bindings Value) (own : Option (Name × Value)) :
    (w.openActivation captured own).2 =
      (⟨w.forest.handles.size⟩, ⟨⟨w.forest.handles.size⟩, ⟨w.forest.scopes.size⟩⟩) := by
  have hcurrent : (w.forest.handles.push ⟨w.forest.scopes.size⟩).get w.forest.handles.size =
      ⟨w.forest.scopes.size⟩ := by
    rw [Table.get, Table.get?_push, if_pos rfl]
    rfl
  cases own with
  | none => exact congrArg (fun s => (_, Guard.mk _ s)) hcurrent
  | some entry => exact congrArg (fun s => (_, Guard.mk _ s)) hcurrent

end World

/-! ## What a step does -/

section Steps

open Estate

variable {p : ProcessId} {g : Estate} {w : World} {env : EnvId} {s : Stack} {k : Continuation}
  {es : List Effect} {t : Option Thread}

theorem SyncEffects.stays {outcome : Outcome} (h : SyncEffects env s w es outcome)
    (he : g.Lets p w t env) : ∀ e ∈ es, g.LetsEvent p w ⟨t, e⟩ := by
  cases h with
  | define | adopt => exact List.forall_mem_singleton.2 he
  | defun => exact List.forall_mem_cons.2 ⟨trivial, List.forall_mem_singleton.2 he⟩
  | spawn => exact List.forall_mem_cons.2 ⟨trivial, List.forall_mem_singleton.2 trivial⟩
  | fail | compute => simp
  | print | newObject | setProperty | deliver | newVariable | bind =>
    exact List.forall_mem_singleton.2 trivial

theorem AsyncEffects.stays (h : AsyncEffects env s k w es) (hg : Secure p g w) (hk : k.Sound w)
    (he : g.Lets p w k.thread? env) (hr : g.LetsRest p w k)
    (hu : g.Undisturbed p w (es.map (⟨k.thread?, ·⟩))) :
    ∀ e ∈ es, g.LetsEvent p w ⟨k.thread?, e⟩ := by
  have two : ∀ {d e : Effect}, g.LetsEvent p w ⟨k.thread?, d⟩ → g.LetsEvent p w ⟨k.thread?, e⟩ →
      ∀ f ∈ [d, e], g.LetsEvent p w ⟨k.thread?, f⟩ :=
    fun hd he => List.forall_mem_cons.2 ⟨hd, List.forall_mem_singleton.2 he⟩
  cases h with
  | resume | awaitVariable | awaitProcess | receive | after | stall =>
    exact List.forall_mem_singleton.2 hr
  | report => exact two trivial hr
  | activate exit hb ht => exact two trivial ⟨hr, hg.letsEnter hk hu.1⟩
  | iterate n hb ht => exact two trivial ⟨hr.push he, hg.letsEnter hk hu.1⟩
  | callWord hp hb ht => exact two trivial ⟨hr, hg.letsEnter hk hu.1⟩
  | sync ht hs => exact List.forall_mem_append.2 ⟨hs.stays he, List.forall_mem_singleton.2 hr⟩
  | swallow => simp

/-- **A continuation that works where it may does what may happen**, and goes on where it may. -/
theorem Does.stays {c c' : Control} (h : Does w c es c') (hg : Secure p g w) (hs : c.Sound w)
    (hc : g.LetsControl p w c) (hu : g.Undisturbed p w (es.map (⟨c.thread?, ·⟩))) :
    (∀ e ∈ es, g.LetsEvent p w ⟨c.thread?, e⟩) ∧ g.LetsControl p w c' := by
  cases h with
  | finish => exact ⟨List.forall_mem_singleton.2 hc.2, trivial⟩
  | literal | value => exact ⟨by simp, hc⟩
  | block | unbound => exact ⟨List.forall_mem_singleton.2 trivial, hc⟩
  | unresolved => exact ⟨List.forall_mem_singleton.2 hc.2, trivial⟩
  | call hv hsync => exact ⟨hsync.stays hc.1, hc⟩
  | fail hv hsync =>
    exact ⟨List.forall_mem_append.2 ⟨hsync.stays hc.1, List.forall_mem_singleton.2 hc.2⟩, trivial⟩
  | takeOver hv ha => exact ⟨ha.stays hg hs.2 hc.1 (hc.2.push hc.1) hu, trivial⟩
  | fillSlot | finishProcess => exact ⟨List.forall_mem_singleton.2 trivial, trivial⟩
  | goOn => exact ⟨by simp, hc.pop⟩
  | skip | giveUp => exact ⟨by simp, hc.pop.2⟩
  | leave | harvest => exact ⟨List.forall_mem_singleton.2 hc.pop.1, hc.pop.2⟩
  | enough => exact ⟨List.forall_mem_singleton.2 hc.pop.2, trivial⟩
  | again =>
    refine ⟨List.forall_mem_cons.2 ⟨trivial, List.forall_mem_singleton.2 ?_⟩, trivial⟩
    exact ⟨hc.pop.2.push hc.pop.1, hg.letsEnter hs.1 hu.1⟩

/-- A thread that enters a block goes on in a new environment, which is in the estate if it is the
process that enters, and the block is one of its own. -/
theorem Estate.Secure.enter (hg : Secure p g w) {captured : Bindings Value} {block : Block}
    (own : Option (Name × Value)) (exit : Exit) (s : Stack) (hr : g.LetsRest p w k) :
    (g.after p w ⟨k.thread?, .enter captured own block⟩).LetsControl p
      (w.apply (.enter captured own block))
      (.run (w.openActivation captured own).2.1 block.code s
        (k.push (.exit exit (w.openActivation captured own).2.2))) := by
  have hext := hg.extends_after ⟨k.thread?, .enter captured own block⟩
  obtain ⟨hhandles, hscopes⟩ := w.size_openActivation captured own
  have henv : w.forest.handles.size < (w.apply (.enter captured own block)).forest.handles.size :=
    hhandles ▸ Nat.lt_succ_self _
  have hsaved : w.forest.scopes.size < (w.apply (.enter captured own block)).forest.scopes.size :=
    hscopes ▸ Nat.lt_add_of_pos_right Nat.two_pos
  rw [w.openActivation_snd captured own]
  refine ⟨⟨henv, fun hin => ?_⟩, (hext.letsRest hr).push ⟨hsaved, henv, ?_⟩⟩
  · simp only [after] at hin
    split at hin
    · rename_i hown
      exact hown.1
    · exact absurd hin hg.forest.new_env_notMem
  · simp only [after]
    split
    · exact iff_of_true (List.mem_cons_of_mem _ (List.mem_cons_self ..)) (List.mem_cons_self ..)
    · exact iff_of_false hg.forest.new_scope_notMem hg.forest.new_env_notMem

/-- **A turn begins where its task may work.** -/
theorem Begins.stays {task : Task} {c : Control} (h : Begins w task es c) (hg : Secure p g w)
    (hs : task.Sound w) (ht : g.LetsTask p w task)
    (hu : g.Undisturbed p w (es.map (⟨task.thread?, ·⟩))) :
    (∀ e ∈ es, g.LetsEvent p w ⟨task.thread?, e⟩) ∧
      (g.replay p w (es.map (⟨task.thread?, ·⟩))).LetsControl p (w.replay es) c := by
  have later : ∀ {c}, (∀ e ∈ es, g.LetsEvent p w ⟨task.thread?, e⟩) → g.LetsControl p w c →
      (∀ e ∈ es, g.LetsEvent p w ⟨task.thread?, e⟩) ∧
        (g.replay p w (es.map (⟨task.thread?, ·⟩))).LetsControl p (w.replay es) c := by
    intro c he hc
    have hext := (hg.replay (List.forall_mem_map.2 he) hu).2
    rw [effectsOf_map] at hext
    exact ⟨he, hext.letsControl hc⟩
  cases h with
  | resume => exact ⟨by simp, ht⟩
  | activate =>
    exact ⟨List.forall_mem_singleton.2 ht.2, hg.enter _ _ _ ht.1⟩
  | start =>
    obtain ⟨henv, hown⟩ := hg.processes.get hs.1
    refine later (List.forall_mem_singleton.2 trivial)
      ⟨⟨henv, fun hin => ?_⟩, fun frame hf => by cases hf⟩
    rename_i q code s
    exact congrArg (fun i => some (Thread.process ⟨i⟩)) (hown.1 hin)
  | receive ho => exact later (List.forall_mem_singleton.2 ht) ht
  | refuse ho => exact later (List.forall_mem_singleton.2 ht) trivial
  | wake ha => exact later (List.forall_mem_singleton.2 ht) ht
  | pass ha => exact later (List.forall_mem_singleton.2 ht) trivial

/-- The estate of a process is secure, and what goes on goes on where it may. No interpreter works in
it. -/
structure Estate.SecureAt (p : ProcessId) (g : Estate) (m : Moment) : Prop where
  world : Secure p g m.world
  control : g.LetsControl p m.world m.control
  roots : ∀ env ∈ m.roots, env.index < m.world.forest.handles.size ∧ env ∉ g.region.envs

/-- **A step keeps an estate secure.** -/
theorem Next.secureAt {policy : Policy} {m m' : Moment} {fs : List Event}
    (hn : Next policy m fs m') (ha : ∀ e, policy.allows e → g.LetsEvent p m.world ⟨none, e⟩)
    (hs : m.Sound) (h : SecureAt p g m) (hu : g.Undisturbed p m.world fs) :
    SecureAt p (g.replay p m.world fs) m' := by
  have roots : ∀ {w w' : World} {g' : Estate} {roots : List EnvId}, Extends p g w g' w' →
      (∀ env ∈ roots, env.index < w.forest.handles.size ∧ env ∉ g.region.envs) →
      ∀ env ∈ roots, env.index < w'.forest.handles.size ∧ env ∉ g'.region.envs := by
    intro w w' g' roots hext hroots env henv
    obtain ⟨hlt, hout⟩ := hroots env henv
    exact ⟨hlt.trans_le hext.forest.handles, fun hin => hout ((hext.mem_envs env hlt).1 hin)⟩
  cases hn with
  | work hd =>
    obtain ⟨he, hc⟩ := hd.stays h.world hs.control h.control hu
    obtain ⟨hsecure, hext⟩ := h.world.replay (List.forall_mem_map.2 he) hu
    rw [effectsOf_map] at hsecure hext
    exact ⟨hsecure, hext.letsControl hc, roots hext h.roots⟩
  | turn hr hb =>
    rename_i w c rs task rest es
    -- Taking the task off the queue leaves the estate as it is.
    have hext : Extends p g w g (w.apply .beginTurn) := h.world.extends_after ⟨none, .beginTurn⟩
    have hsecure : Secure p g (w.apply .beginTurn) :=
      h.world.apply (e := ⟨none, .beginTurn⟩) trivial trivial
    have htask := hext.letsTask (h.world.cells.ready task (by rw [hr]; simp))
    have hsound : task.Sound (w.apply .beginTurn) :=
      (hs.world.cells.ready task (by rw [hr]; simp)).mono (w.grows_apply _)
    obtain ⟨he, hc⟩ := hb.stays hsecure hsound htask hu.2
    obtain ⟨hend, hext'⟩ := hsecure.replay (List.forall_mem_map.2 he) hu.2
    rw [effectsOf_map] at hend hext'
    exact ⟨hend, hc, roots (hext.trans hext') h.roots⟩
  | evaluate strict program henv hst =>
    rename_i w rs env stack
    have hext : Extends p g w g (w.launch strict program) :=
      h.world.extends_after ⟨none, .launch strict program⟩
    obtain ⟨hlt, hout⟩ := h.roots env henv
    refine ⟨h.world.apply (e := ⟨none, .launch strict program⟩) trivial trivial, ?_,
      roots hext h.roots⟩
    exact hext.letsControl (c := .run _ _ _ _)
      ⟨⟨hlt, fun hin => absurd hin hout⟩, fun frame hf => by cases hf⟩
  | install =>
    rename_i w rs
    have hext : Extends p g w g w.newBuiltinRoot.1 := h.world.extends_after ⟨none, .install⟩
    refine ⟨h.world.apply (e := ⟨none, .install⟩) trivial trivial, trivial,
      List.forall_mem_cons.2 ⟨⟨h.world.forest_newBuiltinRoot.2, ?_⟩, roots hext h.roots⟩⟩
    exact h.world.forest.new_env_notMem
  | outside he =>
    rename_i w c rs e
    have hext := h.world.extends_after ⟨none, e⟩
    exact ⟨h.world.apply (ha _ he) hu.1, hext.letsControl h.control, roots hext h.roots⟩

/-- What the policy of evaluations lets happen besides turns may happen to every estate. -/
theorem Policy.letsEvent_of_evaluations {starts : World → Stack → Prop} (e : Effect)
    (h : (Policy.evaluations starts).allows e) : g.LetsEvent p w ⟨t, e⟩ := by
  rcases h with (rfl | rfl | rfl | ⟨elapsed, lapses, rfl⟩) | rfl | ⟨epoch, rfl⟩ <;> exact trivial

theorem Estate.secureAt_dawn (p : ProcessId) : SecureAt p {} .dawn where
  world := ⟨fun _ => ⟨rfl, rfl⟩, .empty, .empty, .empty, .empty⟩
  control := trivial
  roots env henv := by cases henv

/-- **The estate of a process is secure at every moment of any number of evaluations.** -/
theorem Run.secureAt {starts : World → Stack → Prop} (hst : ∀ w s, starts w s → s.Sound w)
    {m : Moment} {fs : List Event} (h : Run (.evaluations starts) .dawn fs m)
    (hu : Undisturbed p {} {} fs) : SecureAt p (Estate.replay p {} {} fs) m := by
  induction h with
  | refl => exact secureAt_dawn p
  | step hr hn ih =>
    obtain ⟨hbefore, hafter⟩ := undisturbed_append.1 hu
    have hsound := hr.sound (Policy.evaluations_sound hst) Moment.sound_dawn
    have hnext := hn.secureAt Policy.letsEvent_of_evaluations hsound (ih hbefore)
    rw [replay_append]
    rw [hr.world_eq] at hnext
    exact hnext hafter

end Steps

/-! ## Isolation -/

/-- The estate of a process after all that has happened. -/
def estateOf (p : ProcessId) (es : List Event) : Estate := Estate.replay p {} {} es

/-- A process is on its own: its environment is part of its estate, no other thread works in the
estate, and a name means there what it meant when the process was made or what the process itself
has made it mean. -/
structure Isolated (p : ProcessId) (m : Moment) (es : List Event) : Prop where
  home : p.index < m.world.processes.size →
    (m.world.process p).env ∈ (estateOf p es).region.envs
  alone : ∀ env code s k, m.control = .run env code s k → env ∈ (estateOf p es).region.envs →
    k.thread? = some (.process p)
  known : ∀ env ∈ (estateOf p es).region.envs, ∀ name v, m.world.lookup env name = some v →
    (estateOf p es).knows name v

/-- **Processes are isolated.** At every moment of any number of evaluations, whatever is defined by
others has no meaning in the estate of a process, as long as nobody else takes the first snapshots of
the blocks written in its block. Values of others come to its stack as messages, values of variables,
results of processes and properties of objects only. -/
theorem isolated {starts : World → Stack → Prop} (hst : ∀ w s, starts w s → s.Sound w)
    {m : Moment} {es : List Event} (h : Run (.evaluations starts) .dawn es m) (p : ProcessId) :
    (Estate.Undisturbed p {} {} es → Isolated p m es) ∧
      ∀ fs m', Next (.evaluations starts) m fs m' → ∀ v, m'.Has (.process p) v →
        m.Has (.process p) v ∨ Reaches p m fs v := by
  refine ⟨fun hu => ?_, fun fs m' hn v => ?_⟩
  · obtain ⟨hworld, hcontrol, -⟩ := h.secureAt hst hu
    refine ⟨fun hp => (hworld.processes.get hp).2.2 rfl, fun env code s k hc henv => ?_,
      fun env henv name v hv => hworld.forest.lookup henv hv⟩
    rw [hc] at hcontrol
    exact hcontrol.1.2 henv
  · exact hn.reaches (h.sound (Policy.evaluations_sound hst) Moment.sound_dawn) h.selfOwned

/-- A snapshot that is there after a block got its own was there before, or it is the block's. -/
theorem World.captured?_of_instantiate {w : World} {env : EnvId} {block : Block} {id : BlockId}
    {b : Bindings Value} (h : (w.instantiate env block).1.captured? id = some b) :
    w.captured? id = some b ∨ (w.instantiate env block).2 = b := by
  unfold instantiate at h ⊢
  cases hc : w.captured? block.id with
  | some c =>
    rw [hc] at h
    exact .inl h
  | none =>
    rw [hc] at h
    simp only [captured?, Table.get, Table.set, Table.get?_modify] at h ⊢
    split at h
    · cases hg : w.captures.get? id.index with
      | none => rw [hg] at h; cases h
      | some old => rw [hg] at h; exact .inr (Option.some.inj h)
    · exact .inl h

/-- Where the blocks written in a block have no snapshots, a process that is made from it finds no
snapshots of others. -/
theorem Estate.snapshotsOwn_spawn {p : ProcessId} {g : Estate} {w : World} {env : EnvId}
    {block : Block} (h : ∀ id ∈ Datum.blocksOf block.code, w.captured? id = none)
    (t : Option Thread) (parent : Option ProcessId) :
    g.SnapshotsOwn p (w.apply (.snapshot env block))
      ⟨t, .spawn (w.instantiate env block).2 block parent⟩ := by
  intro _ id hid b hb name v hv
  rcases World.captured?_of_instantiate hb with hold | hnew
  · rcases List.mem_cons.1 hid with rfl | hid
    · simpa only [World.instantiate, hold] using hv
    · cases (h id hid).symm.trans hold
  · exact hnew ▸ hv

/-- A run that leaves a process undisturbed, with one more step that does. -/
theorem Run.undisturbed_step {starts : World → Stack → Prop} {p : ProcessId} {m m' : Moment}
    {es fs : List Event}
    (h : Run (.evaluations starts) .dawn es m ∧ Estate.Undisturbed p {} {} es)
    (hn : Next (.evaluations starts) m fs m') (hu : (estateOf p es).Undisturbed p m.world fs) :
    Run (.evaluations starts) .dawn (es ++ fs) m' ∧ Estate.Undisturbed p {} {} (es ++ fs) := by
  refine ⟨h.1.step hn, Estate.undisturbed_append.2 ⟨h.2, ?_⟩⟩
  have hw : World.replay {} (effectsOf es) = m.world := h.1.world_eq.symm
  rw [hw]
  exact hu

/-- A process that defines a word of its own and writes a block with this word. -/
def secluded : Program :=
  [.block () [.symbol "a", .symbol "x", .word "def", .block () [.word "x"]], .word "go"]

/-- The process has defined its word and taken the snapshot of its block itself. -/
theorem isolated_secluded :
    ∃ es m, Run .free .dawn es m ∧ Estate.Undisturbed ⟨0⟩ {} {} es ∧ Isolated ⟨0⟩ m es ∧
      (∃ s k, m.control = .run ⟨1⟩ [] s k) ∧ m.world.lookup ⟨1⟩ "x" = some (.symbol "a") := by
  have h0 : Run .free .dawn [] .dawn ∧ Estate.Undisturbed ⟨0⟩ {} {} [] := ⟨.refl _, trivial⟩
  -- The main program makes the process.
  have h1 := Run.undisturbed_step h0 .install_fresh ⟨trivial, trivial⟩
  have h2 := Run.undisturbed_step h1
    (.evaluate false secluded (List.mem_singleton.2 rfl) (Stack.isFree_empty _)) ⟨trivial, trivial⟩
  have h3 := Run.undisturbed_step h2 (.work .block)
    ⟨fun hid => absurd hid List.not_mem_nil, trivial⟩
  have h4 := Run.undisturbed_step h3
    (.work (.call (p := ⟨34, "go", .state .go⟩) (by cbv)
      (@SyncEffects.spawn _ _ _ ⟨⟨0⟩, _⟩ .empty (List.mem_singleton.2 rfl)
        ⟨rfl, fun _ hv => by cases hv⟩)))
    ⟨fun hid => absurd hid List.not_mem_nil, Estate.snapshotsOwn_spawn (by decide +kernel) _ _,
      trivial⟩
  have h5 := Run.undisturbed_step h4 (.work .finish) ⟨trivial, trivial⟩
  -- The process works.
  have h6 := Run.undisturbed_step h5 (.turn rfl .start) ⟨trivial, trivial, trivial⟩
  have h7 := Run.undisturbed_step h6 (.work (.literal rfl)) trivial
  have h8 := Run.undisturbed_step h7 (.work (.literal rfl)) trivial
  have h9 := Run.undisturbed_step h8
    (.work (.call (p := ⟨28, "def", .state .define⟩) (by cbv)
      (.define "x" (v := .symbol "a") (t := World.firstStack none ⟨0⟩)
        (List.mem_cons_of_mem _ (List.mem_cons_self ..))
        ⟨rfl, fun _ hv => .kept (List.mem_cons_of_mem _ (List.mem_cons_of_mem _ hv))⟩)))
    ⟨trivial, trivial⟩
  have h10 := Run.undisturbed_step h9 (.work .block)
    ⟨fun _ _ => ⟨rfl, by decide +kernel⟩, trivial⟩
  exact ⟨_, _, h10.1, h10.2, (isolated Stack.IsFree.sound h10.1 ⟨0⟩).1 h10.2, ⟨_, _, rfl⟩, by cbv⟩

/-- Two processes from one block, each of which defines `x` as the message it gets and asks a block
written in its block for `x`. -/
def twins : Program :=
  [.block () [.word "drop", .word "drop", .word "receive", .symbol "x", .word "def",
      .block () [.word "x"], .word "do"], .symbol "b", .word "def",
    .word "b", .word "go", .symbol "p", .word "def", .word "b", .word "go", .symbol "q", .word "def",
    .symbol "one", .word "p", .word "post", .symbol "two", .word "q", .word "post",
    .word "p", .word "await", .word "q", .word "await"]

/-- **A process that is disturbed is not isolated**: the message to the second process is `two`, but
its block answers `one`, which is what the first process has defined. -/
theorem twins_not_isolated :
    ∃ (w : World) (i : Interpreter), Evaluated Stack.IsFree w [i] ∧
      (i.evaluate twins .empty w).2 = .ok ⟨[.symbol "one", .symbol "one"], none⟩ := by
  have h : Evaluated Stack.IsFree World.fresh [⟨⟨0⟩, { maxTurns := some 20 }⟩] := .fresh _
  exact ⟨_, _, h, by cbv⟩

end Catena
