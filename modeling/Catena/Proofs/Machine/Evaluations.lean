import Catena.Proofs.Machine.Sound

/-!
# Evaluations as runs

Taking turns, and so every evaluation, is a run (`leads_takeTurns`, `evaluate_ends`). An evaluation
ends in one of three ways: its outcome has been delivered, or nothing is left to do and it has not
(`stalled`), or it was cut off with tasks left (`cutOff`). Only in the last two its epoch is given
up. `Evaluated` says which worlds any number of evaluations lead to; between them no turn is being
taken.
-/

namespace Catena

/-! ## What may happen -/

/-- Besides the work of turns, taking turns only settles the timers and keeps count, while time goes
by. -/
def Policy.turns : Policy where
  allows e := e = .settle ∨ e = .endTurn ∨ e = .startClock ∨
    ∃ elapsed lapses, e = .pass elapsed lapses
  starts _ _ := False

/-- Any number of evaluations on stacks of a certain form, each of which may be given up. -/
def Policy.evaluations (starts : World → Stack → Prop) : Policy where
  allows e := Policy.turns.allows e ∨ e = .discard ∨ ∃ epoch, e = .abandon epoch
  starts := starts

theorem Policy.turns_pass (elapsed : Nat) (lapses : List Nat) :
    Policy.turns.allows (.pass elapsed lapses) := Or.inr (Or.inr (Or.inr ⟨elapsed, lapses, rfl⟩))

theorem Policy.turns_sound : Policy.turns.Sound where
  allows w e he := by rcases he with rfl | rfl | rfl | ⟨elapsed, lapses, rfl⟩ <;> exact trivial
  starts w s hs := hs.elim

theorem Policy.evaluations_sound {starts : World → Stack → Prop}
    (h : ∀ w s, starts w s → s.Sound w) : (Policy.evaluations starts).Sound where
  allows w e he := by
    rcases he with he | rfl | ⟨epoch, rfl⟩
    · exact turns_sound.allows w e he
    · exact trivial
    · exact trivial
  starts := h

/-- Any number of evaluations on stacks of sound values. -/
def Policy.sound : Policy := .evaluations fun w s => s.Sound w

/-- Taking turns is part of any number of evaluations. -/
theorem Run.of_turns {starts : World → Stack → Prop} {m m' : Moment} {es : List Event}
    (h : Run .turns m es m') : Run (.evaluations starts) m es m' := by
  have hs : ∀ w s, Policy.turns.starts w s → starts w s := fun _ _ hs => hs.elim
  exact h.mono (fun _ he => Or.inl he) hs

theorem Leads.of_turns {starts : World → Stack → Prop} {m m' : Moment}
    (h : Leads .turns m m') : Leads (.evaluations starts) m m' := by
  obtain ⟨es, h⟩ := h
  exact ⟨es, h.of_turns⟩

/-- What exists at some moment exists from then on. -/
theorem Leads.grows {policy : Policy} {m m' : Moment} (h : Leads policy m m') :
    m.world.Grows m'.world := by
  obtain ⟨es, h⟩ := h
  rw [h.world_eq]
  exact m.world.grows_replay _

/-! ## A turn keeps to itself -/

/-- What the work of a turn can do: what words do, and what becomes of continuations. -/
def Effect.isDeed : Effect → Bool
  | .beginTurn | .enter _ _ _ | .markRunning _ | .wakeWaiter _ | .wakeReceiver _ _ | .endTurn
  | .pass _ _ | .settle | .startClock | .abandon _ | .discard | .beginEpoch | .launch _ _
  | .install => false
  | _ => true

theorem SyncEffects.isDeed {env : EnvId} {s : Stack} {w : World} {es : List Effect}
    {outcome : Outcome} (h : SyncEffects env s w es outcome) : ∀ e ∈ es, e.isDeed = true := by
  cases h <;> simp [Effect.isDeed]

theorem AsyncEffects.isDeed {env : EnvId} {s : Stack} {k : Continuation} {w : World}
    {es : List Effect} (h : AsyncEffects env s k w es) : ∀ e ∈ es, e.isDeed = true := by
  cases h with
  | sync ht hs => exact List.forall_mem_append.2 ⟨hs.isDeed, List.forall_mem_singleton.2 rfl⟩
  | _ => simp [Effect.isDeed]

theorem Does.isDeed {w : World} {c c' : Control} {es : List Effect} (h : Does w c es c') :
    ∀ e ∈ es, e.isDeed = true := by
  cases h with
  | call hv hs => exact hs.isDeed
  | fail hv hs => exact List.forall_mem_append.2 ⟨hs.isDeed, List.forall_mem_singleton.2 rfl⟩
  | takeOver hv ha => exact ha.isDeed
  | _ => simp [Effect.isDeed]

theorem Effect.keepsPhase_of_isDeed {e : Effect} (h : e.isDeed = true) : e.keepsPhase = true := by
  cases e with
  | beginTurn | endTurn | abandon | beginEpoch | launch => cases h
  | _ => rfl

theorem Does.keepsPhase {w : World} {c c' : Control} {es : List Effect} (h : Does w c es c') :
    ∀ e ∈ es, e.keepsPhase = true := fun e he => e.keepsPhase_of_isDeed (h.isDeed e he)

theorem Begins.keepsPhase {w : World} {task : Task} {es : List Effect} {c : Control}
    (h : Begins w task es c) : ∀ e ∈ es, e.keepsPhase = true := by
  cases h <;> simp [Effect.keepsPhase]

theorem World.samePhase_replay {w : World} {es : List Effect}
    (h : ∀ e ∈ es, e.keepsPhase = true) : w.SamePhase (w.replay es) :=
  replay_induct (.refl w) fun v e he hv => hv.trans (v.samePhase_apply (h e he))

theorem Works.samePhase {w w' : World} {c c' : Control} (h : Works w c w' c') :
    w.SamePhase w' := by
  induction h with
  | refl w c => exact .refl w
  | step h _ ih => exact (World.samePhase_replay h.keepsPhase).trans ih

/-- A turn leaves the epochs as they are, and when it is over, it is over. -/
theorem World.samePhase_turn {w : World} {task : Task} {rest : List Task}
    (hr : w.scheduler.ready = task :: rest) (ht : task.thread?.isSome) :
    w.SamePhase (w.turn task rest) := by
  obtain ⟨es, c, hb, hw⟩ := begins_perform ht (w.apply .beginTurn)
  have h := (World.samePhase_replay hb.keepsPhase).trans hw.samePhase
  rw [World.turn_eq hr]
  refine ⟨h.epoch, h.abandoned, ?_⟩
  show ((w.apply .beginTurn).perform task).scheduler.dispatchDepth - 1 = _
  rw [h.depth]
  rfl

/-! ## Taking turns -/

/-- In a sound world every task goes on with a thread. -/
theorem Task.Sound.thread {r : World} {task : Task} (h : task.Sound r) : task.thread?.isSome := by
  cases task with
  | resume k outcome =>
    obtain ⟨⟨t, ht, -⟩, -⟩ := h
    exact Option.isSome_iff_exists.2 ⟨t, ht⟩
  | activate captured own block exit s k =>
    obtain ⟨-, -, -, t, ht, -⟩ := h
    exact Option.isSome_iff_exists.2 ⟨t, ht⟩
  | start p code s => rfl
  | wakeReceiver m waker =>
    cases waker with
    | resume epoch s k =>
      obtain ⟨⟨-, t, ht, -⟩, -⟩ := h
      exact Option.isSome_iff_exists.2 ⟨t, ht⟩
    | report tag => exact h.1.elim
  | wakeWaiter waker value =>
    cases waker with
    | resume epoch s k =>
      obtain ⟨⟨-, t, ht, -⟩, -⟩ := h
      exact Option.isSome_iff_exists.2 ⟨t, ht⟩
    | report tag => exact h.1.elim
  | script commands => cases h

theorem World.Sound.thread {w : World} (h : w.Sound w) {task : Task} {rest : List Task}
    (hr : w.scheduler.ready = task :: rest) : task.thread?.isSome :=
  (h.cells.ready task (by rw [hr]; simp)).thread

theorem Leads.sound {policy : Policy} (hp : policy.Sound) {m m' : Moment} (h : Leads policy m m')
    (hm : m.Sound) : m'.Sound := by
  obtain ⟨es, h⟩ := h
  exact h.sound hp hm

namespace World

variable {w : World} {task : Task} {rest : List Task}

theorem takeTurns_of_nil (h : w.tick.scheduler.ready = []) (fuel taken : Nat) :
    takeTurns fuel taken w = (w.tick, taken, true) := by
  rw [takeTurns.eq_def]
  simp only [h]

theorem takeTurns_zero (h : w.tick.scheduler.ready = task :: rest) (taken : Nat) :
    takeTurns 0 taken w = (w.tick, taken, false) := by
  rw [takeTurns.eq_def]
  simp only [h]

theorem takeTurns_succ (h : w.tick.scheduler.ready = task :: rest) (fuel taken : Nat) :
    takeTurns (fuel + 1) taken w = takeTurns fuel (taken + 1) (w.tick.turn task rest) := by
  rw [takeTurns.eq_def]
  simp only [h]

/-- What every effect keeps, passing time and settling keep. -/
theorem tick_induct {I : World → Prop} (h : I w)
    (hpass : ∀ elapsed lapses v, I v → I (v.apply (.pass elapsed lapses)))
    (hsettle : ∀ v, I v → I (v.apply .settle)) : I w.tick := by
  rw [tick_eq]
  exact hsettle _ (hpass _ _ w h)

theorem samePhase_tick (w : World) : w.SamePhase w.tick := by
  rw [tick_eq]
  exact (w.samePhase_apply (e := .pass _ _) rfl).trans (World.samePhase_apply _ rfl)

theorem Sound.tick (h : w.Sound w) : w.tick.Sound w.tick :=
  tick_induct (I := fun v => v.Sound v) h (fun _ _ _ hv => hv.apply trivial)
    fun _ hv => hv.apply trivial

/-- If nothing is ready when a turn is to be taken, no timer is pending either. -/
theorem timers_of_tick (h : w.tick.scheduler.ready = []) : w.tick.scheduler.timers = [] :=
  Scheduler.timers_of_settle h

end World

/-- Time goes by and the world settles, between two turns. -/
theorem leads_tick (w : World) (roots : List EnvId) :
    Leads .turns ⟨w, .rest, roots⟩ ⟨w.tick, .rest, roots⟩ := by
  rw [World.tick_eq]
  exact (Leads.outside (Policy.turns_pass _ _) roots).trans (.outside (Or.inl rfl) roots)

/-- What taking turns comes to: a run in one epoch, after which nothing is queued if nothing is
left to do. -/
structure TurnsTaken (roots : List EnvId) (w : World) (result : World × Nat × Bool) : Prop where
  leads : Leads .turns ⟨w, .rest, roots⟩ ⟨result.1, .rest, roots⟩
  phase : w.SamePhase result.1
  idle : result.2.2 = true → result.1.scheduler.ready = [] ∧ result.1.scheduler.timers = []

theorem turnsTaken (fuel taken : Nat) {w : World} (h : w.Sound w) (roots : List EnvId) :
    TurnsTaken roots w (World.takeTurns fuel taken w) := by
  induction fuel generalizing w taken with
  | zero =>
    cases hr : w.tick.scheduler.ready with
    | nil =>
      rw [World.takeTurns_of_nil hr]
      exact ⟨leads_tick w roots, w.samePhase_tick, fun _ => ⟨hr, World.timers_of_tick hr⟩⟩
    | cons task rest =>
      rw [World.takeTurns_zero hr]
      exact ⟨leads_tick w roots, w.samePhase_tick, fun hf => by cases hf⟩
  | succ fuel ih =>
    cases hr : w.tick.scheduler.ready with
    | nil =>
      rw [World.takeTurns_of_nil hr]
      exact ⟨leads_tick w roots, w.samePhase_tick, fun _ => ⟨hr, World.timers_of_tick hr⟩⟩
    | cons task rest =>
      have hs := h.tick
      have ht := hs.thread hr
      have hturn : Leads .turns ⟨w.tick, .rest, roots⟩ ⟨_, .rest, roots⟩ :=
        leads_turn hr ht (Or.inr (Or.inl rfl)) roots
      have hnext := ih (taken + 1) (hturn.sound Policy.turns_sound ⟨hs, trivial⟩).world
      rw [World.takeTurns_succ hr]
      exact ⟨((leads_tick w roots).trans hturn).trans hnext.leads,
        (w.samePhase_tick.trans (World.samePhase_turn hr ht)).trans hnext.phase, hnext.idle⟩

/-! ## Evaluations -/

/-- The ways in which an evaluation can end. It begins as `w.launch`, and `v` is the world once no
more turns are taken. -/
inductive Ends (w v : World) : World × Outcome → Prop
  | delivered {outcome : Outcome} (ho : v.outcome? w.slots.size = some outcome) :
      Ends w v (v, outcome)
  | stalled (ho : v.outcome? w.slots.size = none) (hr : v.scheduler.ready = [])
      (ht : v.scheduler.timers = []) :
      Ends w v (v.apply (.abandon (w.scheduler.epoch + 1)), .error .stalled)
  | cutOff (bound : Nat) :
      Ends w v ((v.apply (.abandon (w.scheduler.epoch + 1))).apply .discard,
        .error (.turnLimit bound))

/-- The moment after an evaluation has begun. -/
def Moment.begun (i : Interpreter) (program : Program) (stack : Stack) (w : World)
    (roots : List EnvId) : Moment :=
  ⟨w.launch i.settings.strictWords program,
    .run i.env (w.load program).2 stack (.deliver (.slot w.slots.size)), roots⟩

theorem sound_launch {w : World} (h : w.Sound w) (strict : Bool) (program : Program) :
    (w.launch strict program).Sound (w.launch strict program) :=
  h.apply (e := .launch strict program) trivial

theorem Moment.sound_begun (i : Interpreter) (program : Program) {stack : Stack} {w : World}
    (roots : List EnvId) (h : w.Sound w) (hs : stack.Sound w) :
    (begun i program stack w roots).Sound := by
  refine ⟨sound_launch h _ _, hs.mono (w.grows_apply (.launch _ _)), .main w.slots.size, rfl, ?_⟩
  exact Table.size_lt_size_push _ _

namespace Interpreter

/-- The world once an evaluation has begun and is waiting for its turns. -/
def begin (i : Interpreter) (program : Program) (stack : Stack) (w : World) : World :=
  ((w.launch i.settings.strictWords program).runThen i.env (w.load program).2 stack
    (.deliver (.slot w.slots.size))).apply .startClock

/-- The world after so many turns of an evaluation, or fewer if nothing is left to do. -/
def after (i : Interpreter) (n : Nat) (program : Program) (stack : Stack) (w : World) : World :=
  (World.takeTurns n 0 (i.begin program stack w)).1

/-- The number of turns that an evaluation may take. -/
def bound (i : Interpreter) : Nat := i.settings.maxTurns.getD World.turnCeiling

end Interpreter

section During

variable (i : Interpreter) (program : Program) {stack : Stack} {w : World} (roots : List EnvId)

theorem leads_begin (stack : Stack) (w : World) :
    Leads .turns (.begun i program stack w roots) ⟨i.begin program stack w, .rest, roots⟩ ∧
      (w.launch i.settings.strictWords program).SamePhase (i.begin program stack w) := by
  have hw := works_runThen i.env (w.load program).2 (w.launch i.settings.strictWords program) stack
    (.deliver (.slot w.slots.size))
  have hclock : Policy.turns.allows .startClock := Or.inr (Or.inr (Or.inl rfl))
  exact ⟨(Leads.of_works hw roots).trans (.outside hclock roots),
    hw.samePhase.trans (World.samePhase_apply _ (e := .startClock) rfl)⟩

/-- **At every point between two turns, an evaluation has come there by a run**, in its epoch. -/
theorem turnsTaken_after (h : w.Sound w) (hs : stack.Sound w) (n : Nat) :
    TurnsTaken roots (i.begin program stack w)
      (World.takeTurns n 0 (i.begin program stack w)) :=
  turnsTaken n 0 ((leads_begin i program roots stack w).1.sound Policy.turns_sound
    (Moment.sound_begun i program roots h hs)).world roots

theorem leads_after (h : w.Sound w) (hs : stack.Sound w) (n : Nat) :
    Leads .turns (.begun i program stack w roots) ⟨i.after n program stack w, .rest, roots⟩ ∧
      (w.launch i.settings.strictWords program).SamePhase (i.after n program stack w) := by
  obtain ⟨hl, hp⟩ := leads_begin i program roots stack w
  have ht := turnsTaken_after i program roots h hs n
  exact ⟨hl.trans ht.leads, hp.trans ht.phase⟩

/-- A drain outside of a turn takes turns from the start of the clock on. -/
theorem World.drain_of_takeTurns {u v : World} {limit : Option Nat} {taken : Nat} {idle : Bool}
    (hd : (u.apply .startClock).scheduler.dispatching = false)
    (hv : takeTurns (limit.getD turnCeiling) 0 (u.apply .startClock) = (v, taken, idle)) :
    u.drain limit =
      (v, if idle then .ok taken else .error (.turnLimit (limit.getD turnCeiling))) := by
  have hclock : u.mapScheduler ({ · with started := true }) = u.apply .startClock := rfl
  have hrest : u.scheduler.dispatching = false := hd
  simp only [drain, hrest, Bool.false_eq_true, if_false, hclock, hv]
  cases idle <;> rfl

/-- An evaluation launches its program, drains the world and then looks for the outcome. -/
theorem Interpreter.evaluate_eq (stack : Stack) (w : World) :
    i.evaluate program stack w =
      match ((w.launch i.settings.strictWords program).runThen i.env (w.load program).2 stack
        (.deliver (.slot w.slots.size))).drain i.settings.maxTurns with
      | (v, .error e) =>
        ((v.apply (.abandon (w.scheduler.epoch + 1))).apply .discard, .error e)
      | (v, .ok _) =>
        match v.outcome? w.slots.size with
        | some outcome => (v, outcome)
        | none => (v.apply (.abandon (w.scheduler.epoch + 1)), .error .stalled) :=
  rfl

/-- **An evaluation takes its turns and then ends.** -/
theorem evaluate_ends (h : w.Sound w) (hs : stack.Sound w)
    (hd : w.scheduler.dispatching = false) :
    Ends w (i.after i.bound program stack w) (i.evaluate program stack w) := by
  -- Neither the launch nor the start of the clock is a turn.
  have hrest : (i.begin program stack w).scheduler.dispatching = false :=
    (leads_begin i program [] stack w).2.dispatching.trans hd
  have ht := turnsTaken_after i program [] h hs i.bound
  rw [i.evaluate_eq, Interpreter.after]
  generalize hv : World.takeTurns i.bound 0 (i.begin program stack w) = result at ht ⊢
  obtain ⟨v, taken, idle⟩ := result
  rw [World.drain_of_takeTurns hrest hv]
  cases idle with
  | false => exact .cutOff _
  | true =>
    obtain ⟨hr, ht⟩ := ht.idle rfl
    simp only [if_true]
    cases ho : v.outcome? w.slots.size with
    | some outcome => exact .delivered ho
    | none => exact .stalled ho hr ht

end During

section Evaluated

variable {starts : World → Stack → Prop}

/-- The points between the turns of an evaluation. -/
theorem leads_during {i : Interpreter} (program : Program) {stack : Stack} {w : World}
    {roots : List EnvId} (h : w.Sound w) (hs : stack.Sound w) (hst : starts w stack)
    (hi : i.env ∈ roots) (n : Nat) :
    Leads (.evaluations starts) ⟨w, .rest, roots⟩ ⟨i.after n program stack w, .rest, roots⟩ :=
  (Leads.of_next (.evaluate i.settings.strictWords program hi hst)).trans
    (leads_after i program roots h hs n).1.of_turns

/-- However it ends, an evaluation is a run, and no turn is being taken afterwards. -/
theorem leads_evaluate {i : Interpreter} (program : Program) {stack : Stack} {w : World}
    {roots : List EnvId} (h : w.Sound w) (hs : stack.Sound w) (hst : starts w stack)
    (hi : i.env ∈ roots) (hd : w.scheduler.dispatching = false) :
    Leads (.evaluations starts) ⟨w, .rest, roots⟩ ⟨(i.evaluate program stack w).1, .rest, roots⟩ ∧
      (i.evaluate program stack w).1.scheduler.dispatching = false := by
  have he := evaluate_ends i program h hs hd
  have hv := leads_during program h hs hst hi i.bound
  have hdv : (i.after i.bound program stack w).scheduler.dispatching = false :=
    (leads_after i program roots h hs i.bound).2.dispatching.trans hd
  generalize i.after i.bound program stack w = v at he hv hdv
  have hgive : Leads (.evaluations starts) ⟨v, .rest, roots⟩
      ⟨v.apply (.abandon (w.scheduler.epoch + 1)), .rest, roots⟩ :=
    .outside (Or.inr (Or.inr ⟨_, rfl⟩)) roots
  generalize i.evaluate program stack w = result at he ⊢
  cases he with
  | delivered ho => exact ⟨hv, hdv⟩
  | stalled ho hr ht => exact ⟨hv.trans hgive, hdv⟩
  | cutOff bound =>
    have hdrop : Leads (.evaluations starts)
        ⟨v.apply (.abandon (w.scheduler.epoch + 1)), .rest, roots⟩
        ⟨(v.apply (.abandon (w.scheduler.epoch + 1))).apply .discard, .rest, roots⟩ :=
      .outside (Or.inr (Or.inl rfl)) roots
    exact ⟨(hv.trans hgive).trans hdrop, hdv⟩

variable (starts) in
/-- The worlds that any number of evaluations lead to, and the interpreters made on the way. Time
goes by as it likes, between evaluations and before every turn of one. -/
inductive Evaluated : World → List Interpreter → Prop
  | nothing : Evaluated {} []
  | new {w : World} {is : List Interpreter} (settings : Settings) (h : Evaluated w is) :
      Evaluated (Interpreter.new settings w).1 ((Interpreter.new settings w).2 :: is)
  | eval {w : World} {is : List Interpreter} {i : Interpreter} (source : String) {stack : Stack}
      (h : Evaluated w is) (hi : i ∈ is) (hs : starts w stack) :
      Evaluated (i.eval source stack w).1 is
  | pass {w : World} {is : List Interpreter} (elapsed : Nat) (lapses : List Nat)
      (h : Evaluated w is) : Evaluated (w.apply (.pass elapsed lapses)) is

/-- The first interpreter knows the built-in words, and there is nothing else. -/
theorem Evaluated.fresh (settings : Settings) :
    Evaluated starts World.fresh [⟨⟨0⟩, settings⟩] := by
  have h : Evaluated starts (Interpreter.new settings {}).1 [(Interpreter.new settings {}).2] :=
    .new settings .nothing
  rwa [Interpreter.new_empty] at h

/-- What any number of evaluations lead to, a run leads to. -/
theorem Evaluated.leads (hst : ∀ w s, starts w s → s.Sound w) {w : World} {is : List Interpreter}
    (h : Evaluated starts w is) :
    Leads (.evaluations starts) .dawn ⟨w, .rest, is.map Interpreter.env⟩ ∧
      w.scheduler.dispatching = false := by
  induction h with
  | nothing => exact ⟨.refl _, rfl⟩
  | new settings h ih =>
    rename_i w is
    exact ⟨ih.1.trans (.of_next .install), w.samePhase_newBuiltinRoot.dispatching.trans ih.2⟩
  | eval source h hi hs ih =>
    rename_i w is i stack
    unfold Interpreter.eval
    cases Program.read source with
    | error e => exact ih
    | ok program =>
      have hw := ih.1.sound (Policy.evaluations_sound hst) Moment.sound_dawn
      have he := leads_evaluate program hw.world (hst w stack hs) hs (List.mem_map_of_mem hi) ih.2
      exact ⟨ih.1.trans he.1, he.2⟩
  | pass elapsed lapses h ih =>
    exact ⟨ih.1.trans (.outside (Or.inl (Policy.turns_pass elapsed lapses)) _), ih.2⟩

theorem Evaluated.sound (hst : ∀ w s, starts w s → s.Sound w) {w : World} {is : List Interpreter}
    (h : Evaluated starts w is) : w.Sound w :=
  ((h.leads hst).1.sound (Policy.evaluations_sound hst) Moment.sound_dawn).world

/-- No epoch that is still to come has been given up. -/
theorem Evaluated.isAbandoned_of_lt (hst : ∀ w s, starts w s → s.Sound w) {w : World}
    {is : List Interpreter} (h : Evaluated starts w is) {epoch : Nat}
    (he : w.scheduler.epoch < epoch) : w.isAbandoned epoch = false := by
  induction h with
  | nothing => rfl
  | @new w is settings h ih =>
    have hp := w.samePhase_newBuiltinRoot
    have he' : w.newBuiltinRoot.1.scheduler.epoch < epoch := he
    rw [hp.epoch] at he'
    exact (hp.isAbandoned epoch).trans (ih he')
  | @eval w is i source stack h hi hs ih =>
    unfold Interpreter.eval at he ⊢
    cases hread : Program.read source with
    | error e => rw [hread] at he; exact ih he
    | ok program =>
      rw [hread] at he
      have hw := h.sound hst
      have hends := evaluate_ends i program hw (hst w stack hs) (h.leads hst).2
      have hphase := (leads_after i program [] hw (hst w stack hs) i.bound).2
      have hnow : (i.after i.bound program stack w).isAbandoned epoch = w.isAbandoned epoch :=
        hphase.isAbandoned epoch
      have hepoch : (i.after i.bound program stack w).scheduler.epoch = w.scheduler.epoch + 1 :=
        hphase.epoch
      dsimp only at he ⊢
      generalize i.evaluate program stack w = result at hends he ⊢
      generalize i.after i.bound program stack w = v at hends hnow hepoch
      have hgive : ∀ (h : w.scheduler.epoch + 1 < epoch),
          (v.apply (.abandon (w.scheduler.epoch + 1))).isAbandoned epoch = false := by
        intro hlt
        have hne : (epoch == w.scheduler.epoch + 1) = false := by
          simp only [beq_eq_false_iff_ne]
          omega
        have hab := Scheduler.isAbandoned_abandon v.scheduler (w.scheduler.epoch + 1) epoch
        rw [hne, Bool.false_or] at hab
        exact hab.trans (hnow.trans (ih (by omega)))
      cases hends with
      | delivered ho => exact hnow.trans (ih (by rw [hepoch] at he; omega))
      | stalled ho hr ht => exact hgive (hepoch ▸ he)
      | cutOff bound => exact hgive (hepoch ▸ he)
  | pass elapsed lapses h ih => exact ih he

end Evaluated

end Catena
