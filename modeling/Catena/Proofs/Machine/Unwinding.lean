import Catena.Proofs.Machine.Lifecycle
import Catena.Proofs.Machine.Points
import Catena.Proofs.Machine.Refusals
import Catena.Proofs.Machine.Scopes

/-!
# Failures unwind everything

A failure goes to the continuation like any outcome, as one task. When its turn comes, no frame of
the continuation does anything with it but leave the scope it guards: the rest of a program is
skipped, a repetition is given up, and nothing is harvested (`World.resume_error`). So however deep
the failing item of code was, one turn leaves all scopes and delivers the failure where the
continuation ends (`errors_unwind`).
-/

namespace Catena

/-! ## Items of code that fail -/

/-- A word fails on a stack: it is synchronous and returns the failure, or it takes over and refuses
its operands. -/
inductive Primitive.FailsOn (p : Primitive) (w : World) (env : EnvId) (s : Stack) : Error → Prop
  | returns {action : EnvId → Stack → Action Stack} {e : Error} (hc : p.call = .sync action)
      (he : ((action env s).run w).1 = .error e) : FailsOn p w env s e
  | refuses {word : ControlWord} {e : Error} (hb : p.behaviour = .control word)
      (he : word.fault? w s = some e) : FailsOn p w env s e

/-- An item of code fails: a word that nothing binds, under strict resolution, a word that fails, or
a message that is answered by a word that fails. -/
inductive World.Fails (w : World) (env : EnvId) (s : Stack) : Datum BlockId → Error → Prop
  | unresolved {name : Name} (hv : w.lookup env name = none) (hs : w.strict = true) :
      Fails w env s (.word name) (.unresolvedWord name)
  | word {name : Name} {p : Primitive} {e : Error} (hv : w.lookup env name = some (.primitive p))
      (hp : p.FailsOn w env s e) : Fails w env s (.word name) e
  | answer {name message : Name} {p q : Primitive} {o : ObjectId} {rest : Stack} {e : Error}
      (hv : w.lookup env name = some (.primitive p)) (hb : p.behaviour = .control .send)
      (ho : ControlWord.sendOperands ControlWord.send.name s = .ok (o, message, rest))
      (ha : w.answer? o message = some (.primitive q))
      (hq : q.FailsOn w env (rest.push (.object o)) e) : Fails w env s (.word name) e

section Fails

variable {w : World} {env : EnvId} {s : Stack} {d : Datum BlockId} {e : Error}

/-- A word that takes over and fails queues its failure. -/
theorem Primitive.FailsOn.start {p : Primitive} (h : p.FailsOn w env s e)
    {start : World → EnvId → Stack → Continuation → World} (hc : p.call = .async start)
    (k : Continuation) : start w env s k = w.later (.resume k (.error e)) := by
  cases h with
  | returns hc' he => rw [hc] at hc'; cases hc'
  | refuses hb he =>
    rw [p.call_of_control hb] at hc
    cases hc
    exact ControlWord.starter_of_fault he env

/-- So does a word that answers a message and fails. -/
theorem startSend_of_fails {q : Primitive} {o : ObjectId} {message : Name} {rest : Stack}
    (ho : ControlWord.sendOperands ControlWord.send.name s = .ok (o, message, rest))
    (ha : w.answer? o message = some (.primitive q))
    (hq : q.FailsOn w env (rest.push (.object o)) e) (k : Continuation) :
    ControlWord.startSend w env s k = w.later (.resume k (.error e)) := by
  simp only [ControlWord.startSend, ho, World.withOperands, ha]
  cases hq with
  | @returns action e hc he =>
    have hcall : q.callWith (ControlWord.startPlain .send) = .sync action := by
      rw [← hc]
      unfold Primitive.call
      unfold Primitive.call at hc
      unfold Primitive.callWith at hc ⊢
      cases hb : q.behaviour with
      | control word => cases word <;> simp only [hb] at hc <;> cases hc
      | _ => rfl
    have hworld := q.world_of_failure hc he
    simp only [hcall]
    generalize (action env (rest.push (.object o))).run w = result at he hworld
    obtain ⟨outcome, v⟩ := result
    cases he
    cases hworld
    rfl
  | @refuses word e hb he =>
    simp only [Primitive.callWith, hb]
    cases word with
    | send =>
      -- The object that was sent the message is on top, where `send` wants a message.
      cases he
      rfl
    | _ => exact ControlWord.starter_of_fault he env

/-- **An item of code that fails queues one task with its failure, and the turn is over.** -/
theorem advance_of_fails (h : w.Fails env s d e) (code : Code) (k : Continuation) :
    ∃ k', (k' = k ∨ k' = k.push (.resume env code)) ∧
      w.advance (.run env (d :: code) s (some k)) = (w.later (.resume k' (.error e)), .done) := by
  show ∃ k', _ ∧ w.advanceCode env d code s (some k) = _
  unfold World.advanceCode World.decode
  cases h with
  | unresolved hv hs =>
    refine ⟨k, .inl rfl, ?_⟩
    simp only [World.resolve, hv, hs]
    rfl
  | @word name p e hv hp =>
    simp only [World.resolve, hv]
    cases hc : p.call with
    | async start => exact ⟨_, .inr rfl, congrArg (·, Focus.done) (hp.start hc _)⟩
    | sync action =>
      refine ⟨k, .inl rfl, ?_⟩
      cases hp with
      | returns hc' he =>
        cases hc.symm.trans hc'
        have hworld := p.world_of_failure hc he
        dsimp only
        generalize (action env s).run w = result at he hworld
        obtain ⟨outcome, v⟩ := result
        cases he
        cases hworld
        rfl
      | refuses hb he => cases hc.symm.trans (p.call_of_control hb)
  | answer hv hb ho ha hq =>
    have hc := Primitive.call_of_control hb
    refine ⟨_, .inr rfl, ?_⟩
    simp only [World.resolve, hv, hc]
    exact congrArg (·, Focus.done) (startSend_of_fails ho ha hq _)

end Fails

/-! ## Continuations that fail -/

/-- The way out of a scope, if a frame leaves one. -/
def Frame.guard? : Frame → Option Guard
  | .exit _ guard => some guard
  | .resume _ _ | .again _ _ _ => none

/-- The ways out of the scopes that a continuation leaves, the innermost first. -/
def Continuation.guards (k : Continuation) : List Guard := k.frames.filterMap Frame.guard?

/-- **A failure leaves the scopes and is delivered**, and nothing else happens. -/
theorem World.resume_error (w : World) (k : Continuation) (e : Error) :
    w.resume k (.error e) = (k.guards.foldl World.restore w).deliverTo (.error e) k.sink := by
  obtain ⟨frames, sink⟩ := k
  simp only [resume, Continuation.guards]
  induction frames generalizing w with
  | nil => rfl
  | cons frame frames ih =>
    cases frame with
    | resume env code => exact ih w
    | again env block n => exact ih w
    | exit kind guard => cases kind <;> exact ih (w.restore guard)

/-! ## Scopes that are left -/

/-- The environment that a frame goes on in, or leaves. -/
def Frame.env : Frame → EnvId
  | .resume env _ | .again env _ _ => env
  | .exit _ guard => guard.env

namespace Roster.Nested

variable {r : Roster} {w : World} {t : Option Thread} {env : EnvId} {frames : List Frame}

/-- A thread is inside of every scope that it has yet to leave. -/
theorem inside (h : r.Nested w t env frames) {guard : Guard}
    (hg : guard ∈ frames.filterMap Frame.guard?) :
    guard.env.index ≤ env.index ∧ ∃ a, r.find guard.env = some a ∧
      a.snapshot = some guard.saved ∧ w.forest.current guard.env = a.frame := by
  induction frames generalizing env with
  | nil => cases hg
  | cons frame frames ih =>
    cases frame with
    | resume env' code => exact ih h.2.2 hg
    | again env' block n => exact ih h.2 hg
    | exit kind own =>
      obtain ⟨⟨henv, a, hf, -, hs, hc⟩, env', hlt, hn⟩ := h
      rcases List.mem_cons.1 hg with rfl | hg
      · exact ⟨henv ▸ le_rfl, a, henv ▸ hf, hs, henv ▸ hc⟩
      · exact (ih hn hg).imp_left fun hle => hle.trans hlt.le

/-- No two of these scopes are of one environment. -/
theorem pairwise (h : r.Nested w t env frames) :
    (frames.filterMap Frame.guard?).Pairwise fun guard other => guard.env ≠ other.env := by
  induction frames generalizing env with
  | nil => exact .nil
  | cons frame frames ih =>
    cases frame with
    | resume env' code => exact ih h.2.2
    | again env' block n => exact ih h.2
    | exit kind own =>
      obtain ⟨⟨henv, -⟩, env', hlt, hn⟩ := h
      refine List.pairwise_cons.2 ⟨fun guard hg heq => ?_, ih hn⟩
      have hle := (inside hn hg).1
      rw [← heq, henv] at hle
      omega

/-- Wherever a thread goes on, there is a scope that it has yet to leave, or none that it could
leave. -/
theorem guarded (h : r.Nested w t env frames) {env' : EnvId}
    (he : env' ∈ env :: frames.map Frame.env) :
    (∃ guard ∈ frames.filterMap Frame.guard?, guard.env = env') ∨
      ∃ a, r.find env' = some a ∧ a.snapshot = none := by
  induction frames generalizing env with
  | nil =>
    rw [List.mem_singleton.1 he]
    exact .inr h
  | cons frame frames ih =>
    cases frame with
    | resume inner code =>
      obtain ⟨rfl, -, hn⟩ := h
      refine ih hn ?_
      simpa [Frame.env] using he
    | again inner block n =>
      obtain ⟨rfl, hn⟩ := h
      refine ih hn ?_
      simpa [Frame.env] using he
    | exit kind own =>
      obtain ⟨⟨henv, -⟩, inner, -, hn⟩ := h
      have hown : env' = env ∨ env' ∈ frames.map Frame.env := by
        simpa [Frame.env, henv] using he
      rcases hown with rfl | he
      · exact .inl ⟨own, List.mem_cons_self .., henv⟩
      · refine (ih hn (List.mem_cons_of_mem _ he)).imp_left ?_
        rintro ⟨guard, hg, hguard⟩
        exact ⟨guard, List.mem_cons_of_mem _ hg, hguard⟩

end Roster.Nested

/-- The scopes of some environments are left. -/
def Forest.restoreAll (f : Forest Value) (guards : List Guard) : Forest Value :=
  guards.foldl Forest.restore f

namespace World

theorem foldl_restore (guards : List Guard) (w : World) :
    guards.foldl World.restore w = w.mapForest (·.restoreAll guards) := by
  induction guards generalizing w with
  | nil => rfl
  | cons guard guards ih => exact ih (w.restore guard)

end World

theorem Forest.current_restoreAll_of_ne (f : Forest Value) {guards : List Guard} {env : EnvId}
    (h : ∀ guard ∈ guards, guard.env ≠ env) : (f.restoreAll guards).current env = f.current env := by
  induction guards generalizing f with
  | nil => rfl
  | cons guard guards ih =>
    obtain ⟨hne, hrest⟩ := List.forall_mem_cons.1 h
    exact (ih (f.restore guard) hrest).trans (f.current_moveTo_of_ne _ hne)

/-- Every environment ends where its scope was entered. -/
theorem Forest.current_restoreAll {f : Forest Value} {guards : List Guard}
    (hp : guards.Pairwise fun guard other => guard.env ≠ other.env)
    (hlt : ∀ guard ∈ guards, guard.env.index < f.handles.size) {guard : Guard} (hg : guard ∈ guards) :
    (f.restoreAll guards).current guard.env = guard.saved := by
  induction guards generalizing f with
  | nil => cases hg
  | cons first guards ih =>
    obtain ⟨hfirst, hp⟩ := List.pairwise_cons.1 hp
    obtain ⟨hin, hrest⟩ := List.forall_mem_cons.1 hlt
    rcases List.mem_cons.1 hg with rfl | hg
    · refine ((f.restore guard).current_restoreAll_of_ne fun other ho => (hfirst other ho).symm).trans ?_
      exact f.current_moveTo_self _ hin
    · refine ih hp (fun other ho => ?_) hg
      rw [Forest.restore, Forest.moveTo, Table.size_set]
      exact hrest other ho

/-- On its snapshot an activation has one scope. -/
theorem Activation.Stands.depth_of_snapshot {f : Forest Value} {a : Activation} (h : a.Stands f)
    (hs : a.snapshot = some (f.current a.env)) : f.depth a.env = 1 := by
  obtain ⟨scope, hscope, hout⟩ := Option.map_eq_some_iff.1 (h.snapshot _ hs).2
  rw [Forest.depth, Forest.chain_of_outermost hscope hout]
  rfl

/-! ## Threads that are over -/

/-- A thread has come to its end. -/
def World.Over (w : World) : Thread → Prop
  | .main slot => ∃ outcome : Outcome, w.slots.get? slot = some (some outcome)
  | .process p => p.index < w.processes.size ∧ (w.process p).state = .done

section Over

variable {w : World} {t : Thread}

theorem World.Over.isUnfinished (h : w.Over t) : w.isUnfinished t = false := by
  cases t with
  | main slot =>
    obtain ⟨outcome, h⟩ := h
    simp only [World.isUnfinished, h]
  | process p =>
    refine Bool.eq_false_iff.2 fun hu => ?_
    exact (World.isUnfinished_process_iff.1 hu).2 h.2

/-- **A thread that is over stays so.** -/
theorem World.Over.apply (h : w.Over t) (e : Effect) : (w.apply e).Over t := by
  cases t with
  | main slot =>
    obtain ⟨outcome, h⟩ := h
    by_cases hk : e.keepsSlots = true
    · exact ⟨outcome, by rw [w.slots_apply hk, h]⟩
    cases e with
    | fillSlot index other =>
      show ∃ outcome, (w.slots.set index (some other)).get? slot = some (some outcome)
      rw [Table.set, Table.get?_modify]
      by_cases hi : index = slot
      · exact ⟨other, by simp [hi, h]⟩
      · exact ⟨outcome, by simp [hi, h]⟩
    | launch strict program =>
      refine ⟨outcome, ?_⟩
      show (w.slots.push none).get? slot = _
      rw [Table.get?_push, if_neg (Table.lt_of_get? h).ne, h]
    | _ => exact absurd rfl hk
  | process p =>
    refine ⟨h.1.trans_le (w.grows_apply e).processes, ?_⟩
    cases w.fares_apply p e with
    | stays hstate => exact hstate.trans h.2
    | begins _ hbefore => cases hbefore.symm.trans h.2
    | ends _ _ hend => rw [hend]; rfl

theorem World.Over.replay (h : w.Over t) (es : List Effect) : (w.replay es).Over t :=
  World.replay_induct (I := fun v => v.Over t) h fun _ e _ hv => hv.apply e

end Over

/-- Nothing of a thread that is over is left: it is never at work again, and not held anywhere. -/
theorem Run.over {m m' : Moment} {es fs : List Event} (h : Run .sound .dawn es m)
    (hr : Run .sound m fs m') {t : Thread} (ht : m.world.Over t) :
    m'.control.thread? ≠ some t ∧ m'.world.held t = 0 := by
  have hb := (h.trans hr).balanced fun _ _ hs => hs
  have hover : m'.world.isUnfinished t = false := by
    rw [hr.world_eq]
    exact (ht.replay _).isUnfinished
  refine ⟨fun hc => ?_, ?_⟩
  · rw [hb.isUnfinished hc] at hover
    cases hover
  · have hcount := hb t
    rw [hover, Bool.toNat_false] at hcount
    omega

/-! ## The turn of a failure -/

/-- Whoever gets the outcome in the end has got a failure. -/
def Sink.Got (e : Error) (w : World) : Sink → Prop
  | .slot index => w.outcome? index = some (.error e)
  | .finish p => (w.process p).EndedBy [.error e]
  | .report _ | .detached _ _ => False

/-- The tasks of those who wait for whoever gets a failure. -/
def Sink.calls (w : World) : Sink → List Task
  | .finish p => (w.process p).notify.flatMap (w.joined .nil)
  | .slot _ | .report _ | .detached _ _ => []

/-- What has become of a continuation that failed, one turn after `v`. The code that failed was run
in `env`. -/
structure World.Unwound (v : World) (env : EnvId) (k : Continuation) (e : Error) (rest : List Task)
    (u : World) : Prop where
  /-- The turn has left scopes and delivered the failure, and that is all. -/
  turn : u = ((k.guards.foldl World.restore (v.mapScheduler (·.beginTurn rest))).deliverTo
    (.error e) k.sink).mapScheduler Scheduler.endTurn
  /-- Whoever gets the outcome in the end has got the failure. -/
  got : k.sink.Got e u
  /-- Every scope has been left that was there to be left. -/
  left : ∀ guard ∈ k.guards,
    v.forest.current guard.env ≠ guard.saved ∧ u.forest.current guard.env = guard.saved
  /-- No body that had called another is in a scope of its own any more. -/
  depth : ∀ env' ∈ env :: k.frames.map Frame.env, u.forest.depth env' = 1
  /-- No vocabulary has been made. -/
  vocabularies : u.vocabularies = v.vocabularies
  /-- Nothing is queued but calls of those who waited for a process to end. -/
  queue : u.scheduler.ready = rest ++ k.sink.calls v

/-- What delivering a failure to a thread does. -/
structure World.Delivers (w : World) (sink : Sink) (t : Thread) (e : Error) (u : World) : Prop where
  got : sink.Got e u
  ended : u.Over t
  forest : u.forest = w.forest
  vocabularies : u.vocabularies = w.vocabularies
  ready : u.scheduler.ready = w.scheduler.ready ++ sink.calls w

/-- **A failure is delivered to a thread that is not over**, and that is the end of a turn. -/
theorem World.delivers {w : World} {sink : Sink} {t : Thread} (ht : sink.thread? = some t)
    (hu : w.isUnfinished t = true) (e : Error) :
    w.Delivers sink t e ((w.deliverTo (.error e) sink).mapScheduler Scheduler.endTurn) := by
  cases sink with
  | slot index =>
    cases ht
    obtain ⟨hin, -⟩ := isUnfinished_main_iff.1 hu
    have hslot : (w.slots.set index (some (.error e))).get? index = some (some (.error e)) := by
      rw [Table.set, Table.get?_modify, Table.get?_of_lt hin]
      simp
    exact {
      got := Table.get_eq_of_get? hslot
      ended := ⟨_, hslot⟩
      forest := rfl
      vocabularies := rfl
      ready := (List.append_nil _).symm }
  | finish p =>
    cases ht
    obtain ⟨hin, hs⟩ := isUnfinished_process_iff.1 hu
    have hq := finishProcess_of_ne_done hs (.error e)
    have hend : (w.finishProcess p (.error e)).process p = ended (w.process p) (.error e) :=
      process_finish hu (.error e)
    have hsize : p.index < (w.finishProcess p (.error e)).processes.size :=
      hin.trans_le (w.grows_apply (.finish p (.error e))).processes
    exact {
      got := by
        show ((w.finishProcess p (.error e)).process p).EndedBy [.error e]
        rw [hend]
        exact endedBy_ended _ _
      ended := ⟨hsize, congrArg Process.state hend⟩
      forest := hq.forest
      vocabularies := hq.vocabularies
      ready := hq.ready }
  | report tag => cases ht
  | detached env code => cases ht

/-- A task that is queued is of a thread that is not over. -/
theorem Moment.Balanced.isUnfinished_of_ready {m : Moment} {gone : List Thread} (h : m.Balanced gone)
    {task : Task} (hm : task ∈ m.world.scheduler.ready) {t : Thread} (ht : task.thread? = some t) :
    m.world.isUnfinished t = true := by
  have hpos : 0 < m.world.scheduler.ready.countP (Task.isOf t) :=
    List.countP_pos_iff.2 ⟨_, hm, decide_eq_true ht⟩
  have hheld := m.world.countP_ready_add_countWaiting_le t
  have hb := h t
  cases hu : m.world.isUnfinished t with
  | true => rfl
  | false =>
    rw [hu, Bool.toNat_false] at hb
    omega

section Unwinding

variable {v u : World} {r r' : Roster} {k : Continuation}

/-- A continuation leaves the scopes that its thread is inside of. -/
theorem Roster.Charts.leaves (h : r.Charts v.forest) (hk : r.Fits v k)
    (hu : u.forest = v.forest.restoreAll k.guards) {guard : Guard} (hg : guard ∈ k.guards) :
    v.forest.current guard.env ≠ guard.saved ∧ u.forest.current guard.env = guard.saved := by
  obtain ⟨env, hn⟩ := hk
  obtain ⟨-, a, hf, hs, hc⟩ := hn.inside hg
  refine ⟨?_, ?_⟩
  · rw [hc]
    exact (h.stands_of_find hf).frame_ne hs
  · rw [hu]
    refine Forest.current_restoreAll hn.pairwise (fun other ho => ?_) hg
    obtain ⟨-, b, hb, -⟩ := hn.inside ho
    exact h.lt_of_find hb

/-- Wherever the thread went on, it is in no scope of a body any more. -/
theorem Roster.Charts.depth_of_leaves (h : r.Charts v.forest) (hk : r.Fits v k)
    (hu : u.forest = v.forest.restoreAll k.guards) (h' : r'.Charts u.forest)
    (hsub : ∀ a ∈ r.activations, a ∈ r'.activations) {env : EnvId}
    (he : (∃ guard ∈ k.guards, guard.env = env) ∨ ∃ a, r.find env = some a ∧ a.snapshot = none) :
    u.forest.depth env = 1 := by
  have hstands : ∀ {a : Activation}, r.find env = some a → a.env = env ∧ a.Stands u.forest :=
    fun hf => ⟨h.env _ _ hf, h'.stands _ (hsub _ (List.mem_of_getElem? hf))⟩
  rcases he with ⟨guard, hg, rfl⟩ | ⟨a, hf, hs⟩
  · obtain ⟨-, hcurrent⟩ := h.leaves hk hu hg
    obtain ⟨env', hn⟩ := hk
    obtain ⟨-, a, hf, hs, -⟩ := hn.inside hg
    obtain ⟨ha, hst⟩ := hstands hf
    rw [← ha] at hcurrent ⊢
    exact hst.depth_of_snapshot (hs.trans (congrArg some hcurrent.symm))
  · obtain ⟨ha, hst⟩ := hstands hf
    rw [← ha]
    exact hst.depth hs

/-- **One turn unwinds everything**, whenever it comes. -/
theorem Run.unwound {roots : List EnvId} {es : List Event} {e : Error} {rest : List Task}
    {env : EnvId} (h : Run .sound .dawn es ⟨v, .rest, roots⟩)
    (hr : v.scheduler.ready = .resume k (.error e) :: rest)
    (henv : (∃ guard ∈ k.guards, guard.env = env) ∨
      ∃ a, (roster es).find env = some a ∧ a.snapshot = none) :
    v.Unwound env k e rest (v.turn (.resume k (.error e)) rest) ∧
      ∃ t, k.thread? = some t ∧ (v.turn (.resume k (.error e)) rest).Over t := by
  have hst : ∀ (w : World) (s : Stack), s.Sound w → s.Sound w := fun _ _ hs => hs
  have hmem : .resume k (.error e) ∈ v.scheduler.ready := by rw [hr]; exact List.mem_cons_self ..
  have hsound := h.sound (Policy.evaluations_sound hst) Moment.sound_dawn
  obtain ⟨⟨t, ht, -⟩, -⟩ := hsound.world.cells.ready _ hmem
  have hunfinished := (h.balanced hst).isUnfinished_of_ready hmem (t := t) ht
  have hcharts := h.scoped.tidy.charts
  have hfits : (roster es).Fits v k := h.scoped.tidy.cells.ready _ hmem
  obtain ⟨env₀, hn⟩ := hfits
  -- The roster charts the environments after the turn too.
  have hsome : (Task.resume k (.error e)).thread?.isSome := Option.isSome_iff_exists.2 ⟨t, ht⟩
  have hends : Policy.sound.allows .endTurn := .inl (.inr (.inl rfl))
  obtain ⟨fs, hrun⟩ := leads_turn hr hsome hends roots
  have hcharts' := (h.trans hrun).scoped.tidy.charts
  have hsub : ∀ a ∈ (roster es).activations, a ∈ (roster (es ++ fs)).activations := by
    intro a ha
    rw [h.roster_append]
    exact Roster.mem_replay ha _ _
  have hturn : v.turn (.resume k (.error e)) rest =
      ((k.guards.foldl World.restore (v.mapScheduler (·.beginTurn rest))).deliverTo
        (.error e) k.sink).mapScheduler Scheduler.endTurn :=
    congrArg (·.mapScheduler Scheduler.endTurn) (World.resume_error _ k e)
  have hd := World.delivers (w := (v.mapScheduler (·.beginTurn rest)).mapForest
    (·.restoreAll k.guards)) ht ((World.isUnfinished_congr rfl rfl t).trans hunfinished) e
  rw [← World.foldl_restore, ← hturn] at hd
  rw [World.foldl_restore] at hd
  refine ⟨⟨hturn, hd.got, fun guard hg => hcharts.leaves ⟨env₀, hn⟩ hd.forest hg, ?_,
    hd.vocabularies, ?_⟩, t, ht, hd.ended⟩
  · intro env' he
    refine hcharts.depth_of_leaves ⟨env₀, hn⟩ hd.forest hcharts' hsub ?_
    rcases List.mem_cons.1 he with rfl | he
    · exact henv
    · exact hn.guarded (List.mem_cons_of_mem _ he)
  · rw [hd.ready]
    show rest ++ k.sink.calls _ = _
    cases k.sink <;> rfl

end Unwinding

/-! ## Evaluations -/

section Evaluations

variable {w : World} {is : List Interpreter} {i : Interpreter} {stack : Stack}

/-- Where code is run, there is a scope that its thread has yet to leave, or none that it could
leave. -/
theorem Moment.Scoped.guarded {m : Moment} {r : Roster} (h : m.Scoped r) {env : EnvId} {code : Code}
    {s : Stack} {k : Continuation} (hc : m.control = .run env code s k) :
    (∃ guard ∈ k.guards, guard.env = env) ∨
      ∃ a ∈ r.activations, a.env = env ∧ a.snapshot = none := by
  have hfit := h.control
  rw [hc] at hfit
  obtain ⟨-, hn⟩ := hfit
  refine (hn.guarded (List.mem_cons_self ..)).imp_right ?_
  rintro ⟨a, hf, hs⟩
  exact ⟨a, List.mem_of_getElem? hf, h.tidy.charts.env env a hf, hs⟩

/-- **Errors unwind whole call chains.** Wherever an evaluation has come to an item of code that
fails, in whatever turn and inside of however many bodies, it queues one task with the failure and
does nothing else. Whatever happens until that task has its turn, this turn leaves the scopes of all
bodies that the continuation leads through and delivers the failure where it ends, to the
evaluation or to the process whose thread it is; and nothing of that thread is ever run again. -/
theorem errors_unwind (h : Evaluated (fun w s => s.Sound w) w is) (hi : i ∈ is)
    (hstack : stack.Sound w) (program : Program) (n j : Nat) {u : World} {env : EnvId}
    {d : Datum BlockId} {code : Code} {s : Stack} {k : Continuation} {e : Error}
    (hp : i.point program stack w n j = (u, .run env (d :: code) s (some k)))
    (hf : u.Fails env s d e) :
    ∃ k' t, (k' = k ∨ k' = k.push (.resume env code)) ∧ k'.sink.thread? = some t ∧
      u.advance (.run env (d :: code) s (some k)) = (u.later (.resume k' (.error e)), .done) ∧
      ∀ v roots rest,
        Leads .sound ⟨u.later (.resume k' (.error e)), .rest, is.map Interpreter.env⟩
          ⟨v, .rest, roots⟩ →
        v.scheduler.ready = .resume k' (.error e) :: rest →
          v.Unwound env k' e rest (v.turn (.resume k' (.error e)) rest) ∧
          ∀ m, Leads .sound ⟨v.turn (.resume k' (.error e)) rest, .rest, roots⟩ m →
            m.control.thread? ≠ some t ∧ m.world.held t = 0 := by
  have hst : ∀ (w : World) (s : Stack), s.Sound w → s.Sound w := fun _ _ hs => hs
  obtain ⟨c, hc, hlead⟩ := h.leads_point hst hi program hstack n j
  rw [hp] at hc hlead
  cases hc
  obtain ⟨es, hrun⟩ := hlead
  have hsound := hrun.sound (Policy.evaluations_sound hst) Moment.sound_dawn
  obtain ⟨-, t, ht, -⟩ := hsound.control
  obtain ⟨k', hk', hadv⟩ := advance_of_fails hf code k
  have hsink : k'.sink = k.sink := by rcases hk' with rfl | rfl <;> rfl
  have hguards : k'.guards = k.guards := by rcases hk' with rfl | rfl <;> rfl
  refine ⟨k', t, hk', hsink ▸ ht, hadv, fun v roots rest hlater hready => ?_⟩
  obtain ⟨c', hc', hworks⟩ := works_advance (f := .run env (d :: code) s (some k)) rfl hsound.control
  rw [hadv] at hc' hworks
  cases hc'
  obtain ⟨fs, hfail⟩ := Leads.of_works hworks (is.map Interpreter.env)
  obtain ⟨gs, hlater⟩ := hlater
  have hall := hfail.trans hlater
  have hmoment := hrun.trans hall
  have henv : (∃ guard ∈ k'.guards, guard.env = env) ∨
      ∃ a, (roster (es ++ (fs ++ gs))).find env = some a ∧ a.snapshot = none := by
    rw [hguards]
    refine (hrun.scoped.guarded rfl).imp_right ?_
    rintro ⟨a, ha, rfl, hs⟩
    have hmem := Roster.mem_replay ha u (fs ++ gs)
    rw [← hrun.roster_append] at hmem
    exact ⟨a, hmoment.scoped.tidy.charts.find_of_mem hmem, hs⟩
  obtain ⟨hunwound, t', ht', hover⟩ := hmoment.unwound hready henv
  cases (hsink ▸ ht : k'.sink.thread? = some t).symm.trans ht'
  refine ⟨hunwound, fun m hm => ?_⟩
  obtain ⟨gs', hm⟩ := hm
  have hsome : (Task.resume k' (.error e)).thread?.isSome := Option.isSome_iff_exists.2 ⟨t, ht'⟩
  have hends : Policy.sound.allows .endTurn := .inl (.inr (.inl rfl))
  obtain ⟨hs, hturn⟩ := leads_turn hready hsome hends roots
  exact (hmoment.trans hturn).over hm hover

end Evaluations

/-- One body in another, with code after it that is not to be run. -/
def nesting : Program :=
  [.block () [.block () [.word "drop", .word "clear"], .word "do", .word "clear"], .word "do"]

/-- The inner body of `nesting` fails on an empty stack. The turn after that leaves both bodies. -/
theorem errors_unwind_nesting :
    ∃ (w : World) (i : Interpreter) (u : World) (k k' : Continuation) (v : World),
      Evaluated (fun w s => s.Sound w) w [i] ∧
      i.point nesting .empty w 2 0 =
        (u, .run ⟨2⟩ [.word "drop", .word "clear"] .empty (some k)) ∧
      u.Fails ⟨2⟩ .empty (.word "drop") (.stackUnderflow "drop" 1 0) ∧
      (u.later (.resume k' (.error (.stackUnderflow "drop" 1 0)))).Unwound ⟨2⟩ k'
        (.stackUnderflow "drop" 1 0) [] v ∧
      v.outcome? 0 = some (.error (.stackUnderflow "drop" 1 0)) ∧
      u.forest.current ⟨2⟩ ≠ ⟨3⟩ ∧ v.forest.current ⟨2⟩ = ⟨3⟩ ∧
      v.forest.depth ⟨1⟩ = 1 ∧ v.scheduler.ready = [] := by
  have heval : Evaluated (fun w s => s.Sound w) World.fresh [⟨⟨0⟩, {}⟩] := .fresh {}
  let k : Continuation := ⟨[.exit .leave ⟨⟨2⟩, ⟨3⟩⟩, .resume ⟨1⟩ [.word "clear"],
    .exit .leave ⟨⟨1⟩, ⟨1⟩⟩, .resume ⟨0⟩ []], .slot 0⟩
  have hpoint : (fun p : World × Focus => (p.2, p.1.lookup ⟨2⟩ "drop", p.1.scheduler.ready))
      (Interpreter.point ⟨⟨0⟩, {}⟩ nesting .empty World.fresh 2 0) =
        (.run ⟨2⟩ [.word "drop", .word "clear"] .empty (some k),
          some (.primitive ⟨1, "drop", .pure .drop⟩), []) := by
    cbv
  generalize hp : Interpreter.point ⟨⟨0⟩, {}⟩ nesting .empty World.fresh 2 0 = p at hpoint
  obtain ⟨u, focus⟩ := p
  obtain ⟨rfl, hdrop, hready⟩ : focus = _ ∧ u.lookup ⟨2⟩ "drop" = _ ∧ u.scheduler.ready = [] := by
    simpa using hpoint
  have hfails : u.Fails ⟨2⟩ .empty (.word "drop") (.stackUnderflow "drop" 1 0) :=
    .word hdrop (.returns rfl rfl)
  obtain ⟨k', t, hk', -, -, hunwind⟩ := errors_unwind heval (List.mem_singleton.2 rfl)
    (.empty _) nesting 2 0 hp hfails
  have hsink : k'.sink = .slot 0 := by rcases hk' with rfl | rfl <;> rfl
  have hguards : k'.guards = [⟨⟨2⟩, ⟨3⟩⟩, ⟨⟨1⟩, ⟨1⟩⟩] := by rcases hk' with rfl | rfl <;> rfl
  have hframe : .exit .leave ⟨⟨1⟩, ⟨1⟩⟩ ∈ k'.frames := by
    rcases hk' with rfl | rfl <;> simp [k, Continuation.push]
  obtain ⟨h, -⟩ := hunwind _ _ [] (.refl _) (congrArg (· ++ [_]) hready)
  obtain ⟨hbefore, hafter⟩ := h.left ⟨⟨2⟩, ⟨3⟩⟩ (by simp [hguards])
  have hgot := h.got
  have hqueue := h.queue
  rw [hsink] at hgot hqueue
  exact ⟨_, _, u, k, k', _, heval, hp, hfails, h, hgot, hbefore, hafter,
    h.depth ⟨1⟩ (List.mem_cons_of_mem _ (List.mem_map_of_mem (f := Frame.env) hframe)), hqueue⟩

end Catena
