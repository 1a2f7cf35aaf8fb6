import Catena.Proofs.Machine.Words

/-!
# Moments and runs

A turn is a single function call in the machine, but much happens in it. `Does` cuts the work of a
turn into steps: the control says what is going on inside the turn, and each step comes with its
effects on the world. `Next` adds what begins a turn and what happens between turns, and a `Run` is
any sequence of all that, with the list of everything that happened and on whose behalf.

The two sides meet in `works_runThen`, `begins_perform` and `leads_turn`: whatever the machine
computes in a turn is the end of a run. So what holds at every moment of every run holds inside and
between the turns of every evaluation.
-/

namespace Catena

/-! ## Threads -/

/-- On whose behalf something happens: the main program of an evaluation, by the slot that its
outcome goes to, or a process. -/
inductive Thread where
  | main (slot : Nat)
  | process (p : ProcessId)
  deriving DecidableEq

/-- The thread whose outcome goes to a sink. -/
def Sink.thread? : Sink → Option Thread
  | .slot index => some (.main index)
  | .finish p => some (.process p)
  | .report _ | .detached _ _ => none

/-- The thread that a continuation is the rest of. -/
def Continuation.thread? (k : Continuation) : Option Thread := k.sink.thread?

@[simp] theorem Continuation.thread?_push (k : Continuation) (frame : Frame) :
    (k.push frame).thread? = k.thread? := rfl

@[simp] theorem Continuation.thread?_mk (frames : List Frame) (sink : Sink) :
    (Continuation.mk frames sink).thread? = sink.thread? := rfl

@[simp] theorem Continuation.thread?_deliver (sink : Sink) :
    (Continuation.deliver sink).thread? = sink.thread? := rfl

/-- The thread that waits in a cell. -/
def Waker.thread? : Waker → Option Thread
  | .resume _ _ k => k.thread?
  | .report _ => none

/-- The thread that a task goes on with. -/
def Task.thread? : Task → Option Thread
  | .resume k _ => k.thread?
  | .activate _ _ _ _ _ k => k.thread?
  | .start p _ _ => some (.process p)
  | .wakeReceiver _ waker => waker.thread?
  | .wakeWaiter waker _ => waker.thread?
  | .script _ => none

/-! ## The work of a turn -/

/-- What is going on inside a turn. -/
inductive Control where
  /-- Nothing: the turn is over. -/
  | rest
  /-- Code is being run for a continuation. -/
  | run (env : EnvId) (code : Code) (stack : Stack) (k : Continuation)
  /-- A continuation is being resumed. -/
  | resume (k : Continuation) (outcome : Outcome)

/-- The thread at work. -/
def Control.thread? : Control → Option Thread
  | .rest => none
  | .run _ _ _ k => k.thread?
  | .resume k _ => k.thread?

/-- One step of the work of a turn, and its effects. -/
inductive Does (w : World) : Control → List Effect → Control → Prop
  | finish {env : EnvId} {s : Stack} {k : Continuation} :
      Does w (.run env [] s k) [.later (.resume k (.ok s))] .rest
  | literal {env : EnvId} {d : Datum BlockId} {code : Code} {s : Stack} {k : Continuation}
      (hd : d.isPlain = true) :
      Does w (.run env (d :: code) s k) [] (.run env code (s.push (.datum d)) k)
  | block {env : EnvId} {id : BlockId} {body code : Code} {s : Stack} {k : Continuation} :
      Does w (.run env (.block id body :: code) s k) [.snapshot env ⟨id, body⟩]
        (.run env code (s.push (.block id body)) k)
  | value {env : EnvId} {name : Name} {v : Value} {code : Code} {s : Stack} {k : Continuation}
      (hv : w.lookup env name = some v) :
      Does w (.run env (.word name :: code) s k) [] (.run env code (s.push v) k)
  | unbound {env : EnvId} {name : Name} {code : Code} {s : Stack} {k : Continuation}
      (hv : w.lookup env name = none) (message : String) :
      Does w (.run env (.word name :: code) s k) [.report message]
        (.run env code (s.push .nil) k)
  | unresolved {env : EnvId} {name : Name} {code : Code} {s : Stack} {k : Continuation}
      (hv : w.lookup env name = none) :
      Does w (.run env (.word name :: code) s k)
        [.later (.resume k (.error (.unresolvedWord name)))] .rest
  | call {env : EnvId} {name : Name} {p : Primitive} {code : Code} {s t : Stack}
      {k : Continuation} {es : List Effect} (hv : w.lookup env name = some (.primitive p))
      (hs : SyncEffects env s w es (.ok t)) :
      Does w (.run env (.word name :: code) s k) es (.run env code t k)
  | fail {env : EnvId} {name : Name} {p : Primitive} {code : Code} {s : Stack}
      {k : Continuation} {es : List Effect} {e : Error}
      (hv : w.lookup env name = some (.primitive p)) (hs : SyncEffects env s w es (.error e)) :
      Does w (.run env (.word name :: code) s k) (es ++ [.later (.resume k (.error e))]) .rest
  | takeOver {env : EnvId} {name : Name} {p : Primitive} {code : Code} {s : Stack}
      {k : Continuation} {es : List Effect} (hv : w.lookup env name = some (.primitive p))
      (ha : AsyncEffects env s (k.push (.resume env code)) w es) :
      Does w (.run env (.word name :: code) s k) es .rest
  | fillSlot {index : Nat} {outcome : Outcome} :
      Does w (.resume ⟨[], .slot index⟩ outcome) [.fillSlot index outcome] .rest
  | finishProcess {p : ProcessId} {outcome : Outcome} :
      Does w (.resume ⟨[], .finish p⟩ outcome) [.finish p outcome] .rest
  | goOn {env : EnvId} {code : Code} {frames : List Frame} {sink : Sink} {s : Stack} :
      Does w (.resume ⟨.resume env code :: frames, sink⟩ (.ok s)) []
        (.run env code s ⟨frames, sink⟩)
  | skip {env : EnvId} {code : Code} {frames : List Frame} {sink : Sink} {e : Error} :
      Does w (.resume ⟨.resume env code :: frames, sink⟩ (.error e)) []
        (.resume ⟨frames, sink⟩ (.error e))
  | leave {kind : Exit} {guard : Guard} {frames : List Frame} {sink : Sink} {outcome : Outcome} :
      Does w (.resume ⟨.exit kind guard :: frames, sink⟩ outcome) [.restore guard]
        (.resume ⟨frames, sink⟩ outcome)
  | harvest {guard : Guard} {frames : List Frame} {sink : Sink} {s : Stack} :
      Does w (.resume ⟨.exit .harvest guard :: frames, sink⟩ (.ok s)) [.harvest guard]
        (.resume ⟨frames, sink⟩ (.ok (s.push (.vocabulary ⟨w.vocabularies.size⟩))))
  | enough {env : EnvId} {b : Block} {frames : List Frame} {sink : Sink} {s : Stack} :
      Does w (.resume ⟨.again env b 0 :: frames, sink⟩ (.ok s))
        [.later (.resume ⟨frames, sink⟩ (.ok s))] .rest
  | again {env : EnvId} {b : Block} {n : Nat} {frames : List Frame} {sink : Sink} {s : Stack} :
      Does w (.resume ⟨.again env b (n + 1) :: frames, sink⟩ (.ok s))
        [.snapshot env b, .later (.activate (w.instantiate env b).2 none b .leave s
          ⟨.again env b n :: frames, sink⟩)] .rest
  | giveUp {env : EnvId} {b : Block} {n : Nat} {frames : List Frame} {sink : Sink} {e : Error} :
      Does w (.resume ⟨.again env b n :: frames, sink⟩ (.error e)) []
        (.resume ⟨frames, sink⟩ (.error e))

/-- What a turn begins with, by its task, once the task is off the queue. -/
inductive Begins (w : World) : Task → List Effect → Control → Prop
  | resume {k : Continuation} {outcome : Outcome} :
      Begins w (.resume k outcome) [] (.resume k outcome)
  | activate {captured : Bindings Value} {own : Option (Name × Value)} {block : Block}
      {exit : Exit} {s : Stack} {k : Continuation} :
      Begins w (.activate captured own block exit s k) [.enter captured own block]
        (.run (w.openActivation captured own).2.1 block.code s
          (k.push (.exit exit (w.openActivation captured own).2.2)))
  | start {p : ProcessId} {code : Code} {s : Stack} :
      Begins w (.start p code s) [.markRunning p]
        (.run (w.process p).env code s (.deliver (.finish p)))
  | receive {m : MailboxId} {epoch : Nat} {s : Stack} {k : Continuation} {message : Value}
      (h : (w.offer m epoch (.resume epoch s k)).2 = some message) :
      Begins w (.wakeReceiver m (.resume epoch s k)) [.wakeReceiver m (.resume epoch s k)]
        (.resume k (.ok (s.push message)))
  | refuse {m : MailboxId} {epoch : Nat} {s : Stack} {k : Continuation}
      (h : (w.offer m epoch (.resume epoch s k)).2 = none) :
      Begins w (.wakeReceiver m (.resume epoch s k)) [.wakeReceiver m (.resume epoch s k)] .rest
  | wake {epoch : Nat} {s : Stack} {k : Continuation} {value : Value}
      (h : w.isAbandoned epoch = false) :
      Begins w (.wakeWaiter (.resume epoch s k) value) [.wakeWaiter (.resume epoch s k)]
        (.resume k (.ok (s.push value)))
  | pass {epoch : Nat} {s : Stack} {k : Continuation} {value : Value}
      (h : w.isAbandoned epoch = true) :
      Begins w (.wakeWaiter (.resume epoch s k) value) [.wakeWaiter (.resume epoch s k)] .rest

/-! ## Runs -/

/-- The world, what is going on in it, and the environments of the interpreters. -/
structure Moment where
  world : World
  control : Control
  roots : List EnvId

/-- Something that happened, and on whose behalf. -/
structure Event where
  thread : Option Thread
  effect : Effect

/-- What may happen besides the work of turns. -/
structure Policy where
  /-- What may happen at any time. -/
  allows : Effect → Prop
  /-- The stacks that evaluations may begin on. -/
  starts : World → Stack → Prop

/-- What follows a moment, and what happens on the way. -/
inductive Next (policy : Policy) : Moment → List Event → Moment → Prop
  | work {w : World} {c c' : Control} {roots : List EnvId} {es : List Effect}
      (h : Does w c es c') :
      Next policy ⟨w, c, roots⟩ (es.map (⟨c.thread?, ·⟩)) ⟨w.replay es, c', roots⟩
  | turn {w : World} {c : Control} {roots : List EnvId} {task : Task} {rest : List Task}
      {es : List Effect} (hr : w.scheduler.ready = task :: rest)
      (h : Begins (w.apply .beginTurn) task es c) :
      Next policy ⟨w, .rest, roots⟩ ((.beginTurn :: es).map (⟨task.thread?, ·⟩))
        ⟨w.replay (.beginTurn :: es), c, roots⟩
  | evaluate {w : World} {roots : List EnvId} {env : EnvId} {stack : Stack} (strict : Bool)
      (program : Program) (henv : env ∈ roots) (hs : policy.starts w stack) :
      Next policy ⟨w, .rest, roots⟩ [⟨none, .launch strict program⟩]
        ⟨w.launch strict program,
          .run env (w.load program).2 stack (.deliver (.slot w.slots.size)), roots⟩
  | install {w : World} {roots : List EnvId} :
      Next policy ⟨w, .rest, roots⟩ [⟨none, .install⟩]
        ⟨w.newBuiltinRoot.1, .rest, w.newBuiltinRoot.2 :: roots⟩
  | outside {w : World} {c : Control} {roots : List EnvId} {e : Effect} (h : policy.allows e) :
      Next policy ⟨w, c, roots⟩ [⟨none, e⟩] ⟨w.apply e, c, roots⟩

/-- Any number of steps. -/
inductive Run (policy : Policy) : Moment → List Event → Moment → Prop
  | refl (m : Moment) : Run policy m [] m
  | step {m m' m'' : Moment} {es fs : List Event} (h : Run policy m es m')
      (hn : Next policy m' fs m'') : Run policy m (es ++ fs) m''

/-- What happened, in order. -/
def effectsOf (es : List Event) : List Effect := es.map Event.effect

@[simp] theorem effectsOf_nil : effectsOf [] = [] := rfl

@[simp] theorem effectsOf_append (es fs : List Event) :
    effectsOf (es ++ fs) = effectsOf es ++ effectsOf fs := List.map_append

@[simp] theorem effectsOf_map (t : Option Thread) (es : List Effect) :
    effectsOf (es.map (⟨t, ·⟩)) = es := by
  induction es with
  | nil => rfl
  | cons e es ih => exact congrArg (e :: ·) ih

/-- A step does to the world what its effects do. -/
theorem Next.world_eq {policy : Policy} {m m' : Moment} {es : List Event}
    (h : Next policy m es m') : m'.world = m.world.replay (effectsOf es) := by
  cases h with
  | work h => rw [effectsOf_map]
  | turn hr h => rw [effectsOf_map]
  | evaluate strict program henv hs => rfl
  | install => rfl
  | outside h => rfl

theorem Run.world_eq {policy : Policy} {m m' : Moment} {es : List Event}
    (h : Run policy m es m') : m'.world = m.world.replay (effectsOf es) := by
  induction h with
  | refl => rfl
  | step _ hn ih => rw [effectsOf_append, World.replay_append, ← ih, hn.world_eq]

theorem Run.one {policy : Policy} {m m' : Moment} {es : List Event} (h : Next policy m es m') :
    Run policy m es m' := .step (.refl m) h

theorem Run.trans {policy : Policy} {m m' m'' : Moment} {es fs : List Event}
    (h : Run policy m es m') (h' : Run policy m' fs m'') : Run policy m (es ++ fs) m'' := by
  induction h' with
  | refl => rw [List.append_nil]; exact h
  | step _ hn ih => rw [← List.append_assoc]; exact .step ih hn

theorem Run.mono {p q : Policy} (ha : ∀ e, p.allows e → q.allows e)
    (hs : ∀ w s, p.starts w s → q.starts w s) {m m' : Moment} {es : List Event}
    (h : Run p m es m') : Run q m es m' := by
  induction h with
  | refl => exact .refl _
  | step _ hn ih =>
    refine ih.step ?_
    cases hn with
    | work h => exact .work h
    | turn hr h => exact .turn hr h
    | evaluate strict program henv h => exact .evaluate strict program henv (hs _ _ h)
    | install => exact .install
    | outside h => exact .outside (ha _ h)

/-- What holds of a moment and is kept by every step holds at the end of every run. -/
theorem Run.induct {policy : Policy} {I : Moment → Prop}
    (hI : ∀ {m m' es}, I m → Next policy m es m' → I m') {m m' : Moment} {es : List Event}
    (h : Run policy m es m') (hm : I m) : I m' := by
  induction h with
  | refl => exact hm
  | step _ hn ih => exact hI ih hn

/-! ## What the machine computes, step by step -/

/-- Any number of steps of the work of a turn. -/
inductive Works : World → Control → World → Control → Prop
  | refl (w : World) (c : Control) : Works w c w c
  | step {w w' : World} {c c' c'' : Control} {es : List Effect} (h : Does w c es c')
      (hw : Works (w.replay es) c' w' c'') : Works w c w' c''

theorem works_runThen (env : EnvId) (code : Code) (w : World) (s : Stack) (k : Continuation) :
    Works w (.run env code s k) (w.runThen env code s k) .rest := by
  induction code generalizing w s with
  | nil => exact .step .finish (.refl _ _)
  | cons d rest ih =>
    unfold World.runThen World.run World.decode
    cases d with
    | word name =>
      dsimp only [World.resolve]
      cases hv : w.lookup env name with
      | none =>
        dsimp only
        cases hs : w.strict with
        | true => exact .step (.unresolved hv) (.refl _ _)
        | false => exact .step (.unbound hv _) (ih _ _)
      | some v =>
        cases v with
        | primitive p =>
          dsimp only
          cases hc : p.call with
          | sync action =>
            obtain ⟨es, hes, hw⟩ := call_sync hc env s w
            dsimp only
            generalize (action env s).run w = result at hes hw ⊢
            obtain ⟨outcome, w'⟩ := result
            cases outcome with
            | ok t =>
              refine .step (.call hv hes) ?_
              rw [← hw]
              exact ih w' t
            | error e =>
              refine .step (.fail hv hes) ?_
              rw [World.replay_append, ← hw]
              exact .refl _ _
          | async start =>
            obtain ⟨es, hes, hw⟩ := call_async (.bound hv) hc s (k.push (.resume env rest))
            refine .step (.takeOver hv hes) ?_
            rw [← hw]
            exact .refl _ _
        | _ => exact .step (.value hv) (ih _ _)
    | block id body => exact .step .block (ih _ _)
    | _ => exact .step (.literal rfl) (ih _ _)

/-- Resuming a continuation of a thread. -/
theorem works_resume {k : Continuation} (hk : k.thread?.isSome) (w : World) (outcome : Outcome) :
    Works w (.resume k outcome) (w.resume k outcome) .rest := by
  obtain ⟨frames, sink⟩ := k
  simp only [World.resume]
  induction frames generalizing w outcome with
  | nil =>
    cases sink with
    | slot index => exact .step .fillSlot (.refl _ _)
    | finish p => exact .step .finishProcess (.refl _ _)
    | report tag => cases hk
    | detached env code => cases hk
  | cons frame frames ih =>
    cases frame with
    | resume env code =>
      cases outcome with
      | ok s => exact .step .goOn (works_runThen env code w s ⟨frames, sink⟩)
      | error e => exact .step .skip (ih _ _ hk)
    | exit kind guard =>
      unfold World.resumeFrames World.exitScope
      cases kind with
      | leave => exact .step .leave (ih _ _ hk)
      | harvest =>
        cases outcome with
        | ok s => exact .step .harvest (ih _ _ hk)
        | error e => exact .step .leave (ih _ _ hk)
    | again env block remaining =>
      cases outcome with
      | ok s =>
        cases remaining with
        | zero => exact .step .enough (.refl _ _)
        | succ n => exact .step .again (.refl _ _)
      | error e => exact .step .giveUp (ih _ _ hk)

theorem World.env_process_markRunning (w : World) (p : ProcessId) :
    ((w.modifyProcess p Process.markRunning).process p).env = (w.process p).env := by
  simp only [process, modifyProcess, Table.get, Table.get?_modify, if_true]
  cases w.processes.get? p.index with
  | none => rfl
  | some process => exact process.env_markRunning

/-- **A task of a thread begins and works to the end of the turn.** -/
theorem begins_perform {task : Task} (ht : task.thread?.isSome) (w : World) :
    ∃ es c, Begins w task es c ∧ Works (w.replay es) c (w.perform task) .rest := by
  cases task with
  | resume k outcome => exact ⟨_, _, .resume, works_resume ht _ _⟩
  | activate captured own block exit s k => exact ⟨_, _, .activate, works_runThen _ _ _ _ _⟩
  | start p code s =>
    refine ⟨_, _, .start, ?_⟩
    simp only [World.perform, World.runProcess, World.env_process_markRunning]
    exact works_runThen _ _ _ _ _
  | wakeReceiver m waker =>
    cases waker with
    | report tag => cases ht
    | resume epoch s k =>
      simp only [World.perform, World.wakeNext_eq]
      cases ho : w.offer m epoch (.resume epoch s k) with
      | mk w' message =>
        have hw' : w.replay [.wakeReceiver m (.resume epoch s k)] = w' := congrArg Prod.fst ho
        cases message with
        | none =>
          refine ⟨_, _, .refuse (congrArg Prod.snd ho), ?_⟩
          rw [hw']
          exact .refl _ _
        | some message =>
          refine ⟨_, _, .receive (congrArg Prod.snd ho), ?_⟩
          rw [hw']
          exact works_resume ht _ _
  | wakeWaiter waker value =>
    cases waker with
    | report tag => cases ht
    | resume epoch s k =>
      simp only [World.perform, World.wakeWaiter]
      cases ha : w.isAbandoned epoch with
      | true => exact ⟨_, _, .pass ha, .refl _ _⟩
      | false => exact ⟨_, _, .wake ha, works_resume ht _ _⟩
  | script commands => cases ht

/-! ## Whatever the machine computes is a run -/

/-- Some run goes from one moment to another. -/
def Leads (policy : Policy) (m m' : Moment) : Prop := ∃ es, Run policy m es m'

namespace Leads

variable {policy : Policy} {m m' m'' : Moment}

theorem refl (m : Moment) : Leads policy m m := ⟨[], .refl m⟩

theorem trans (h : Leads policy m m') (h' : Leads policy m' m'') : Leads policy m m'' := by
  obtain ⟨es, h⟩ := h
  obtain ⟨fs, h'⟩ := h'
  exact ⟨es ++ fs, h.trans h'⟩

theorem of_next {es : List Event} (h : Next policy m es m') : Leads policy m m' := ⟨es, .one h⟩

theorem of_works {w w' : World} {c c' : Control} (h : Works w c w' c') (roots : List EnvId) :
    Leads policy ⟨w, c, roots⟩ ⟨w', c', roots⟩ := by
  induction h with
  | refl w c => exact .refl _
  | step h _ ih => exact (of_next (.work h)).trans ih

/-- Something happens besides the work of turns. -/
theorem outside {w : World} {c : Control} {e : Effect} (h : policy.allows e) (roots : List EnvId) :
    Leads policy ⟨w, c, roots⟩ ⟨w.apply e, c, roots⟩ := of_next (.outside h)

end Leads

/-- The turn of a task is what it works on, between the beginning and the end of a turn. -/
theorem World.turn_eq {w : World} {task : Task} {rest : List Task}
    (hr : w.scheduler.ready = task :: rest) :
    w.turn task rest = ((w.apply .beginTurn).perform task).apply .endTurn := by
  have hb : w.mapScheduler (·.beginTurn rest) = w.apply .beginTurn := by
    show _ = w.mapScheduler fun s => s.beginTurn s.ready.tail
    simp only [mapScheduler, hr, List.tail_cons]
  rw [turn, hb]
  rfl

/-- One turn whose task goes on with a thread. -/
theorem leads_turn {policy : Policy} {w : World} {task : Task} {rest : List Task}
    (hr : w.scheduler.ready = task :: rest) (ht : task.thread?.isSome)
    (hp : policy.allows .endTurn) (roots : List EnvId) :
    Leads policy ⟨w, .rest, roots⟩ ⟨w.turn task rest, .rest, roots⟩ := by
  obtain ⟨es, c, hb, hw⟩ := begins_perform ht (w.apply .beginTurn)
  rw [World.turn_eq hr]
  exact ((Leads.of_next (.turn hr hb)).trans (.of_works hw roots)).trans (.outside hp roots)

end Catena
