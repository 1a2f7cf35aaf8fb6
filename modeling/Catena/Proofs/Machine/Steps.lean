import Catena.Proofs.Machine.Suspension

/-!
# Turns, step by step

A turn is one call of a recursive function. Here the same work is done by a small machine: the focus
says what is being worked on, and `World.advance` does one piece of it, which looks at one item of
code or at one frame of a continuation. Unlike `Does`, which says what may happen, the machine says
what does happen, for any task and in any world: `reaches_perform` says that it ends where the turn
ends. So two turns can be compared step by step.

Between the turns, `World.proceed` goes from the end of one turn to the end of the next, and taking
turns is proceeding that many times (`takeTurns_fst`).
-/

namespace Catena

/-- What is being worked on inside a turn. -/
inductive Focus where
  /-- Nothing: the turn is over. -/
  | done
  /-- Code, for a continuation or for nobody. -/
  | run (env : EnvId) (code : Code) (stack : Stack) (k : Option Continuation)
  /-- A continuation that is being resumed. -/
  | resume (k : Continuation) (outcome : Outcome)
  /-- The embedding program is told a value. -/
  | tell (tag : String) (value : Value)

namespace World

/-- What becomes of a failure: it goes to the continuation on a later turn, or is reported if there
is none. -/
def failTo (w : World) (e : Error) : Option Continuation → World
  | some k => w.resumeLater k (.error e)
  | none => w.reportDetached e

/-- One item of a program. -/
def advanceCode (w : World) (env : EnvId) (d : Datum BlockId) (rest : Code) (s : Stack)
    (k : Option Continuation) : World × Focus :=
  match w.decode env d with
  | (w, .error e) => (w.failTo e k, .done)
  | (w, .ok (.push v)) => (w, .run env rest (s.push v) k)
  | (w, .ok (.call p)) =>
    match p.call with
    | .sync action =>
      match (action env s).run w with
      | (.ok t, w) => (w, .run env rest t k)
      | (.error e, w) => (w.failTo e k, .done)
    | .async start => (start w env s (.resumeAt env rest k), .done)

/-- The end of a continuation. -/
def advanceSink (w : World) (outcome : Outcome) : Sink → World × Focus
  | .slot index => (w.fillSlot index outcome, .done)
  | .finish p => (w.finishProcess p outcome, .done)
  | .report tag => (w.addEntry (.resumed tag (outcome.map w.viewStack)), .done)
  | .detached env code =>
    match outcome with
    | .ok s => (w, .run env code s none)
    | .error e => (w.reportDetached e, .done)

/-- One frame of a continuation. -/
def advanceFrame (w : World) (k : Continuation) (outcome : Outcome) : Frame → World × Focus
  | .resume env code =>
    match outcome with
    | .ok s => (w, .run env code s (some k))
    | .error e => (w, .resume k (.error e))
  | .exit kind guard =>
    ((w.exitScope kind guard outcome).1, .resume k (w.exitScope kind guard outcome).2)
  | .again env block remaining =>
    match outcome with
    | .ok s => (w.repeatBlock env block remaining s k, .done)
    | .error e => (w, .resume k (.error e))

/-- One step of the work of a turn. -/
def advance (w : World) : Focus → World × Focus
  | .done => (w, .done)
  | .run _ [] s k => ((k.map fun k => w.resumeLater k (.ok s)).getD w, .done)
  | .run env (d :: rest) s k => w.advanceCode env d rest s k
  | .resume ⟨[], sink⟩ outcome => w.advanceSink outcome sink
  | .resume ⟨frame :: frames, sink⟩ outcome => w.advanceFrame ⟨frames, sink⟩ outcome frame
  | .tell tag value => (w.addEntry (.woken tag (w.view value)), .done)

/-- What a turn begins with, by its task. Commands of the embedding program are carried out at
once. -/
def embark (w : World) : Task → World × Focus
  | .resume k outcome => (w, .resume k outcome)
  | .activate captured own block exit s k =>
    ((w.openActivation captured own).1,
      .run (w.openActivation captured own).2.1 block.code s
        (some (k.push (.exit exit (w.openActivation captured own).2.2))))
  | .start p code s =>
    (w.modifyProcess p Process.markRunning,
      .run ((w.modifyProcess p Process.markRunning).process p).env code s
        (some (.deliver (.finish p))))
  | .wakeReceiver m (.resume epoch s k) =>
    ((w.offer m epoch (.resume epoch s k)).1,
      match (w.offer m epoch (.resume epoch s k)).2 with
      | some message => .resume k (.ok (s.push message))
      | none => .done)
  | .wakeReceiver m (.report tag) =>
    match (w.mailbox m).take? with
    | some (message, mailbox) => (w.setMailbox m mailbox, .tell tag message)
    | none => (w.wakeNext m (.report tag), .done)
  | .wakeWaiter (.resume epoch s k) value =>
    (w, if w.isAbandoned epoch then .done else .resume k (.ok (s.push value)))
  | .wakeWaiter (.report tag) value => (w, .tell tag value)
  | .script commands => (w.runScript commands, .done)

/-- One step of the machine. -/
def step (p : World × Focus) : World × Focus := p.1.advance p.2

/-- The machine comes from `p` to `q`. -/
def Reaches (p q : World × Focus) : Prop := ∃ n, step^[n] p = q

theorem Reaches.refl (p : World × Focus) : Reaches p p := ⟨0, rfl⟩

theorem Reaches.head {p q : World × Focus} (h : Reaches (step p) q) : Reaches p q := by
  obtain ⟨n, hn⟩ := h
  exact ⟨n + 1, hn⟩

/-- The machine stops at the end of a turn. -/
theorem step_done (w : World) (n : Nat) : step^[n] (w, .done) = (w, .done) :=
  Function.iterate_fixed rfl n

/-- From where the turn is over it goes nowhere. -/
theorem Reaches.eq_of_done {p q : World × Focus} {w : World} (h : Reaches p (w, .done))
    {n : Nat} (hq : step^[n] p = q) (hd : q.2 = .done) : q = (w, .done) := by
  obtain ⟨m, hm⟩ := h
  obtain ⟨v, f⟩ := q
  cases hd
  rcases Nat.le_total m n with hle | hle
  · rw [← Nat.sub_add_cancel hle, Function.iterate_add_apply, hm, step_done] at hq
    exact hq.symm
  · rw [← Nat.sub_add_cancel hle, Function.iterate_add_apply, hq, step_done] at hm
    exact hm

variable {w : World}

/-- The world once a run that nobody waits for is over: a failure of it is reported. -/
def settled : World × Completion → World
  | (w, .failed e) => w.reportDetached e
  | (w, _) => w

/-- What comes of a run: with a continuation the run itself has put everything off. -/
theorem reaches_run (env : EnvId) (k : Option Continuation) (code : Code) (w : World) (s : Stack) :
    Reaches (w, .run env code s k) (settled (run env k code w s), .done) := by
  induction code generalizing w s with
  | nil => cases k <;> exact .head (.refl _)
  | cons d rest ih =>
    refine .head ?_
    show Reaches (w.advanceCode env d rest s k) _
    unfold advanceCode run
    obtain ⟨v, meaning⟩ := w.decode env d
    cases meaning with
    | error e => cases k <;> exact .refl _
    | ok item =>
      cases item with
      | push x => exact ih v _
      | call p =>
        dsimp only
        cases p.call with
        | async start => exact .refl _
        | sync action =>
          dsimp only
          obtain ⟨outcome, u⟩ := (action env s).run v
          cases outcome with
          | ok t => exact ih u t
          | error e => cases k <;> exact .refl _

theorem reaches_runThen (env : EnvId) (code : Code) (w : World) (s : Stack) (k : Continuation) :
    Reaches (w, .run env code s (some k)) (w.runThen env code s k, .done) := by
  have h := reaches_run env (some k) code w s
  rw [show run env (some k) code w s = (w.runThen env code s k, .suspended) from
    Prod.ext rfl (run_some_snd env k code w s)] at h
  exact h

theorem reaches_resume (w : World) (k : Continuation) (outcome : Outcome) :
    Reaches (w, .resume k outcome) (w.resume k outcome, .done) := by
  obtain ⟨frames, sink⟩ := k
  show Reaches _ (resumeFrames sink frames w outcome, .done)
  induction frames generalizing w outcome with
  | nil =>
    refine .head ?_
    cases sink with
    | detached env code =>
      cases outcome with
      | error e => exact .refl _
      | ok s =>
        have hrun := reaches_run env none code w s
        show Reaches (w, .run env code s none) (w.deliverTo (.ok s) (.detached env code), .done)
        have heq : w.deliverTo (.ok s) (.detached env code) = settled (run env none code w s) := by
          generalize hr : run env none code w s = result
          obtain ⟨v, c⟩ := result
          cases c <;> simp only [deliverTo, hr, settled]
        rw [heq]
        exact hrun
    | _ => exact .refl _
  | cons frame frames ih =>
    refine .head ?_
    cases frame with
    | resume env code =>
      cases outcome with
      | ok s => exact reaches_runThen env code w s ⟨frames, sink⟩
      | error e => exact ih w (.error e)
    | exit kind guard => exact ih _ _
    | again env block remaining =>
      cases outcome with
      | ok s => exact .refl _
      | error e => exact ih w (.error e)

/-- **The machine ends where the turn ends.** -/
theorem reaches_perform (w : World) (task : Task) :
    Reaches (w.embark task) (w.perform task, .done) := by
  cases task with
  | resume k outcome => exact reaches_resume w k outcome
  | activate captured own block exit s k =>
    show Reaches _ (w.runActivation captured own block exit s k, .done)
    rw [runActivation_eq]
    exact reaches_runThen _ _ _ _ _
  | start p code s => exact reaches_runThen _ _ _ _ _
  | wakeReceiver m waker =>
    cases waker with
    | resume epoch s k =>
      show Reaches (w.embark (.wakeReceiver m (.resume epoch s k)))
        (w.wakeNext m (.resume epoch s k), .done)
      rw [wakeNext_eq, embark]
      obtain ⟨v, message⟩ := w.offer m epoch (.resume epoch s k)
      cases message with
      | some message => exact reaches_resume v k _
      | none => exact .refl _
    | report tag =>
      show Reaches (w.embark (.wakeReceiver m (.report tag))) (w.wakeNext m (.report tag), .done)
      rw [embark]
      cases h : (w.mailbox m).take? with
      | none => exact .refl _
      | some taken =>
        obtain ⟨message, mailbox⟩ := taken
        have hnext : w.wakeNext m (.report tag) =
            (w.setMailbox m mailbox).wakeReceiver m message (.report tag) := by
          rw [wakeNext, h]
        rw [hnext]
        exact .head (.refl _)
  | wakeWaiter waker value =>
    cases waker with
    | resume epoch s k =>
      show Reaches (w.embark (.wakeWaiter (.resume epoch s k) value))
        (w.wakeWaiter value (.resume epoch s k), .done)
      rw [embark, wakeWaiter]
      cases w.isAbandoned epoch with
      | true => exact .refl _
      | false => exact reaches_resume w k _
    | report tag => exact .head (.refl _)
  | script commands => exact .refl _

/-! ## From turn to turn -/

/-- The next turn, and what goes before the one after it. Nothing happens if nothing is ready. -/
def proceed (w : World) : World :=
  match w.scheduler.ready with
  | [] => w
  | task :: rest => (w.turn task rest).tick

theorem proceed_of_nil (h : w.scheduler.ready = []) : w.proceed = w := by
  rw [proceed, h]

theorem proceed_of_cons {task : Task} {rest : List Task} (h : w.scheduler.ready = task :: rest) :
    w.proceed = (w.turn task rest).tick := by
  rw [proceed, h]

/-- Taking turns is proceeding that many times. -/
theorem takeTurns_fst (n taken : Nat) (w : World) :
    (takeTurns n taken w).1 = proceed^[n] w.tick := by
  induction n generalizing taken w with
  | zero =>
    cases h : w.tick.scheduler.ready with
    | nil => rw [takeTurns_of_nil h]; rfl
    | cons task rest => rw [takeTurns_zero h]; rfl
  | succ n ih =>
    rw [Function.iterate_succ_apply]
    cases h : w.tick.scheduler.ready with
    | nil =>
      rw [takeTurns_of_nil h, proceed_of_nil h]
      exact (Function.iterate_fixed (proceed_of_nil h) n).symm
    | cons task rest =>
      rw [takeTurns_succ h, ih, proceed_of_cons h]

end World

end Catena
