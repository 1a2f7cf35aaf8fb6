import Catena.Proofs.Machine.Evaluations
import Mathlib

/-!
# Continuations wait for a later turn

A word that takes its caller's continuation never resumes it: it puts it into a task, a timer or a
cell, whatever the stack. That the continuation is only put somewhere is said by asking that what
the word does be the same for all continuations up to the one that is put there (`PutsOff`); a word
that resumed it would do different things for different continuations. The same holds of running
code, which goes on until it ends, fails or calls such a word.

Posting a message, binding a variable and ending a process wake continuations that are parked in
cells. These are only moved to the queue: replacing all continuations that the world holds, by
whatever others, makes no difference to what happens (`World.mapHeld`). And in a run, once a step has
put a continuation off or woken one, none is resumed before another turn begins.
-/

namespace Catena

/-! ## Where a continuation is put -/

/-- Where a continuation waits for a later turn, and what goes with it. -/
inductive Deferral where
  | resume (outcome : Outcome)
  | activate (captured : Bindings Value) (own : Option (Name × Value)) (block : Block) (exit : Exit)
      (stack : Stack)
  | timer (due : Nat) (stack : Stack)
  | waiter (v : VariableId) (epoch : Nat) (stack : Stack)
  | joiner (p : ProcessId) (epoch : Nat) (stack : Stack)
  | receiver (m : MailboxId) (epoch : Nat) (stack : Stack)

/-- Puts a continuation where it waits for a later turn. -/
def World.defer (w : World) (k : Continuation) : Deferral → World
  | .resume outcome => w.later (.resume k outcome)
  | .activate captured own block exit stack => w.later (.activate captured own block exit stack k)
  | .timer due stack => w.mapScheduler (·.schedule due (.resume k (.ok stack)))
  | .waiter v epoch stack => w.modifyVariable v (·.addWaiter (.resume epoch stack k))
  | .joiner p epoch stack => w.modifyProcess p (·.addNotify (.resume epoch stack k))
  | .receiver m epoch stack =>
    w.setMailbox m { w.mailbox m with receiver := some (.resume epoch stack k) }

/-- The continuation with some more frames to go through first. -/
def Continuation.after (frames : List Frame) (k : Continuation) : Continuation :=
  ⟨frames ++ k.frames, k.sink⟩

/-- All that becomes of a continuation is that it is put somewhere: what it is makes no difference
otherwise. -/
def PutsOff (f : Continuation → World) : Prop :=
  ∃ (w : World) (frames : List Frame) (d : Deferral), ∀ k, f k = w.defer (k.after frames) d

namespace PutsOff

theorem resumeLater (w : World) (outcome : Outcome) : PutsOff (w.resumeLater · outcome) :=
  ⟨w, [], .resume outcome, fun _ => rfl⟩

theorem push {f : Continuation → World} (h : PutsOff f) (frame : Frame) :
    PutsOff fun k => f (k.push frame) := by
  obtain ⟨w, frames, d, h⟩ := h
  refine ⟨w, frames ++ [frame], d, fun k => (h _).trans ?_⟩
  simp [Continuation.after, Continuation.push]

theorem operands {α : Type} {w : World} {r : Except Error α} {next : α → Continuation → World}
    (h : ∀ a, PutsOff (next a)) : PutsOff fun k => w.withOperands k r fun a => next a k := by
  cases r with
  | ok a => exact h a
  | error e => exact resumeLater w (.error e)

theorem activate (w : World) (env : EnvId) (block : Block) (own : Option (Name × Value))
    (exit : Exit) (s : Stack) : PutsOff (w.activate env block own exit s) :=
  ⟨_, [], .activate _ own block exit s, fun _ => rfl⟩

theorem repeatBlock (w : World) (env : EnvId) (block : Block) (n : Nat) (s : Stack) :
    PutsOff (w.repeatBlock env block n s) := by
  cases n with
  | zero => exact resumeLater w (.ok s)
  | succ n => exact (activate w env block none .leave s).push (.again env block n)

theorem awaitVariable (w : World) (v : VariableId) (s : Stack) :
    PutsOff (w.awaitVariable v s) := by
  unfold World.awaitVariable
  cases (w.dataflow v).value with
  | some value => exact resumeLater w _
  | none => exact ⟨w, [], .waiter v w.scheduler.epoch s, fun _ => rfl⟩

theorem awaitProcess (w : World) (p : ProcessId) (s : Stack) : PutsOff (w.awaitProcess p s) := by
  unfold World.awaitProcess
  cases (w.process p).result with
  | some value => exact resumeLater w _
  | none => exact ⟨w, [], .joiner p w.scheduler.epoch s, fun _ => rfl⟩

theorem receive (w : World) (s : Stack) : PutsOff (w.receive s) := by
  unfold World.receive
  cases s.owner with
  | none => exact resumeLater w _
  | some p =>
    dsimp only
    cases (w.mailbox (w.process p).mailbox).take? with
    | some taken => exact resumeLater _ _
    | none =>
      dsimp only [Mailbox.wait?]
      cases (w.mailbox (w.process p).mailbox).receiver with
      | none => exact ⟨w, [], .receiver (w.process p).mailbox w.scheduler.epoch s, fun _ => rfl⟩
      | some waker => exact resumeLater w _

theorem resumeAfter (w : World) (delay : Nat) (s : Stack) : PutsOff (w.resumeAfter delay s) := by
  unfold World.resumeAfter
  cases w.scheduler.deadline? delay with
  | some due => exact ⟨w, [], .timer due s, fun _ => rfl⟩
  | none => exact resumeLater w _

/-! ## Words -/

theorem startAwait (op : String) (w : World) (s : Stack) :
    PutsOff (ControlWord.startAwait op w s) := by
  refine operands fun (target, rest) => ?_
  cases target with
  | process p => exact awaitProcess w p rest
  | dataflow v => exact awaitVariable w v rest
  | _ => exact resumeLater w _

theorem startPlain (word : ControlWord) (w : World) (env : EnvId) (s : Stack) :
    PutsOff (word.startPlain w env s) := by
  cases word with
  | run => exact operands fun (block, rest) => activate w env block none .leave rest
  | when =>
    refine operands fun (condition, block, rest) => ?_
    cases condition with
    | true => exact activate w env block none .leave rest
    | false => exact resumeLater w (.ok rest)
  | choose => exact operands fun (block, rest) => activate w env block none .leave rest
  | iterate => exact operands fun (block, n, rest) => repeatBlock w env block n rest
  | vocab => exact operands fun (block, rest) => activate w env block none .harvest rest
  | await => exact startAwait _ w s
  | receive => exact receive w s
  | yield => exact resumeLater w (.ok s)
  | after => exact operands fun (delay, rest) => resumeAfter w delay rest
  | send => exact resumeLater w _

/-- A native word that takes over puts its caller off, if `send` does. -/
theorem callWith {p : Primitive} (hp : p.behaviour.isNative = true)
    {send start : World → EnvId → Stack → Continuation → World}
    (h : p.callWith send = .async start) {w : World} {env : EnvId} {s : Stack}
    (hsend : PutsOff (send w env s)) : PutsOff (start w env s) := by
  obtain ⟨serial, name, behaviour⟩ := p
  cases behaviour with
  | pure word | state word | foreign word => cases h
  | control word =>
    by_cases hw : word = .send
    · subst hw
      cases h
      exact hsend
    · have hstart : start = word.startPlain := by cases word <;> cases h <;> trivial
      rw [hstart]
      exact startPlain word w env s
  | defined block =>
    cases h
    exact activate w env block _ .leave s
  | foreignControl word => cases hp

/-- Sending puts the caller off, whatever the object answers. -/
theorem startSend {w : World} (hw : w.Sound w) (env : EnvId) (s : Stack) :
    PutsOff (ControlWord.startSend w env s) := by
  refine operands fun (o, message, rest) => ?_
  dsimp only
  cases ha : w.answer? o message with
  | none => exact resumeLater _ (.ok s)
  | some v =>
    cases v with
    | primitive p =>
      dsimp only
      cases hc : p.callWith (ControlWord.startPlain .send) with
      | sync action => exact resumeLater _ _
      | async start => exact callWith (hw.answer ha) hc (startPlain .send w env _)
    | datum d =>
      cases d with
      | block id code => exact activate w env ⟨id, code⟩ none .leave _
      | _ => exact resumeLater w _
    | _ => exact resumeLater w _

theorem call {w : World} (hw : w.Sound w) {p : Primitive} (hp : p.behaviour.isNative = true)
    {start : World → EnvId → Stack → Continuation → World} (h : p.call = .async start)
    (env : EnvId) (s : Stack) : PutsOff (start w env s) :=
  callWith hp h (startSend hw env s)

end PutsOff

/-! ## Running code -/

/-- Running code puts the continuation off, wherever the run ends. -/
theorem PutsOff.runThen (env : EnvId) (code : Code) {w : World} (hw : w.Sound w) {s : Stack}
    (hs : s.Sound w) : PutsOff (w.runThen env code s) := by
  induction code generalizing w s with
  | nil => exact resumeLater w (.ok s)
  | cons d rest ih =>
    unfold World.runThen World.run World.decode
    cases d with
    | word name =>
      dsimp only [World.resolve]
      cases hv : w.lookup env name with
      | none =>
        dsimp only
        cases w.strict with
        | true => exact resumeLater w _
        | false =>
          have hw' := hw.apply (e := .report ("unresolved word `" ++ name ++ "`")) trivial
          exact ih hw' (World.Fits.push (hs.mono (w.grows_apply (.report _))) trivial)
      | some v =>
        cases v with
        | primitive p =>
          dsimp only
          cases hc : p.call with
          | sync action =>
            obtain ⟨es, hes, hreplay⟩ := call_sync hc env s w
            obtain ⟨hadmits, hfits⟩ := hes.sound hw hs
            have hw' := hw.replay hadmits
            rw [← hreplay] at hw' hfits
            dsimp only
            generalize (action env s).run w = result at hw' hfits ⊢
            obtain ⟨outcome, v⟩ := result
            cases outcome with
            | ok t => exact ih hw' hfits
            | error e => exact resumeLater v (.error e)
          | async start => exact (call hw (hw.lookup hv) hc env s).push (.resume env rest)
        | _ => exact ih hw (World.Fits.push hs (hw.lookup hv))
    | block id body =>
      have hw' := hw.apply (e := .snapshot env ⟨id, body⟩) trivial
      exact ih hw' (World.Fits.push (hs.mono (w.grows_apply (.snapshot env ⟨id, body⟩))) trivial)
    | _ => exact ih hw (World.Fits.push hs trivial)

/-- The outcome of a run that has not passed control on. -/
def Completion.outcome? : Completion → Option Outcome
  | .returned stack => some (.ok stack)
  | .suspended => none
  | .failed e => some (.error e)

namespace World

/-- With a continuation, a run has nothing to return. -/
theorem run_some_snd (env : EnvId) (k : Continuation) (code : Code) (w : World) (s : Stack) :
    (run env (some k) code w s).2 = .suspended := by
  induction code generalizing w s with
  | nil => rfl
  | cons d rest ih =>
    unfold run
    obtain ⟨v, step⟩ := w.decode env d
    cases step with
    | error e => rfl
    | ok step =>
      cases step with
      | push x => exact ih v _
      | call p =>
        dsimp only
        cases p.call with
        | sync action =>
          dsimp only
          obtain ⟨outcome, u⟩ := (action env s).run v
          cases outcome with
          | ok t => exact ih u t
          | error e => rfl
        | async start => rfl

/-- What a run without a continuation would return or fail with, a run with one hands to it on a
later turn. -/
theorem runThen_of_outcome {env : EnvId} {code : Code} {w : World} {s : Stack} {outcome : Outcome}
    (h : (run env none code w s).2.outcome? = some outcome) (k : Continuation) :
    w.runThen env code s k = (run env none code w s).1.resumeLater k outcome := by
  induction code generalizing w s with
  | nil =>
    cases h
    rfl
  | cons d rest ih =>
    unfold runThen
    unfold run at h ⊢
    generalize w.decode env d = decoded at h ⊢
    obtain ⟨v, step⟩ := decoded
    cases step with
    | error e =>
      cases h
      rfl
    | ok step =>
      cases step with
      | push x => exact ih h
      | call p =>
        dsimp only at h ⊢
        cases hc : p.call with
        | sync action =>
          rw [hc] at h
          dsimp only at h ⊢
          generalize (action env s).run v = result at h ⊢
          obtain ⟨outcome, u⟩ := result
          cases outcome with
          | ok t => exact ih h
          | error e =>
            cases h
            rfl
        | async start =>
          rw [hc] at h
          cases h

end World

/-! ## Waking -/

/-- The same waker with another continuation. -/
def Waker.mapHeld (φ : Continuation → Continuation) : Waker → Waker
  | .resume epoch stack k => .resume epoch stack (φ k)
  | .report tag => .report tag

/-- The same task with another continuation. -/
def Task.mapHeld (φ : Continuation → Continuation) : Task → Task
  | .resume k outcome => .resume (φ k) outcome
  | .activate captured own block exit stack k => .activate captured own block exit stack (φ k)
  | .wakeReceiver m waker => .wakeReceiver m (waker.mapHeld φ)
  | .wakeWaiter waker value => .wakeWaiter (waker.mapHeld φ) value
  | .start p code stack => .start p code stack
  | .script commands => .script commands

/-- The same process, with other continuations waiting for it. -/
def Process.mapHeld (φ : Continuation → Continuation) (p : Process) : Process :=
  { p with notify := p.notify.map (Waker.mapHeld φ) }

/-- The same mailbox, with another continuation waiting in it. -/
def Mailbox.mapHeld (φ : Continuation → Continuation) (m : Mailbox) : Mailbox :=
  { m with receiver := m.receiver.map (Waker.mapHeld φ) }

/-- The same variable, with other continuations waiting for it. -/
def Variable.mapHeld (φ : Continuation → Continuation) (v : Variable) : Variable :=
  { v with waiters := v.waiters.map (Waker.mapHeld φ) }

/-- The same scheduler with other tasks. -/
def Scheduler.mapTasks {τ : Type} (f : τ → τ) (s : Scheduler τ) : Scheduler τ :=
  { s with
    ready := s.ready.map f
    timers := s.timers.map fun timer => { timer with task := f timer.task } }

namespace World

/-- The same world with other continuations in its tasks, timers and cells. -/
def mapHeld (φ : Continuation → Continuation) (w : World) : World :=
  { w with
    processes := w.processes.map (Process.mapHeld φ)
    mailboxes := w.mailboxes.map (Mailbox.mapHeld φ)
    dataflows := w.dataflows.map (Variable.mapHeld φ)
    scheduler := w.scheduler.mapTasks (Task.mapHeld φ) }

variable (φ : Continuation → Continuation) (w : World)

@[simp] theorem process_mapHeld (p : ProcessId) :
    (w.mapHeld φ).process p = (w.process p).mapHeld φ := Table.get_map rfl _ _

@[simp] theorem mailbox_mapHeld (m : MailboxId) :
    (w.mapHeld φ).mailbox m = (w.mailbox m).mapHeld φ := Table.get_map rfl _ _

@[simp] theorem dataflow_mapHeld (v : VariableId) :
    (w.mapHeld φ).dataflow v = (w.dataflow v).mapHeld φ := Table.get_map rfl _ _

theorem later_mapHeld (task : Task) :
    (w.mapHeld φ).later (task.mapHeld φ) = (w.later task).mapHeld φ := by
  simp [later, mapScheduler, mapHeld, Scheduler.later, Scheduler.mapTasks, Scheduler.countScheduled,
    Scheduler.count]

theorem foldl_mapHeld {α : Type} {f : World → α → World} {g : α → α}
    (h : ∀ w a, f (w.mapHeld φ) (g a) = (f w a).mapHeld φ) (l : List α) :
    (l.map g).foldl f (w.mapHeld φ) = (l.foldl f w).mapHeld φ := by
  induction l generalizing w with
  | nil => rfl
  | cons a l ih =>
    simp only [List.map_cons, List.foldl_cons, h]
    exact ih _

theorem setMailbox_mapHeld (m : MailboxId) (mailbox : Mailbox) :
    (w.mapHeld φ).setMailbox m (mailbox.mapHeld φ) = (w.setMailbox m mailbox).mapHeld φ := by
  have h := w.mailboxes.map_modify (f := Mailbox.mapHeld φ) (g := fun _ => mailbox)
    (k := fun _ => mailbox.mapHeld φ) (fun _ => rfl) m.index
  simp only [setMailbox, mapHeld, Table.set, h]

theorem modifyVariable_mapHeld (v : VariableId) (cell : Variable) :
    (w.mapHeld φ).modifyVariable v (fun _ => cell.mapHeld φ) =
      (w.modifyVariable v fun _ => cell).mapHeld φ := by
  have h := w.dataflows.map_modify (f := Variable.mapHeld φ) (g := fun _ => cell)
    (k := fun _ => cell.mapHeld φ) (fun _ => rfl) v.index
  simp only [modifyVariable, mapHeld, h]

theorem modifyProcess_mapHeld (p : ProcessId) (process : Process) :
    (w.mapHeld φ).modifyProcess p (fun _ => process.mapHeld φ) =
      (w.modifyProcess p fun _ => process).mapHeld φ := by
  have h := w.processes.map_modify (f := Process.mapHeld φ) (g := fun _ => process)
    (k := fun _ => process.mapHeld φ) (fun _ => rfl) p.index
  simp only [modifyProcess, mapHeld, h]

/-- A receiver that is woken by a message is only moved. -/
theorem deliver_mapHeld (m : MailboxId) (message : Value) :
    (w.mapHeld φ).deliver m message = (w.deliver m message).mapHeld φ := by
  have hset := (w.count Stats.posted).setMailbox_mapHeld φ m ((w.mailbox m).post message).1
  unfold deliver
  rw [mailbox_mapHeld]
  dsimp only [Mailbox.post, Mailbox.mapHeld] at hset ⊢
  cases (w.mailbox m).receiver with
  | none => exact hset
  | some waker =>
    rw [← later_mapHeld]
    exact congrArg (later · (.wakeReceiver m (waker.mapHeld φ))) hset

/-- Those who are woken by a value are only moved. -/
theorem bind_mapHeld (v : VariableId) (value : Value) :
    (w.mapHeld φ).bind v value = (w.bind v value).mapHeld φ := by
  unfold bind
  rw [dataflow_mapHeld]
  dsimp only [Variable.bind?, Variable.mapHeld]
  cases (w.dataflow v).value with
  | some old => rfl
  | none =>
    have hset := w.modifyVariable_mapHeld φ v
      { w.dataflow v with value := some value, waiters := [] }
    refine Eq.trans ?_ (foldl_mapHeld φ _ (g := Waker.mapHeld φ)
      (fun w waker => later_mapHeld φ w (.wakeWaiter waker value)) _)
    rw [← hset]
    rfl

/-! Continuations do not show in the text or the view of a value. -/

theorem displayWithin_mapHeld (fuel : Nat) (v : Value) :
    (w.mapHeld φ).displayWithin fuel v = w.displayWithin fuel v := by
  induction fuel generalizing v with
  | zero =>
    cases v with
    | mailbox m => simp only [displayWithin, mailbox_mapHeld, Mailbox.mapHeld]
    | dataflow x => simp only [displayWithin, dataflow_mapHeld, Variable.mapHeld]
    | _ => rfl
  | succ fuel ih =>
    cases v with
    | mailbox m => simp only [displayWithin, mailbox_mapHeld, Mailbox.mapHeld]
    | dataflow x => simp only [displayWithin, dataflow_mapHeld, Variable.mapHeld, ih]
    | _ => rfl

theorem display_mapHeld : (w.mapHeld φ).display = w.display := by
  funext v
  have hsize : (w.mapHeld φ).dataflows.size = w.dataflows.size := Table.size_map _ _
  rw [display, display, hsize, displayWithin_mapHeld]

theorem view_mapHeld (v : Value) : (w.mapHeld φ).view v = w.view v := by
  cases v with
  | process p =>
    simp only [view, process_mapHeld, mailbox_mapHeld, display_mapHeld, Process.mapHeld,
      Mailbox.mapHeld, Option.isSome_map, List.length_map]
  | mailbox m => simp only [view, mailbox_mapHeld, Mailbox.mapHeld, Option.isSome_map]
  | dataflow x =>
    simp only [view, dataflow_mapHeld, display_mapHeld, Variable.mapHeld, List.length_map]
  | _ => rfl

theorem wakeJoiner_mapHeld (result : Value) (waker : Waker) :
    (w.mapHeld φ).wakeJoiner result (waker.mapHeld φ) = (w.wakeJoiner result waker).mapHeld φ := by
  cases waker with
  | resume epoch s k =>
    have ha : (w.mapHeld φ).isAbandoned epoch = w.isAbandoned epoch := rfl
    simp only [wakeJoiner, Waker.mapHeld, ha]
    split
    · rfl
    · exact later_mapHeld φ w (.resume k (.ok (s.push result)))
  | report tag =>
    simp only [wakeJoiner, Waker.mapHeld, view_mapHeld]
    rfl

theorem complete_mapHeld (p : Process) (result : Value) (failure : Option Error) :
    (p.mapHeld φ).complete result failure =
      ((p.complete result failure).1.mapHeld φ,
        (p.complete result failure).2.map (Waker.mapHeld φ)) := by
  have hs : (p.mapHeld φ).state = p.state := rfl
  unfold Process.complete
  rw [hs]
  split <;> rfl

/-- Those who are woken by the end of a process are only moved. -/
theorem finishProcess_mapHeld (p : ProcessId) (outcome : Outcome) :
    (w.mapHeld φ).finishProcess p outcome = (w.finishProcess p outcome).mapHeld φ := by
  have key : ∀ (result : Value) (failure : Option Error),
      (((w.process p).mapHeld φ).complete result failure).2.foldl (·.wakeJoiner result ·)
        (((w.mapHeld φ).count Stats.completed).modifyProcess p
          fun _ => (((w.process p).mapHeld φ).complete result failure).1) =
      (((w.process p).complete result failure).2.foldl (·.wakeJoiner result ·)
        ((w.count Stats.completed).modifyProcess p
          fun _ => ((w.process p).complete result failure).1)).mapHeld φ := by
    intro result failure
    have hset := (w.count Stats.completed).modifyProcess_mapHeld φ p
      ((w.process p).complete result failure).1
    rw [complete_mapHeld, ← foldl_mapHeld φ _ (wakeJoiner_mapHeld φ · result ·), ← hset]
    rfl
  unfold finishProcess
  rw [process_mapHeld]
  cases outcome with
  | ok s => exact key _ _
  | error e => exact key _ _

end World

/-! ## Turns -/

/-- Whether a continuation is being resumed. -/
def Control.isResume : Control → Bool
  | .resume _ _ => true
  | _ => false

/-- Whether an effect puts a continuation off or may wake one. -/
def Effect.handsOn : Effect → Bool
  | .later _ | .schedule _ _ | .awaitVariable _ _ _ | .awaitProcess _ _ _ | .receive _ _
  | .deliver _ _ | .bind _ _ | .finish _ _ => true
  | _ => false

/-- A step of the work of a turn that hands a continuation on does not go on to resume one. -/
theorem Does.not_isResume {w : World} {c c' : Control} {es : List Effect} (h : Does w c es c')
    (he : ∃ e ∈ es, e.handsOn = true) : c'.isResume = false := by
  cases h with
  | skip | leave | harvest | giveUp => simp [Effect.handsOn] at he
  | _ => rfl

/-- Nor does any step from where none is being resumed, but for the beginning of a turn. -/
theorem Next.not_isResume {policy : Policy} {m m' : Moment} {es : List Event}
    (h : Next policy m es m') (hm : m.control.isResume = false)
    (ht : .beginTurn ∉ effectsOf es) : m'.control.isResume = false := by
  cases h with
  | work hd =>
    cases hd with
    | skip | leave | harvest | giveUp => cases hm
    | _ => rfl
  | turn hr hb =>
    rw [effectsOf_map] at ht
    exact absurd (List.mem_cons_self ..) ht
  | evaluate strict program henv hs => rfl
  | install => rfl
  | outside he => exact hm

theorem Run.not_isResume {policy : Policy} {m m' : Moment} {es : List Event}
    (h : Run policy m es m') (hm : m.control.isResume = false)
    (ht : .beginTurn ∉ effectsOf es) : m'.control.isResume = false := by
  induction h with
  | refl => exact hm
  | step _ hn ih =>
    rw [effectsOf_append, List.mem_append, not_or] at ht
    exact hn.not_isResume (ih ht.1) ht.2

/-- Only the work of a turn hands continuations on. -/
theorem Next.not_isResume_of_handsOn {starts : World → Stack → Prop} {m m' : Moment}
    {es : List Event} (h : Next (.evaluations starts) m es m')
    (he : ∃ e ∈ effectsOf es, e.handsOn = true) : m'.control.isResume = false := by
  cases h with
  | work hd =>
    rw [effectsOf_map] at he
    exact hd.not_isResume he
  | turn hr hb =>
    rw [effectsOf_map] at he
    cases hb <;> simp [Effect.handsOn] at he
  | evaluate strict program henv hs => rfl
  | install => rfl
  | outside ha =>
    obtain ⟨e, he, hon⟩ := he
    obtain rfl := List.mem_singleton.1 he
    rcases ha with (rfl | rfl | rfl | ⟨elapsed, lapses, rfl⟩) | rfl | ⟨epoch, rfl⟩ <;> cases hon

/-- What becomes of continuations at a moment. -/
structure Moment.Defers (m : Moment) : Prop where
  /-- Every word that takes its caller's continuation puts it off, whatever the stack. -/
  call {p : Primitive} (hp : p.behaviour.isNative = true)
    {start : World → EnvId → Stack → Continuation → World} (hc : p.call = .async start)
    (env : EnvId) (s : Stack) : PutsOff (start m.world env s)
  /-- Running code puts the continuation off. -/
  run (env : EnvId) (code : Code) {s : Stack} (hs : s.Sound m.world) :
    PutsOff (m.world.runThen env code s)
  /-- Nothing but the continuation gets what comes of the run. -/
  suspended (env : EnvId) (k : Continuation) (code : Code) (s : Stack) :
    (World.run env (some k) code m.world s).2 = .suspended
  /-- A stack or a failure that the run ends with goes to the continuation, on a later turn. -/
  outcome {env : EnvId} {code : Code} {s : Stack} {outcome : Outcome}
    (ho : (World.run env none code m.world s).2.outcome? = some outcome) (k : Continuation) :
    m.world.runThen env code s k = (World.run env none code m.world s).1.resumeLater k outcome
  /-- Posting only moves the continuation that waits in the mailbox. -/
  deliver (φ : Continuation → Continuation) (b : MailboxId) (message : Value) :
    (m.world.mapHeld φ).deliver b message = (m.world.deliver b message).mapHeld φ
  /-- Binding only moves the continuations that wait for the variable. -/
  bind (φ : Continuation → Continuation) (v : VariableId) (value : Value) :
    (m.world.mapHeld φ).bind v value = (m.world.bind v value).mapHeld φ
  /-- The end of a process only moves the continuations that wait for it. -/
  finish (φ : Continuation → Continuation) (p : ProcessId) (outcome : Outcome) :
    (m.world.mapHeld φ).finishProcess p outcome = (m.world.finishProcess p outcome).mapHeld φ
  /-- Once a continuation has been put off or woken, none is resumed before another turn begins. -/
  turn {m' m'' : Moment} {es fs : List Event} (hn : Next .sound m es m')
    (he : ∃ e ∈ effectsOf es, e.handsOn = true) (hr : Run .sound m' fs m'')
    (ht : .beginTurn ∉ effectsOf fs) : m''.control.isResume = false

/-- **No continuation is resumed by the call that it is handed to, nor in the same turn.** -/
theorem continuations_wait {m : Moment} {es : List Event} (h : Run .sound .dawn es m) :
    m.Defers := by
  have hm := h.sound (Policy.evaluations_sound fun _ _ hs => hs) Moment.sound_dawn
  exact {
    call := fun hp _ hc env s => .call hm.world hp hc env s
    run := fun env code _ hs => .runThen env code hm.world hs
    suspended := fun env k code s => World.run_some_snd env k code m.world s
    outcome := World.runThen_of_outcome
    deliver := fun φ => m.world.deliver_mapHeld φ
    bind := fun φ => m.world.bind_mapHeld φ
    finish := fun φ => m.world.finishProcess_mapHeld φ
    turn := fun hn he hr => hr.not_isResume (hn.not_isResume_of_handsOn he) }

/-- The moment after a program has been given up while it waited for a variable. -/
theorem continuations_wait_parked :
    ∃ (es : List Event) (m : Moment), Run .sound .dawn es m ∧
      (m.world.dataflow ⟨0⟩).waiters.length = 1 ∧ m.Defers := by
  have h : Evaluated (fun w s => s.Sound w) World.fresh [⟨⟨0⟩, { maxTurns := some 3 }⟩] := .fresh _
  have hst : ∀ (w : World) (s : Stack), s.Sound w → s.Sound w := fun _ _ hs => hs
  obtain ⟨hl, hd⟩ := h.leads hst
  obtain ⟨es, hrun⟩ := hl.trans (leads_evaluate [.symbol "v", .word "dfvar", .word "await"]
    (h.sound hst) (.empty _) (.empty _) (List.mem_singleton.2 rfl) hd).1
  exact ⟨es, _, hrun, by cbv, continuations_wait hrun⟩

end Catena
