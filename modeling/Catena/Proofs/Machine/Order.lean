import Catena.Host.Console
import Catena.Proofs.Machine.Chronicle
import Catena.Proofs.Machine.Resolution

/-!
# Turns in order

Whatever the embedding program does with a world, its scheduler goes through one of the histories in
which turns are taken in order (`Scheduler.Possible.inOrder`). To see this, every function that
changes the world is followed down to what it does to the scheduler, which inside of a turn is never
more than a few moves: tasks are queued, put off or dropped, and something is counted
(`Scheduler.Move`). So no turn begins inside of another one, and taking turns there does nothing
(`turns_in_order`).
-/

namespace Catena

/-! ## Moves -/

namespace Scheduler

variable {τ : Type} {s s' s'' : Scheduler τ}

/-- What happens to a scheduler besides its turns. -/
inductive Move (s : Scheduler τ) : Scheduler τ → Prop
  | later (task : τ) : Move s (s.later task)
  | after (delay : Nat) (task : τ) : Move s (s.schedule (s.clock + delay) task)
  | discard : Move s s.discard
  | keep {s' : Scheduler τ} (hs : s.Keeps s') : Move s s'

/-- Any number of moves. -/
def Moves : Scheduler τ → Scheduler τ → Prop := Relation.ReflTransGen Move

namespace Moves

theorem refl (s : Scheduler τ) : s.Moves s := Relation.ReflTransGen.refl

theorem trans (h : s.Moves s') (h' : s'.Moves s'') : s.Moves s'' := Relation.ReflTransGen.trans h h'

theorem one (h : s.Move s') : s.Moves s' := .single h

theorem count (s : Scheduler τ) {f : Stats → Stats}
    (hf : ∀ stats, (f stats).maxDispatchDepth ≤ stats.maxDispatchDepth) : s.Moves (s.count f) :=
  .one (.keep ⟨rfl, rfl, rfl, rfl, rfl, hf s.stats⟩)

/-- Moves take no time, and no turn begins or ends. -/
theorem still (h : s.Moves s') : s'.clock = s.clock ∧ s'.dispatchDepth = s.dispatchDepth := by
  induction h with
  | refl => exact ⟨rfl, rfl⟩
  | tail _ hm ih =>
    cases hm with
    | later | after | discard => exact ih
    | keep hs => exact ⟨hs.clock.trans ih.1, hs.dispatchDepth.trans ih.2⟩

/-- Whatever moves can bring about can have happened, and no turn has begun meanwhile. -/
theorem possible {h : History τ} (hp : Possible h) (hm : h.scheduler.Moves s) :
    ∃ h', Possible h' ∧ h'.scheduler = s ∧ h'.starts = h.starts := by
  induction hm with
  | refl => exact ⟨h, hp, rfl, rfl⟩
  | tail _ hm ih =>
    obtain ⟨h', hp', rfl, hstarts⟩ := ih
    cases hm with
    | later task => exact ⟨_, hp'.tail (.later task), rfl, hstarts⟩
    | after delay task => exact ⟨_, hp'.tail (.after delay task), rfl, hstarts⟩
    | discard => exact ⟨_, hp'.tail .discard, rfl, hstarts⟩
    | keep hs => exact ⟨_, hp'.tail (.keep hs), rfl, hstarts⟩

end Moves

/-- Before a turn, what is due becomes ready; if that is nothing, time passes until something is. -/
theorem settle_eq (s : Scheduler τ) :
    s.settle = s.promote s.clock ∨ ∃ elapsed,
      s.settle = { s.promote s.clock with clock := s.clock + elapsed }.promote
        (s.clock + elapsed) := by
  simp only [settle]
  split
  · rename_i timer rest _ htimers
    -- The first timer that is left is not due yet.
    have hdue : s.clock < timer.due := by
      have htimers : s.timers.dropWhile (fun timer => timer.due ≤ s.clock) = timer :: rest := htimers
      have hhead := List.head?_dropWhile_not (fun timer : Timer τ => timer.due ≤ s.clock) s.timers
      rw [htimers] at hhead
      exact Nat.lt_of_not_le (of_decide_eq_false hhead)
    refine .inr ⟨timer.due - s.clock, ?_⟩
    rw [Nat.add_sub_cancel' hdue.le]
  · exact .inl rfl

theorem Possible.settle {h : History τ} (hp : Possible h) :
    ∃ h', Possible h' ∧ h'.scheduler = h.scheduler.settle ∧ h'.starts = h.starts := by
  rcases h.scheduler.settle_eq with hs | ⟨elapsed, hs⟩
  · exact ⟨_, hp.tail .promote, hs.symm, rfl⟩
  · exact ⟨_, ((hp.tail .promote).tail (.pass elapsed)).tail .promote, hs.symm, rfl⟩

end Scheduler

open Scheduler (Move Moves Possible Start History InOrder)

/-! ## What the functions that change a world do to its scheduler -/

namespace World

variable {w v u : World}

/-- The scheduler of a world moves. -/
def Moves (w v : World) : Prop := w.scheduler.Moves v.scheduler

namespace Moves

theorem of_eq (h : v.scheduler = w.scheduler) : w.Moves v := by
  unfold Moves
  rw [h]
  exact .refl _

theorem refl (w : World) : w.Moves w := .of_eq rfl

theorem trans (h : w.Moves v) (h' : v.Moves u) : w.Moves u := Scheduler.Moves.trans h h'

theorem later (w : World) (task : Task) : w.Moves (w.later task) := .one (.later task)

theorem resumeLater (w : World) (k : Continuation) (outcome : Outcome) :
    w.Moves (w.resumeLater k outcome) := .later w _

theorem count (w : World) {f : Stats → Stats}
    (hf : ∀ stats, (f stats).maxDispatchDepth ≤ stats.maxDispatchDepth) : w.Moves (w.count f) :=
  Scheduler.Moves.count w.scheduler hf

theorem schedule (w : World) {due : Nat} (task : Task) (h : w.scheduler.clock ≤ due) :
    w.Moves (w.mapScheduler (·.schedule due task)) := by
  obtain ⟨delay, rfl⟩ := Nat.exists_eq_add_of_le h
  exact .one (.after delay task)

theorem foldl {α : Type} {f : World → α → World} (hf : ∀ (u : World) a, u.Moves (f u a)) (l : List α)
    (w : World) : w.Moves (l.foldl f w) := by
  induction l generalizing w with
  | nil => exact .refl w
  | cons a l ih => exact (hf w a).trans (ih (f w a))

theorem instantiate (w : World) (env : EnvId) (block : Block) :
    w.Moves (w.instantiate env block).1 := by
  refine .of_eq ?_
  unfold World.instantiate
  split <;> rfl

theorem deliver (w : World) (m : MailboxId) (message : Value) : w.Moves (w.deliver m message) := by
  have hposted : w.Moves ((w.count Stats.posted).setMailbox m ((w.mailbox m).post message).1) :=
    .count w fun _ => le_rfl
  unfold World.deliver
  dsimp only
  split
  · exact hposted.trans (.later _ _)
  · exact hposted

theorem bind (w : World) (x : VariableId) (value : Value) : w.Moves (w.bind x value) := by
  unfold World.bind
  split
  · exact .foldl (fun u waker => .later u _) _ (w.modifyVariable x _)
  · exact .refl w

theorem awaitVariable (w : World) (x : VariableId) (s : Stack) (k : Continuation) :
    w.Moves (w.awaitVariable x s k) := by
  unfold World.awaitVariable
  split
  · exact .resumeLater w k _
  · exact .of_eq rfl

theorem awaitProcess (w : World) (p : ProcessId) (s : Stack) (k : Continuation) :
    w.Moves (w.awaitProcess p s k) := by
  unfold World.awaitProcess
  split
  · exact .resumeLater w k _
  · exact .of_eq rfl

theorem receive (w : World) (s : Stack) (k : Continuation) : w.Moves (w.receive s k) := by
  unfold World.receive
  split
  · exact .resumeLater w k _
  · dsimp only
    split
    · refine .trans (v := (w.setMailbox _ _).count Stats.received) ?_ (.resumeLater _ k _)
      exact .count (w.setMailbox _ _) fun _ => le_rfl
    · split
      · exact .of_eq rfl
      · exact .resumeLater w k _

theorem wakeJoiner (w : World) (result : Value) (waker : Waker) :
    w.Moves (w.wakeJoiner result waker) := by
  cases waker with
  | report tag => exact .of_eq rfl
  | resume epoch s k =>
    simp only [World.wakeJoiner]
    split
    · exact .refl w
    · exact .resumeLater w k _

theorem finishProcess (w : World) (p : ProcessId) (outcome : Outcome) :
    w.Moves (w.finishProcess p outcome) := by
  have hcounted : w.Moves (w.count Stats.completed) := .count w fun _ => le_rfl
  unfold World.finishProcess
  exact hcounted.trans (.foldl (fun u waker => .wakeJoiner u _ waker) _
    ((w.count Stats.completed).modifyProcess p _))

theorem startProcess (w : World) (captured : Bindings Value) (block : Block)
    (parent : Option ProcessId) : w.Moves (w.apply (.spawn captured block parent)) := by
  have hcounted : w.scheduler.Moves (w.scheduler.count Stats.spawned) := .count _ fun _ => le_rfl
  exact hcounted.trans (.one (.later _))

/-- **What a step does, moves the scheduler.** -/
theorem apply {e : Effect} (he : e.OfStep w.scheduler.clock) : w.Moves (w.apply e) := by
  cases e with
  | snapshot env block => exact .instantiate w env block
  | spawn captured block parent => exact .startProcess w captured block parent
  | deliver m message => exact .deliver w m message
  | bind x value => exact .bind w x value
  | later task => exact .later w task
  | schedule due task => exact .schedule w task he.1
  | awaitVariable x s k => exact .awaitVariable w x s k
  | awaitProcess p s k => exact .awaitProcess w p s k
  | receive s k => exact .receive w s k
  | finish p outcome => exact .finishProcess w p outcome
  | report | print | define | defineWord | adopt | newObject | setProperty | newVariable
  | fillSlot | restore | harvest => exact .of_eq rfl
  | _ => cases he

theorem replay {es : List Effect} (he : ∀ e ∈ es, e.OfStep w.scheduler.clock) :
    w.Moves (w.replay es) := by
  induction es generalizing w with
  | nil => exact .refl w
  | cons e es ih =>
    obtain ⟨hfirst, hrest⟩ := List.forall_mem_cons.1 he
    have hone := Moves.apply hfirst
    refine hone.trans (ih fun f hf => ?_)
    rw [hone.still.1]
    exact hrest f hf

theorem alongside {w' v' : World} (h : Alongside w v w' v') : w.Moves w' := by
  obtain ⟨es, hes⟩ := h
  exact .replay hes

/-- A step of a turn moves the scheduler. -/
theorem advance (w : World) (f : Focus) : w.Moves (w.advance f).1 := by
  by_cases hf : f.Unresolved w
  · obtain ⟨rest, s, k, hl⟩ := hf
    cases hs : w.strict with
    | false =>
      rw [advance_of_lax rest s k hl hs]
      exact .of_eq rfl
    | true =>
      rw [advance_of_strict rest s k hl hs]
      exact .alongside (v := w) (Alongside.refl.failTo _ k)
  · have htogether := (together_advance (.refl w) hf).2
    generalize w.advance f = result at htogether
    obtain ⟨w', f'⟩ := result
    cases htogether with
    | effects h => exact .alongside h
    | told | resumed => exact .of_eq rfl

theorem reaches {p q : World × Focus} (h : Reaches p q) : p.1.Moves q.1 :=
  h.induct (I := fun u => p.1.Moves u) (fun u f hu => hu.trans (.advance u f)) (.refl _)

theorem runThen (w : World) (env : EnvId) (code : Code) (s : Stack) (k : Continuation) :
    w.Moves (w.runThen env code s k) := .reaches (reaches_runThen env code w s k)

theorem resume (w : World) (k : Continuation) (outcome : Outcome) :
    w.Moves (w.resume k outcome) := .reaches (reaches_resume w k outcome)

/-! ### The embedding program -/

theorem wakeWaiter (w : World) (value : Value) (waker : Waker) :
    w.Moves (w.wakeWaiter value waker) := by
  cases waker with
  | report tag => exact .of_eq rfl
  | resume epoch s k =>
    simp only [World.wakeWaiter]
    split
    · exact .refl w
    · exact .resume w k _

theorem wakeReceiver (w : World) (m : MailboxId) (message : Value) (waker : Waker) :
    w.Moves (w.wakeReceiver m message waker) := by
  cases waker with
  | report tag => exact .of_eq rfl
  | resume epoch s k =>
    simp only [World.wakeReceiver]
    split
    · exact .of_eq rfl
    · have hreceived : w.Moves (w.count Stats.received) := .count w fun _ => le_rfl
      exact hreceived.trans (.resume _ k _)

theorem readValues (w : World) (source : String) : w.Moves (w.readValues source).1 := by
  refine .of_eq ?_
  unfold World.readValues
  split <;> rfl

theorem readValue (w : World) (source : String) : w.Moves (w.readValue source).1 :=
  .readValues w source

theorem readStack (w : World) (source : String) (owner : Option ProcessId) :
    w.Moves (w.readStack source owner).1 := .readValues w source

theorem hostCall (w : World) (p : Primitive) (s : Stack) (tag : String) :
    w.Moves (w.hostCall p s tag).1 := by
  unfold World.hostCall
  cases hc : p.call with
  | async start => exact .alongside ((Alike.refl w).call hc w.host.env s _)
  | sync action =>
    have hmoves := Moves.alongside (concurs_sync hc w.host.env s (.refl w)).worlds
    dsimp only
    generalize (action w.host.env s).run w = result at hmoves
    obtain ⟨outcome, v⟩ := result
    cases outcome with
    | ok t => exact hmoves
    | error e => exact hmoves

theorem hostCallWord (w : World) (word : Name) (s : Stack) (tag : String) :
    w.Moves (w.hostCallWord word s tag).1 := by
  unfold World.hostCallWord
  split
  · exact .hostCall w _ s tag
  · exact .refl w

/-- **What the embedding program asks for between turns, or inside of one, moves the scheduler.** -/
theorem carryOut (w : World) (command : Host.Command) : w.Moves (w.carryOut command).1 := by
  cases command with
  | later task => exact .later w _
  | after delay task =>
    simp only [World.carryOut, scriptAfter]
    split
    · rename_i due hdue
      exact .schedule w _ (le_of_deadline? hdue)
    · exact .refl w
  | discard => exact .one .discard
  | resetStats => exact .one (.keep ⟨rfl, rfl, rfl, rfl, rfl, Nat.zero_le _⟩)
  | beginEpoch | abandon => exact .one (.keep ⟨rfl, rfl, rfl, rfl, rfl, le_rfl⟩)
  | countSpawned | countCompleted | countPosted | countReceived => exact .count w fun _ => le_rfl
  | complete index value failure =>
    have hread := Moves.readValue w value
    exact hread.trans (.foldl (fun u waker => .wakeJoiner u _ waker) _
      ((w.readValue value).1.modifyProcess _ _))
  | await target tag stack =>
    have hread := Moves.readStack w stack none
    cases target <;> exact hread.trans (.hostCallWord _ _ _ tag)
  | receive index tag stack =>
    have hread := Moves.readStack w stack (some (w.hostProcess index))
    show w.Moves ((w.readStack stack (some (w.hostProcess index))).1.hostCallWord _ _ tag).1
    exact hread.trans (.hostCallWord _ _ _ tag)
  | call word tag stack owner =>
    have hread := Moves.readStack w stack (owner.map w.hostProcess)
    show w.Moves ((w.readStack stack (owner.map w.hostProcess)).1.hostCallWord word _ tag).1
    exact hread.trans (.hostCallWord _ word _ tag)
  | wait box tag =>
    simp only [World.carryOut]
    split <;> exact .of_eq rfl
  | deliver box value => exact (Moves.readValue w value).trans (.deliver _ _ _)
  | post box value call =>
    have hread := Moves.readValue w value
    simp only [World.carryOut]
    generalize Mailbox.post ((w.readValue value).1.mailbox (w.hostMailbox box)) _ = posted
    split
    · have hposted : w.Moves ((w.readValue value).1.setMailbox (w.hostMailbox box) posted.1) := hread
      exact hposted.trans ((Moves.readValue _ _).trans (.wakeReceiver _ _ _ _))
    · exact hread
    · exact hread
  | take box =>
    simp only [World.carryOut]
    split <;> exact .of_eq rfl
  | requeue box value => exact .readValue w value
  | bindNow index value =>
    have hread := Moves.readValue w value
    simp only [World.carryOut]
    split
    · exact hread.trans (.foldl (fun u waker => .wakeWaiter u _ waker) _
        ((w.readValue value).1.modifyVariable _ _))
    · exact hread
  | bind index values => exact (Moves.readStack w values none).trans (.hostCallWord _ _ _ "")
  | _ => exact .of_eq rfl

theorem runScript (w : World) (commands : List Host.Command) :
    w.Moves (w.runScript commands) := by
  refine .foldl (fun u command => ?_) commands w
  exact (Moves.carryOut u command).trans (.of_eq rfl)

/-! ### Turns -/

theorem offer (w : World) (m : MailboxId) (epoch : Nat) (waker : Waker) :
    w.Moves (w.offer m epoch waker).1 := by
  unfold World.offer
  split
  · dsimp only
    split
    · exact .of_eq rfl
    · exact .count (w.setMailbox m _) fun _ => le_rfl
  · split <;> exact .of_eq rfl

theorem wakeNext (w : World) (m : MailboxId) (waker : Waker) : w.Moves (w.wakeNext m waker) := by
  unfold World.wakeNext
  split
  · exact .wakeReceiver (w.setMailbox m _) m _ waker
  · split <;> exact .of_eq rfl

theorem embark (w : World) (task : Task) : w.Moves (w.embark task).1 := by
  cases task with
  | resume | start => exact .of_eq rfl
  | activate captured own block exit s k => cases own <;> exact .of_eq rfl
  | wakeReceiver m waker =>
    cases waker with
    | resume epoch s k => exact .offer w m epoch _
    | report tag =>
      simp only [World.embark]
      split
      · exact .of_eq rfl
      · exact .wakeNext w m _
  | wakeWaiter waker value => cases waker <;> exact .refl w
  | script commands => exact .runScript w commands

/-- **The work of a turn moves the scheduler**, whatever its task is. -/
theorem perform (w : World) (task : Task) : w.Moves (w.perform task) :=
  .trans (.embark w task) (.reaches (reaches_perform w task))

end Moves

/-- The points of the next turn: those that the machine comes to, and those between two commands of
the embedding program. -/
inductive Within (w : World) : World → Prop
  | point {task : Task} {rest : List Task} (hr : w.scheduler.ready = task :: rest) (j : Nat) :
      Within w (step^[j] w.opening).1
  | script {commands : List Host.Command} {rest : List Task}
      (hr : w.scheduler.ready = .script commands :: rest) (n : Nat) :
      Within w ((w.mapScheduler (·.beginTurn rest)).runScript (commands.take n))

/-- Inside of a turn one turn more is being taken than before. -/
theorem Within.dispatchDepth (h : w.Within u) :
    u.scheduler.dispatchDepth = w.scheduler.dispatchDepth + 1 := by
  cases h with
  | @point task rest hr j =>
    have hmoves : (w.mapScheduler (·.beginTurn rest)).Moves (step^[j] w.opening).1 := by
      rw [opening_of_cons hr]
      exact .trans (.embark _ task) (.reaches ⟨j, rfl⟩)
    exact hmoves.still.2
  | @script commands rest hr n =>
    have hmoves := Moves.runScript (w.mapScheduler (·.beginTurn rest)) (commands.take n)
    exact hmoves.still.2

end World

/-! ## Whatever the embedding program does -/

/-- What the embedding program can do with a world, and the tasks that have run by then, the first
one first. -/
inductive Driven : World → List Task → Prop
  | nothing : Driven {} []
  /-- A command is carried out between turns. -/
  | command {w : World} {tasks : List Task} (h : Driven w tasks) (command : Host.Command) :
      Driven (w.carryOut command).1 tasks
  /-- A program begins, and runs until it first waits. -/
  | launch {w : World} {tasks : List Task} (h : Driven w tasks) (i : Interpreter)
      (program : Program) (stack : Stack) : Driven (i.launched program stack w) tasks
  /-- What is due becomes ready, after a wait if nothing is. -/
  | settle {w : World} {tasks : List Task} (h : Driven w tasks) : Driven (w.apply .settle) tasks
  /-- A turn is taken. -/
  | turn {w : World} {tasks rest : List Task} {task : Task} (h : Driven w tasks)
      (hr : w.scheduler.ready = task :: rest) : Driven (w.turn task rest) (tasks ++ [task])
  /-- Time passes. -/
  | pass {w : World} {tasks : List Task} (h : Driven w tasks) (elapsed : Nat) :
      Driven (w.mapScheduler fun s => { s with clock := s.clock + elapsed }) tasks
  /-- Whatever else leaves the queue, the timers and the clock alone. -/
  | aside {w v : World} {tasks : List Task} (h : Driven w tasks)
      (hs : w.scheduler.Keeps v.scheduler) : Driven v tasks

namespace Driven

variable {w v : World} {tasks done : List Task}

theorem launched_moves (i : Interpreter) (program : Program) (stack : Stack) (w : World) :
    w.Moves (i.launched program stack w) := by
  have hlaunch : w.Moves (w.launch i.settings.strictWords program) :=
    .one (.keep ⟨rfl, rfl, rfl, rfl, rfl, le_rfl⟩)
  exact hlaunch.trans (.runThen _ _ _ _ _)

/-- No turn is being taken between turns. -/
theorem dispatchDepth (h : Driven w tasks) : w.scheduler.dispatchDepth = 0 := by
  induction h with
  | nothing => rfl
  | command h command ih => exact (World.Moves.carryOut _ command).still.2.trans ih
  | launch h i program stack ih => exact (launched_moves i program stack _).still.2.trans ih
  | @settle w tasks h ih =>
    rcases w.scheduler.settle_eq with hs | ⟨elapsed, hs⟩
    · exact (congrArg Scheduler.dispatchDepth hs).trans ih
    · exact (congrArg Scheduler.dispatchDepth hs).trans ih
  | @turn w tasks rest task h hr ih =>
    have hwork := (World.Moves.perform (w.mapScheduler (·.beginTurn rest)) task).still.2
    show (World.scheduler _).dispatchDepth - 1 = 0
    rw [hwork]
    show w.scheduler.dispatchDepth + 1 - 1 = 0
    rw [ih]
  | pass h elapsed ih => exact ih
  | aside h hs ih => exact hs.dispatchDepth.trans ih

/-- **The scheduler has a possible history**, in which the same tasks have run. -/
theorem possible (h : Driven w tasks) :
    ∃ past : History Task, Possible past ∧ past.scheduler = w.scheduler ∧
      past.starts.map Start.task = tasks := by
  have moved : ∀ {past : History Task} {w v : World} {tasks : List Task},
      Possible past ∧ past.scheduler = w.scheduler ∧ past.starts.map Start.task = tasks →
        w.Moves v → ∃ past' : History Task, Possible past' ∧ past'.scheduler = v.scheduler ∧
          past'.starts.map Start.task = tasks := by
    rintro past w v tasks ⟨hp, hs, rfl⟩ hm
    have hm : w.scheduler.Moves v.scheduler := hm
    rw [← hs] at hm
    obtain ⟨past', hp', hs', hstarts⟩ := hm.possible hp
    exact ⟨past', hp', hs', congrArg _ hstarts⟩
  induction h with
  | nothing => exact ⟨{}, .refl, rfl, rfl⟩
  | command h command ih =>
    obtain ⟨past, hpast⟩ := ih
    exact moved hpast (.carryOut _ command)
  | launch h i program stack ih =>
    obtain ⟨past, hpast⟩ := ih
    exact moved hpast (launched_moves i program stack _)
  | settle h ih =>
    obtain ⟨past, hp, hs, rfl⟩ := ih
    obtain ⟨past', hp', hs', hstarts⟩ := hp.settle
    exact ⟨past', hp', hs'.trans (congrArg _ hs), congrArg _ hstarts⟩
  | @turn w tasks rest task h hr ih =>
    obtain ⟨past, hp, hs, rfl⟩ := ih
    have hd : past.scheduler.dispatching = false := by
      rw [hs, Scheduler.dispatching, h.dispatchDepth]
      rfl
    have hline := hp.kept.line
    rw [hs, hr] at hline
    obtain ⟨⟨origin, task⟩, line, hl, rfl, hrest⟩ := List.map_eq_cons_iff.1 hline
    -- The turn begins, its task runs, and it ends.
    have hbegun := hp.tail (.start hd hl)
    have hscheduler : (past.start origin task line).scheduler =
        (w.mapScheduler (·.beginTurn rest)).scheduler := by
      show past.scheduler.beginTurn past.scheduler.ready.tail = w.scheduler.beginTurn rest
      rw [hs, hr, List.tail_cons]
    obtain ⟨past', hp', hs', hstarts⟩ :=
      moved ⟨hbegun, hscheduler, rfl⟩ (.perform (w.mapScheduler (·.beginTurn rest)) task)
    refine ⟨_, hp'.tail .finish, congrArg Scheduler.endTurn hs', ?_⟩
    show past'.starts.map Start.task = _
    rw [hstarts, History.start, List.map_append]
    rfl
  | pass h elapsed ih =>
    obtain ⟨past, hp, hs, hstarts⟩ := ih
    refine ⟨_, hp.tail (.pass elapsed), ?_, hstarts⟩
    rw [Scheduler.History.pass, hs]
    rfl
  | aside h hk ih =>
    obtain ⟨past, hp, hs, hstarts⟩ := ih
    exact ⟨_, hp.tail (.keep (hs ▸ hk)), rfl, hstarts⟩

/-- What goes before a turn. -/
theorem tick (h : Driven w tasks) : Driven w.tick tasks := by
  have hpassed : Driven (w.mapScheduler Scheduler.elapse) tasks :=
    (h.pass (w.scheduler.lapses.headD 0)).aside ⟨rfl, rfl, rfl, rfl, rfl, le_rfl⟩
  exact hpassed.settle

/-- Turns that are taken one after the other. -/
theorem executes (h : Driven w tasks) (hx : w.Executes done v) : Driven v (tasks ++ done) := by
  induction hx generalizing tasks with
  | nothing w =>
    rw [List.append_nil]
    exact h.tick
  | turn hr hx ih =>
    rw [List.append_cons]
    exact ih (h.tick.turn hr)

/-- Taking turns until nothing is left to do, or up to a limit. -/
theorem drain (h : Driven w tasks) (limit : Option Nat) :
    ∃ done, Driven (w.drain limit).1 (tasks ++ done) := by
  have hd : w.scheduler.dispatching = false := by
    rw [Scheduler.dispatching, h.dispatchDepth]
    rfl
  have hstarted : Driven (w.apply .startClock) tasks := h.aside ⟨rfl, rfl, rfl, rfl, rfl, le_rfl⟩
  have hdrained := World.drained_drain hd limit
  generalize w.drain limit = result at hdrained
  cases hdrained with
  | idle hx hle hr ht => exact ⟨_, hstarted.executes hx⟩
  | cut hx hlen hr => exact ⟨_, hstarted.executes hx⟩

theorem evaluate (h : Driven w tasks) (i : Interpreter) (program : Program) (stack : Stack) :
    ∃ done, Driven (i.evaluate program stack w).1 (tasks ++ done) := by
  obtain ⟨done, hdone⟩ := (h.launch i program stack).drain i.settings.maxTurns
  refine ⟨done, ?_⟩
  rw [i.evaluate_eq]
  unfold Interpreter.launched at hdone
  generalize World.drain _ i.settings.maxTurns = result at hdone
  obtain ⟨u, answer⟩ := result
  cases answer with
  | error e => exact (hdone.command (.abandon (w.scheduler.epoch + 1))).command .discard
  | ok taken =>
    dsimp only
    split
    · exact hdone
    · exact hdone.command (.abandon (w.scheduler.epoch + 1))

end Driven

/-- The turns that have been taken were taken in order, and no turn begins inside of the next. -/
structure Orderly (w : World) (tasks : List Task) : Prop where
  history : ∃ past : History Task, Possible past ∧ past.scheduler = w.scheduler ∧
    past.starts.map Start.task = tasks
  /-- Commands from outside of turns and evaluations only take more turns. -/
  commands : ∀ command, ∃ done, Driven (w.command command).1 (tasks ++ done)
  evaluations : ∀ (i : Interpreter) (program : Program) (stack : Stack),
    ∃ done, Driven (i.evaluate program stack w).1 (tasks ++ done)
  rests : w.scheduler.dispatchDepth = 0
  /-- Inside of the next turn, taking turns does nothing. -/
  nested : ∀ u, w.Within u → u.scheduler.dispatchDepth = 1 ∧
    ∀ limit, u.drain limit = (u, .ok 0) ∧ u.carryOut (.run limit) = (u, .count 0)

/-- **Turns are taken in order, one after the other**: whatever happens to a scheduler, at whatever
times, tasks run in the order in which they were queued and timers in the order of their deadlines,
none of them twice; and whatever the embedding program does, its world goes through such a history
and does not take turns inside of turns. -/
theorem turns_in_order :
    (∀ (τ : Type) (past : History τ), Possible past → InOrder past) ∧
      ∀ w tasks, Driven w tasks → Orderly w tasks := by
  refine ⟨fun τ past hp => hp.inOrder, fun w tasks h => ?_⟩
  refine ⟨h.possible, fun command => ?_, h.evaluate, h.dispatchDepth, fun u hu => ?_⟩
  · cases command with
    | run limit =>
      obtain ⟨done, hdone⟩ := h.drain limit
      refine ⟨done, ?_⟩
      rw [World.command]
      generalize w.drain limit = result at hdone
      obtain ⟨v, answer⟩ := result
      cases answer <;> exact hdone
    | _ => exact ⟨[], by rw [List.append_nil]; exact h.command _⟩
  · have hdepth : u.scheduler.dispatchDepth = 1 := by rw [hu.dispatchDepth, h.dispatchDepth]
    refine ⟨hdepth, fun limit => ⟨World.drain_of_dispatching ?_ limit, rfl⟩⟩
    rw [Scheduler.dispatching, hdepth]
    rfl

/-- Three timers and a task that takes turns itself: the task runs first, and then the timers by
their deadlines, the one that was set first before the other that is due with it. -/
theorem turns_in_order_timers :
    ∃ (w : World) (past : History Task),
      Driven w [.script [.log "task", .run none], .script [.log "second"], .script [.log "third"],
        .script [.log "late"]] ∧
      Possible past ∧ InOrder past ∧ Orderly w (past.starts.map Start.task) ∧
      w.host.log.reverse = [.answer (.note "task"), .answer (.count 0), .answer (.note "second"),
        .answer (.note "third"), .answer (.note "late")] := by
  have hset := ((Driven.nothing.command (.after 20 [.log "late"])).command
    (.after 5 [.log "second"])).command (.after 5 [.log "third"])
  have hqueued := hset.command (.later [.log "task", .run none])
  have hdriven := (((hqueued.settle.turn rfl).settle.turn rfl).settle.turn rfl).settle.turn rfl
  obtain ⟨hpossible, horderly⟩ := turns_in_order
  have horder := horderly _ _ hdriven
  obtain ⟨past, hpast, -, hstarts⟩ := horder.history
  exact ⟨_, past, hdriven, hpast, hpossible Task past hpast, hstarts ▸ horder, rfl⟩

end Catena
