import Catena.Proofs.Direct.Evaluator
import Catena.Proofs.Machine.Evaluations
import Mathlib

/-!
# Turns do what plain recursion does

A program that never waits comes to the same end in turns as in one go. While it runs on the
machine, at most one task is queued at any time, and apart from its scheduler the machine's world is
the world of the recursion (`Tracks`). What the recursion returns, the machine hands to the
continuation some turns later: the one task in the queue carries it there (`Carries`). This holds of
every word and every block, whatever the continuation (`Follows`), by induction over the code, the
number of repetitions and the depth of the recursion. The evaluation of a program is the case of the
continuation that fills its slot.
-/

namespace Catena

/-- The world with another scheduler. -/
def World.on (u : World) (s : Scheduler Task) : World := { u with scheduler := s }

/-- Nobody waits for a message or for a variable. -/
structure World.Calm (u : World) : Prop where
  mailboxes : u.mailboxes.All fun _ mailbox => mailbox.receiver = none
  dataflows : u.dataflows.All fun _ cell => cell.waiters = []

theorem World.Calm.receiver {u : World} (h : u.Calm) (m : MailboxId) :
    (u.mailbox m).receiver = none := h.mailboxes.get_of_default rfl

theorem World.Calm.waiters {u : World} (h : u.Calm) (v : VariableId) :
    (u.dataflow v).waiters = [] := h.dataflows.get_of_default rfl

theorem World.Calm.of_sameCells {u v : World} (h : u.Calm) (hs : u.SameCells v) : v.Calm :=
  ⟨hs.mailboxes ▸ h.mailboxes, hs.dataflows ▸ h.dataflows⟩

/-- `w` is `u` with a scheduler of its own, in which `tasks` are queued and no timers. Nobody waits
for anything in `u`, and it has so many slots. -/
structure Tracks (slots : Nat) (w u : World) (tasks : List Task) : Prop where
  calm : u.Calm
  size : u.slots.size = slots
  same : ∃ s, w = u.on s
  ready : w.scheduler.ready = tasks
  timers : w.scheduler.timers = []

variable {slots : Nat}

/-! ## Changes that do not look at the scheduler -/

namespace World

theorem instantiate_on (u : World) (s : Scheduler Task) (env : EnvId) (block : Block) :
    (u.on s).instantiate env block =
      ((u.instantiate env block).1.on s, (u.instantiate env block).2) := by
  have h : (u.on s).captured? block.id = u.captured? block.id := rfl
  unfold instantiate
  rw [h]
  split <;> rfl

theorem resolve_on (u : World) (s : Scheduler Task) (env : EnvId) (name : Name) :
    (u.on s).resolve env name = ((u.resolve env name).1.on s, (u.resolve env name).2) := by
  have hl : (u.on s).lookup env name = u.lookup env name := rfl
  have hs : (u.on s).strict = u.strict := rfl
  unfold resolve
  rw [hl, hs]
  cases u.lookup env name with
  | some v => rfl
  | none => cases u.strict <;> rfl

theorem decode_on (u : World) (s : Scheduler Task) (env : EnvId) (d : Datum BlockId) :
    (u.on s).decode env d = ((u.decode env d).1.on s, (u.decode env d).2) := by
  cases d with
  | word name =>
    simp only [decode, resolve_on]
    obtain ⟨w, result⟩ := u.resolve env name
    cases result with
    | error e => rfl
    | ok v => cases v <;> rfl
  | block id body => simp only [decode, instantiate_on]
  | _ => rfl

theorem sameCells_decode (u : World) (env : EnvId) (d : Datum BlockId) :
    u.SameCells (u.decode env d).1 := by
  cases d with
  | word name =>
    simp only [decode, resolve]
    cases u.lookup env name with
    | some v => cases v <;> exact .refl u
    | none => cases u.strict <;> exact ⟨rfl, rfl, rfl, rfl, rfl, rfl⟩
  | block id body => exact u.sameCells_instantiate env ⟨id, body⟩
  | _ => exact .refl u

theorem displayWithin_on (u : World) (s : Scheduler Task) (fuel : Nat) (v : Value) :
    (u.on s).displayWithin fuel v = u.displayWithin fuel v := by
  induction fuel generalizing v with
  | zero => cases v <;> rfl
  | succ fuel ih =>
    cases v with
    | dataflow x =>
      have h : (u.on s).dataflow x = u.dataflow x := rfl
      simp only [displayWithin, h, ih]
    | _ => rfl

theorem display_on (u : World) (s : Scheduler Task) (v : Value) :
    (u.on s).display v = u.display v := u.displayWithin_on s _ v

theorem deliver_of_receiver {w : World} {m : MailboxId} (h : (w.mailbox m).receiver = none)
    (message : Value) :
    w.deliver m message = (w.count Stats.posted).setMailbox m ((w.mailbox m).post message).1 := by
  simp only [deliver, Mailbox.post, h]

theorem bind_of_waiters {w : World} {v : VariableId} (hv : (w.dataflow v).value = none)
    (hw : (w.dataflow v).waiters = []) (value : Value) :
    w.bind v value = w.modifyVariable v fun _ => bindTo (w.dataflow v) value := by
  simp only [bind, Variable.bind?, hv, hw, List.foldl_nil, bindTo]

end World

namespace Tracks

variable {w u : World} {tasks : List Task}

/-- A change of the scheduler alone. -/
theorem mapScheduler (h : Tracks slots w u tasks) (f : Scheduler Task → Scheduler Task)
    {tasks' : List Task} (hr : (f w.scheduler).ready = tasks')
    (ht : (f w.scheduler).timers = []) : Tracks slots (w.mapScheduler f) u tasks' := by
  obtain ⟨s, rfl⟩ := h.same
  exact ⟨h.calm, h.size, ⟨_, rfl⟩, hr, ht⟩

theorem endTurn (h : Tracks slots w u tasks) :
    Tracks slots (w.mapScheduler Scheduler.endTurn) u tasks :=
  h.mapScheduler _ h.ready h.timers

theorem later (h : Tracks slots w u []) (task : Task) : Tracks slots (w.later task) u [task] := by
  refine h.mapScheduler _ ?_ h.timers
  show w.scheduler.ready ++ [task] = [task]
  rw [h.ready, List.nil_append]

/-- A change of anything but the scheduler and the cells. -/
theorem change (h : Tracks slots w u tasks) {f : World → World} (hf : ∀ s, f (u.on s) = (f u).on s)
    (hc : u.SameCells (f u)) : Tracks slots (f w) (f u) tasks := by
  obtain ⟨s, rfl⟩ := h.same
  rw [hf s]
  exact ⟨h.calm.of_sameCells hc, hc.slots ▸ h.size, ⟨s, rfl⟩, h.ready, h.timers⟩

/-- The same change, and something that comes of it. -/
theorem changeGet (h : Tracks slots w u tasks) {α : Type} {f : World → World × α}
    (hf : ∀ s, f (u.on s) = ((f u).1.on s, (f u).2)) (hc : u.SameCells (f u).1) :
    Tracks slots (f w).1 (f u).1 tasks ∧ (f w).2 = (f u).2 := by
  obtain ⟨s, rfl⟩ := h.same
  rw [hf s]
  exact ⟨⟨h.calm.of_sameCells hc, hc.slots ▸ h.size, ⟨s, rfl⟩, h.ready, h.timers⟩, rfl⟩

theorem look (h : Tracks slots w u tasks) {α : Type} {f : World → α} (hf : ∀ s, f (u.on s) = f u) :
    f w = f u := by
  obtain ⟨s, rfl⟩ := h.same
  exact hf s

theorem report (h : Tracks slots w u tasks) (message : String) :
    Tracks slots (w.report message) (u.report message) tasks :=
  h.change (f := (·.report message)) (fun _ => rfl) ⟨rfl, rfl, rfl, rfl, rfl, rfl⟩

theorem instantiate (h : Tracks slots w u tasks) (env : EnvId) (block : Block) :
    Tracks slots (w.instantiate env block).1 (u.instantiate env block).1 tasks ∧
      (w.instantiate env block).2 = (u.instantiate env block).2 :=
  h.changeGet (f := (·.instantiate env block)) (fun s => u.instantiate_on s env block)
    (u.sameCells_instantiate env block)

theorem decode (h : Tracks slots w u tasks) (env : EnvId) (d : Datum BlockId) :
    Tracks slots (w.decode env d).1 (u.decode env d).1 tasks ∧
      (w.decode env d).2 = (u.decode env d).2 :=
  h.changeGet (f := (·.decode env d)) (fun s => u.decode_on s env d) (u.sameCells_decode env d)

/-- A block body begins in the same environment on both sides. -/
theorem openActivation (h : Tracks slots w u tasks) (captured : Bindings Value)
    (own : Option (Name × Value)) :
    Tracks slots (w.openActivation captured own).1 (u.openActivation captured own).1 tasks ∧
      (w.openActivation captured own).2 = (u.openActivation captured own).2 :=
  h.changeGet (f := (·.openActivation captured own)) (fun s => by cases own <;> rfl)
    (u.sameCells_openActivation captured own)

theorem exitScope (h : Tracks slots w u tasks) (exit : Exit) (guard : Guard) (outcome : Outcome) :
    Tracks slots (w.exitScope exit guard outcome).1 (u.exitScope exit guard outcome).1 tasks ∧
      (w.exitScope exit guard outcome).2 = (u.exitScope exit guard outcome).2 := by
  refine h.changeGet (f := (·.exitScope exit guard outcome)) (fun s => ?_) ?_
  · cases exit <;> cases outcome <;> rfl
  · cases exit <;> cases outcome <;> exact ⟨rfl, rfl, rfl, rfl, rfl, rfl⟩

/-- Nobody waits for the message. -/
theorem deliver (h : Tracks slots w u tasks) (m : MailboxId) (message : Value) :
    Tracks slots (w.deliver m message) (u.deliver m message) tasks := by
  obtain ⟨s, rfl⟩ := h.same
  have hu := h.calm.receiver m
  have hw : ((u.on s).mailbox m).receiver = none := hu
  rw [World.deliver_of_receiver hw, World.deliver_of_receiver hu]
  exact ⟨⟨h.calm.mailboxes.set rfl, h.calm.dataflows⟩, h.size, ⟨_, rfl⟩, h.ready, h.timers⟩

/-- Nobody waits for the value. -/
theorem bind (h : Tracks slots w u tasks) (v : VariableId) (value : Value) :
    Tracks slots (w.bind v value) (u.bind v value) tasks := by
  obtain ⟨s, rfl⟩ := h.same
  cases hu : (u.dataflow v).value with
  | some old =>
    have hw : ((u.on s).dataflow v).value = some old := hu
    rw [World.bind_of_bound hw, World.bind_of_bound hu]
    exact h
  | none =>
    have hw : ((u.on s).dataflow v).value = none := hu
    rw [World.bind_of_waiters hw (h.calm.waiters v), World.bind_of_waiters hu (h.calm.waiters v)]
    exact ⟨⟨h.calm.mailboxes, h.calm.dataflows.set rfl⟩, h.size, ⟨s, rfl⟩, h.ready, h.timers⟩

theorem newVariable (h : Tracks slots w u tasks) (name : Name) :
    Tracks slots (w.newVariable name).1 (u.newVariable name).1 tasks ∧
      (w.newVariable name).2 = (u.newVariable name).2 := by
  obtain ⟨s, rfl⟩ := h.same
  exact ⟨⟨⟨h.calm.mailboxes, h.calm.dataflows.push rfl⟩, h.size, ⟨s, rfl⟩, h.ready, h.timers⟩, rfl⟩

end Tracks

/-! ## Synchronous words -/

/-- The same result on both sides, in worlds that go together. -/
def Agree {α : Type} (slots : Nat) (tasks : List Task) (r r' : Except Error α × World) : Prop :=
  r.1 = r'.1 ∧ Tracks slots r.2 r'.2 tasks

section Actions

variable {α β : Type} {w u : World} {tasks : List Task}

theorem Agree.result (h : Tracks slots w u tasks) (r : Except Error α) :
    Agree slots tasks (r, w) (r, u) := ⟨rfl, h⟩

theorem Agree.operand (h : Tracks slots w u tasks) {r r' : Except Error α} {f g : α → Action β}
    (hr : r = r') (hf : ∀ a, Agree slots tasks ((f a).run w) ((g a).run u)) :
    Agree slots tasks ((liftM r >>= f : Action β).run w) ((liftM r' >>= g : Action β).run u) := by
  subst hr
  cases r with
  | ok a => exact hf a
  | error e => exact .result h _

theorem Agree.look {f : World → Action β} (hf : Agree slots tasks ((f w).run w) ((f u).run u)) :
    Agree slots tasks ((MonadState.get >>= f : Action β).run w)
      ((MonadState.get >>= f : Action β).run u) := hf

theorem Agree.update {f : World → World} {r : β} (hf : Tracks slots (f w) (f u) tasks) :
    Agree slots tasks ((do modify f; return r : Action β).run w)
      ((do modify f; return r : Action β).run u) := ⟨rfl, hf⟩

theorem Agree.change (h : Tracks slots w u tasks) {f : World → World} {r : β}
    (hf : ∀ s, f (u.on s) = (f u).on s) (hc : u.SameCells (f u)) :
    Agree slots tasks ((do modify f; return r : Action β).run w)
      ((do modify f; return r : Action β).run u) := .update (h.change hf hc)

theorem Agree.make {f : World → World × α} {r : α → β}
    (hf : Tracks slots (f w).1 (f u).1 tasks ∧ (f w).2 = (f u).2) :
    Agree slots tasks ((do return r (← modifyGet fun w => (f w).swap) : Action β).run w)
      ((do return r (← modifyGet fun w => (f w).swap) : Action β).run u) :=
  ⟨congrArg (fun a => Except.ok (r a)) hf.2, hf.1⟩

end Actions

/-- A state word that spawns nothing does the same on both sides. -/
theorem StateWord.agree_apply {word : StateWord} (hgo : word ≠ .go) (env : EnvId) (s : Stack)
    {w u : World} {tasks : List Task} (h : Tracks slots w u tasks) :
    Agree slots tasks ((word.apply env s).run w) ((word.apply env s).run u) := by
  cases word with
  | define =>
    refine .operand h rfl fun name => .operand h rfl ?_
    rintro ⟨v, -, t⟩
    refine .change h (fun _ => rfl) ?_
    exact ⟨rfl, rfl, rfl, rfl, rfl, rfl⟩
  | defun =>
    refine .operand h rfl fun name => .operand h rfl fun block => .operand h rfl fun t => .update ?_
    exact (h.instantiate env block).1.change (f := (·.defineWord env name (.defined block)))
      (fun _ => rfl) ⟨rfl, rfl, rfl, rfl, rfl, rfl⟩
  | use =>
    refine .operand h rfl fun v => .operand h rfl fun t => ?_
    refine .change h (fun _ => rfl) ?_
    exact ⟨rfl, rfl, rfl, rfl, rfl, rfl⟩
  | new =>
    refine .operand h rfl fun v => .operand h rfl fun t => .make (f := (·.newObject v)) ?_
    exact h.changeGet (f := (·.newObject v)) (fun _ => rfl) ⟨rfl, rfl, rfl, rfl, rfl, rfl⟩
  | get =>
    refine .operand h rfl fun key => .look (.operand h rfl fun v => .operand h ?_ fun found => ?_)
    · exact h.look (f := fun w => property? _ w key v) fun s => by cases v <;> rfl
    · exact .operand h rfl fun t => .result h _
  | put =>
    refine .operand h rfl fun key => .operand h rfl fun o => .operand h rfl ?_
    rintro ⟨v, -, -, t⟩
    refine .change h (fun _ => rfl) ?_
    exact ⟨rfl, rfl, rfl, rfl, rfl, rfl⟩
  | go => exact absurd rfl hgo
  | isDone =>
    refine .operand h rfl fun p => .operand h rfl fun t => .look ?_
    rw [h.look (f := fun w => (w.process p).state) fun _ => rfl]
    exact .result h _
  | post =>
    refine .look (.operand h rfl fun v => .operand h ?_ fun m => ?_)
    · exact h.look (f := fun w => target _ w v) fun s => by cases v <;> rfl
    · refine .operand h rfl ?_
      rintro ⟨message, -, t⟩
      exact .update (h.deliver m message)
  | mailbox =>
    simp only [apply]
    cases s.owner with
    | none => exact .result h _
    | some p =>
      refine .look ?_
      rw [h.look (f := fun w => (w.process p).mailbox) fun _ => rfl]
      exact .result h _
  | dataflow =>
    refine .operand h rfl fun name => .operand h rfl fun t => ?_
    exact .make (f := (·.newVariable name)) (h.newVariable name)
  | bind =>
    refine .operand h rfl fun v => .operand h rfl ?_
    rintro ⟨value, -, t⟩
    exact .update (h.bind v value)
  | isBound =>
    refine .operand h rfl fun v => .operand h rfl fun t => .look ?_
    rw [h.look (f := fun w => w.dataflow v) fun _ => rfl]
    exact .result h _
  | print =>
    refine .operand h rfl ?_
    rintro ⟨v, t⟩
    refine .change h (fun s => ?_) ?_
    · simp only [World.display_on]
      rfl
    · exact ⟨rfl, rfl, rfl, rfl, rfl, rfl⟩
  | render =>
    refine .operand h rfl ?_
    rintro ⟨v, t⟩
    refine .look ?_
    rw [h.look (f := fun w => w.display v) fun s => u.display_on s v]
    exact .result h _

/-! ## What the one task in the queue comes to -/

/-- In `n` turns, taking turns gets from `x` to `y`, whatever it has done before and does after. -/
def Advances (n : Nat) (x y : World) : Prop :=
  ∀ fuel taken, World.takeTurns (n + fuel) taken x = World.takeTurns fuel (taken + n) y

theorem Advances.trans {m n : Nat} {x y z : World} (h : Advances m x y) (h' : Advances n y z) :
    Advances (m + n) x z := fun fuel taken => by
  rw [Nat.add_assoc, h, h', Nat.add_assoc]

/-- From a world like `u₁` in which only `task` is queued, the machine gets to the point where `k`
is resumed with an outcome in a world like `u`. -/
def Carries (slots : Nat) (u₁ : World) (task : Task) (u : World) (k : Continuation)
    (outcome : Outcome) : Prop :=
  ∀ x, Tracks slots x u₁ [task] → ∃ n v, Tracks slots v u [] ∧
    Advances n x ((v.resume k outcome).mapScheduler Scheduler.endTurn)

/-- One task is queued in `w`, and it gets the machine to the point where `k` is resumed with an
outcome in a world like `u`. -/
def Pursues (slots : Nat) (w u : World) (k : Continuation) (outcome : Outcome) : Prop :=
  ∃ u₁ task, Tracks slots w u₁ [task] ∧ Carries slots u₁ task u k outcome

/-- Without timers there is nothing to settle. -/
theorem Tracks.settle {x u : World} {tasks : List Task} (h : Tracks slots x u tasks) :
    Tracks slots (x.apply .settle) u tasks := by
  obtain ⟨due, hr, ht⟩ := x.scheduler.settle_spec
  rw [h.timers] at ht
  obtain ⟨rfl, hnone⟩ := List.append_eq_nil_iff.1 ht.symm
  refine h.mapScheduler _ ?_ hnone
  rw [hr, h.ready, List.map_nil, List.append_nil]

theorem Tracks.tick {x u : World} {tasks : List Task} (h : Tracks slots x u tasks) :
    Tracks slots x.tick u tasks := (h.mapScheduler Scheduler.elapse h.ready h.timers).settle

/-- A task that is alone in the queue has the next turn. -/
theorem Tracks.turn {x u : World} {task : Task} (h : Tracks slots x u [task]) :
    ∃ v, Tracks slots v u [] ∧ Advances 1 x ((v.perform task).mapScheduler Scheduler.endTurn) := by
  refine ⟨_, h.tick.mapScheduler (·.beginTurn []) rfl h.tick.timers, fun fuel taken => ?_⟩
  rw [Nat.add_comm, World.takeTurns_succ h.tick.ready]
  rfl

namespace Carries

variable {u₁ u u' : World} {task : Task} {k k' : Continuation} {outcome outcome' : Outcome}

theorem resume (u : World) (k : Continuation) (outcome : Outcome) :
    Carries slots u (.resume k outcome) u k outcome := fun x hx => by
  obtain ⟨v, hv, ha⟩ := hx.turn
  exact ⟨1, v, hv, ha⟩

/-- Resuming `k'` is, in the same turn, resuming `k`. -/
theorem inline (h : Carries slots u₁ task u k' outcome') (hk : ∀ v, Tracks slots v u [] →
    ∃ v', Tracks slots v' u' [] ∧ v.resume k' outcome' = v'.resume k outcome) :
    Carries slots u₁ task u' k outcome := fun x hx => by
  obtain ⟨n, v, hv, ha⟩ := h x hx
  obtain ⟨v', hv', he⟩ := hk v hv
  exact ⟨n, v', hv', he ▸ ha⟩

/-- Resuming `k'` leads to resuming `k` some turns later. -/
theorem andThen (h : Carries slots u₁ task u k' outcome')
    (hk : ∀ v, Tracks slots v u [] → Pursues slots (v.resume k' outcome') u' k outcome) :
    Carries slots u₁ task u' k outcome := fun x hx => by
  obtain ⟨n, v, hv, ha⟩ := h x hx
  obtain ⟨u₂, next, hn, hc⟩ := hk v hv
  obtain ⟨n', v', hv', ha'⟩ := hc _ hn.endTurn
  exact ⟨n + n', v', hv', ha.trans ha'⟩

/-- A failure passes over the rest of a program. -/
theorem skip_resume {env : EnvId} {code : Code} {e : Error}
    (h : Carries slots u₁ task u (k.push (.resume env code)) (.error e)) :
    Carries slots u₁ task u k (.error e) := h.inline fun v hv => ⟨v, hv, rfl⟩

/-- A failure passes over the repetitions that are left. -/
theorem skip_again {env : EnvId} {block : Block} {n : Nat} {e : Error}
    (h : Carries slots u₁ task u (k.push (.again env block n)) (.error e)) :
    Carries slots u₁ task u k (.error e) := h.inline fun v hv => ⟨v, hv, rfl⟩

/-- The scope of a block body is left before its caller goes on. -/
theorem leave {exit : Exit} {guard : Guard}
    (h : Carries slots u₁ task u (k.push (.exit exit guard)) outcome) :
    Carries slots u₁ task (u.exitScope exit guard outcome).1 k (u.exitScope exit guard outcome).2 :=
  h.inline fun v hv => by
    obtain ⟨hv', ho⟩ := hv.exitScope exit guard outcome
    refine ⟨_, hv', ?_⟩
    rw [← ho]
    rfl

end Carries

theorem Pursues.resume {w u : World} (h : Tracks slots w u []) (k : Continuation)
    (outcome : Outcome) :
    Pursues slots (w.resumeLater k outcome) u k outcome :=
  ⟨u, _, h.later _, .resume u k outcome⟩

/-! ## The machine follows the recursion -/

open Direct

/-- What the recursion returns, the machine hands to the continuation in the end. -/
def Follows (slots : Nat) (direct : World → Stack → Result)
    (start : World → Stack → Continuation → World) : Prop :=
  ∀ ⦃u : World⦄ ⦃s : Stack⦄ ⦃u' : World⦄ ⦃outcome : Outcome⦄, direct u s = some (u', outcome) →
    ∀ ⦃w : World⦄ (k : Continuation), Tracks slots w u [] → Pursues slots (start w s k) u' k outcome

/-- Blocks that the recursion runs, the machine activates. -/
def Direct.Runner.Sound (slots : Nat) (run : Runner) : Prop :=
  ∀ env block own exit,
    Follows slots (run env block own exit) fun w s k => w.activate env block own exit s k

section Words

open ControlWord

variable {run : Runner}

theorem pursues_withOperands {α : Type} {u u' w : World} {operands : Except Error α}
    {direct : α → Result} {start : α → World} {k : Continuation} {outcome : Outcome}
    (h : Direct.withOperands u operands direct = some (u', outcome)) (ht : Tracks slots w u [])
    (hf : ∀ a, direct a = some (u', outcome) → Pursues slots (start a) u' k outcome) :
    Pursues slots (w.withOperands k operands start) u' k outcome := by
  cases operands with
  | ok a => exact hf a h
  | error e =>
    cases h
    exact .resume ht k (.error e)

theorem follows_repeated (hrun : run.Sound slots) (env : EnvId) (block : Block) (n : Nat) :
    Follows slots (repeated (run env block none .leave) n)
      fun w s k => w.repeatBlock env block n s k := by
  induction n with
  | zero =>
    intro u s u' outcome h w k ht
    cases h
    exact .resume ht k (.ok s)
  | succ n ih =>
    intro u s u' outcome h w k ht
    rcases andThen_eq_some h with ⟨v, t, hv, h⟩ | ⟨e, hv, rfl⟩
    · obtain ⟨u₁, task, h₁, hc⟩ := hrun env block none .leave hv (k.push (.again env block n)) ht
      exact ⟨u₁, task, h₁, hc.andThen fun x hx => ih h k hx⟩
    · obtain ⟨u₁, task, h₁, hc⟩ := hrun env block none .leave hv (k.push (.again env block n)) ht
      exact ⟨u₁, task, h₁, hc.skip_again⟩

theorem follows_plain (hrun : run.Sound slots) (word : ControlWord) (env : EnvId) :
    Follows slots (plain run word env) fun w s k => word.startPlain w env s k := by
  intro u s u' outcome h w k ht
  cases word with
  | run =>
    exact pursues_withOperands h ht fun (block, rest) h => hrun env block none .leave h k ht
  | when =>
    refine pursues_withOperands h ht fun (condition, block, rest) h => ?_
    cases condition with
    | true => exact hrun env block none .leave h k ht
    | false =>
      cases h
      exact .resume ht k (.ok rest)
  | choose =>
    exact pursues_withOperands h ht fun (block, rest) h => hrun env block none .leave h k ht
  | iterate =>
    refine pursues_withOperands h ht fun (block, n, rest) h => ?_
    exact follows_repeated hrun env block n h k ht
  | vocab =>
    exact pursues_withOperands h ht fun (block, rest) h => hrun env block none .harvest h k ht
  | yield =>
    cases h
    exact .resume ht k (.ok s)
  | send =>
    cases h
    exact .resume ht k _
  | await | receive | after => cases h

/-- How a synchronous word and a word that takes over follow the recursion. -/
def FollowsCall (slots : Nat) (direct : EnvId → World → Stack → Result) : Call → Prop
  | .sync action => ∀ env u s u' outcome, direct env u s = some (u', outcome) →
      ∀ w tasks, Tracks slots w u tasks → Agree slots tasks ((action env s).run w) (outcome, u')
  | .async start => ∀ env, Follows slots (direct env) fun w s k => start w env s k

theorem follows_callWith (hrun : run.Sound slots) {direct : EnvId → World → Stack → Result}
    {start : World → EnvId → Stack → Continuation → World}
    (hsend : ∀ env, Follows slots (direct env) fun w s k => start w env s k) (p : Primitive) :
    FollowsCall slots (callWith run direct p) (p.callWith start) := by
  obtain ⟨serial, name, behaviour⟩ := p
  cases behaviour with
  | pure word =>
    intro env u s u' outcome h w tasks ht
    cases h
    exact .result ht _
  | foreign word =>
    intro env u s u' outcome h w tasks ht
    cases h
    exact .result ht _
  | state word =>
    intro env u s u' outcome h w tasks ht
    by_cases hgo : word = .go
    · subst hgo
      cases h
    · have hcall : callWith run direct ⟨serial, name, .state word⟩ env u s =
          some (((word.apply env s).run u).2, ((word.apply env s).run u).1) := by
        cases word with
        | go => exact absurd rfl hgo
        | _ => rfl
      rw [hcall] at h
      cases h
      exact StateWord.agree_apply hgo env s ht
  | control word =>
    by_cases hs : word = .send
    · subst hs
      exact hsend
    · have hd : callWith run direct ⟨serial, name, .control word⟩ = plain run word := by
        cases word with
        | send => exact absurd rfl hs
        | _ => rfl
      have hm : Primitive.callWith start ⟨serial, name, .control word⟩ =
          .async word.startPlain := by
        cases word with
        | send => exact absurd rfl hs
        | _ => rfl
      rw [hd, hm]
      exact fun env => follows_plain hrun word env
  | defined block => exact fun env => hrun env block _ .leave
  | foreignControl word =>
    intro env u s u' outcome h
    cases h

theorem follows_send (hrun : run.Sound slots) (env : EnvId) :
    Follows slots (Direct.send run env) fun w s k => startSend w env s k := by
  intro u s u' outcome h w k ht
  refine pursues_withOperands h ht fun (o, message, rest) h => ?_
  have ha : w.answer? o message = u.answer? o message :=
    ht.look (f := (·.answer? o message)) fun _ => rfl
  dsimp only at h ⊢
  rw [ha]
  cases hv : u.answer? o message with
  | none =>
    rw [hv] at h
    cases h
    exact .resume (ht.report _) k (.ok s)
  | some v =>
    rw [hv] at h
    cases v with
    | primitive p =>
      have hcall := follows_callWith hrun (fun env => follows_plain hrun .send env) p
      dsimp only at h ⊢
      cases hp : p.callWith (ControlWord.startPlain .send) with
      | sync action =>
        rw [hp] at hcall
        obtain ⟨ho, hw⟩ := hcall env u _ u' outcome h w [] ht
        obtain rfl := ho
        exact .resume hw k _
      | async start =>
        rw [hp] at hcall
        exact hcall env h k ht
    | datum d =>
      cases d with
      | block id code => exact hrun env ⟨id, code⟩ none .leave h k ht
      | _ =>
        cases h
        exact .resume ht k _
    | _ =>
      cases h
      exact .resume ht k _

theorem follows_call (hrun : run.Sound slots) (p : Primitive) :
    FollowsCall slots (Direct.call run p) p.call :=
  follows_callWith hrun (follows_send hrun) p

end Words

/-! ## Programs and blocks -/

/-- Calling a word and going on with the rest of the program. -/
theorem pursues_call {run : Runner} (hrun : run.Sound slots) {env : EnvId} {rest : Code}
    (ih : Follows slots (Direct.code run env rest) fun w s k => w.runThen env rest s k)
    (p : Primitive) {u u' w : World} {s : Stack} {outcome : Outcome}
    (h : Direct.andThen (Direct.call run p env u s) (Direct.code run env rest) =
      some (u', outcome)) (k : Continuation) (ht : Tracks slots w u []) :
    Pursues slots (match p.call with
      | .sync action =>
        match (action env s).run w with
        | (.ok s, w) => World.run env (some k) rest w s
        | (.error e, w) => w.failRun e (some k)
      | .async start =>
        (start w env s (.resumeAt env rest (some k)), Completion.suspended)).1 u' k outcome := by
  have hcall := follows_call hrun p
  cases hp : p.call with
  | sync action =>
    rw [hp] at hcall
    have agree : ∀ v o, Direct.call run p env u s = some (v, o) →
        Agree slots [] ((action env s).run w) (o, v) := fun v o hv => hcall env u s v o hv w [] ht
    dsimp only
    generalize (action env s).run w = result at agree ⊢
    obtain ⟨o, w⟩ := result
    rcases andThen_eq_some h with ⟨v, t, hv, h⟩ | ⟨e, hv, rfl⟩
    · obtain ⟨rfl, hw⟩ := agree v _ hv
      exact ih h k hw
    · obtain ⟨rfl, hw⟩ := agree u' _ hv
      exact .resume hw k (.error e)
  | async start =>
    rw [hp] at hcall
    rcases andThen_eq_some h with ⟨v, t, hv, h⟩ | ⟨e, hv, rfl⟩
    · obtain ⟨u₁, task, h₁, hc⟩ := hcall env hv (k.push (.resume env rest)) ht
      exact ⟨u₁, task, h₁, hc.andThen fun x hx => ih h k hx⟩
    · obtain ⟨u₁, task, h₁, hc⟩ := hcall env hv (k.push (.resume env rest)) ht
      exact ⟨u₁, task, h₁, hc.skip_resume⟩

theorem follows_code {run : Runner} (hrun : run.Sound slots) (env : EnvId) (code : Code) :
    Follows slots (Direct.code run env code) fun w s k => w.runThen env code s k := by
  induction code with
  | nil =>
    intro u s u' outcome h w k ht
    cases h
    exact .resume ht k (.ok s)
  | cons d rest ih =>
    intro u s u' outcome h w k ht
    obtain ⟨hd, hstep⟩ := ht.decode env d
    show Pursues slots (World.run env (some k) (d :: rest) w s).1 u' k outcome
    unfold World.run
    unfold Direct.code at h
    generalize w.decode env d = machine at hd hstep ⊢
    generalize u.decode env d = direct at hd hstep h
    obtain ⟨w, step⟩ := machine
    obtain ⟨u, step'⟩ := direct
    obtain rfl : step = step' := hstep
    cases step with
    | error e =>
      cases h
      exact .resume hd k (.error e)
    | ok step =>
      cases step with
      | push v => exact ih h k hd
      | call p => exact pursues_call hrun ih p h k hd

/-- A block body that has a turn leads to resuming its caller. -/
theorem carries_activate {run : Runner} (hrun : run.Sound slots) {u v : World}
    {captured : Bindings Value} {own : Option (Name × Value)} {block : Block} (exit : Exit)
    {s : Stack} {result : Outcome} (k : Continuation)
    (hbody : Direct.code run (u.openActivation captured own).2.1 block.code
      (u.openActivation captured own).1 s = some (v, result)) :
    Carries slots u (.activate captured own block exit s k)
      (v.exitScope exit (u.openActivation captured own).2.2 result).1 k
      (v.exitScope exit (u.openActivation captured own).2.2 result).2 := by
  intro x hx
  obtain ⟨y, hy, ha⟩ := hx.turn
  obtain ⟨ho, hsame⟩ := hy.openActivation captured own
  rw [World.perform, World.runActivation_eq, hsame] at ha
  obtain ⟨u₂, next, hn, hc⟩ := follows_code hrun _ _ hbody (k.push (.exit exit _)) ho
  obtain ⟨n, z, hz, ha'⟩ := hc.leave _ hn.endTurn
  exact ⟨1 + n, z, hz, ha.trans ha'⟩

/-- Blocks that may be nested `depth` deep. -/
theorem sound_block (depth : Nat) : (Direct.block depth).Sound slots := by
  induction depth with
  | zero =>
    intro env block own exit u s u' outcome h
    cases h
  | succ depth ih =>
    intro env block own exit u s u' outcome h w k ht
    obtain ⟨hi, hcaptured⟩ := ht.instantiate env block
    obtain ⟨v, result, hbody, hexit⟩ := block_succ_eq_some h
    have hc := carries_activate ih exit k hbody
    rw [hexit, ← hcaptured] at hc
    exact ⟨_, _, hi.later _, hc⟩

/-! ## Evaluations -/

/-- The world in which an evaluation has come to its end: its slot is filled, and the scheduler is
another. -/
def World.settledAs (u : World) (slot : Nat) (outcome : Outcome) (s : Scheduler Task) : World :=
  (u.fillSlot slot outcome).on s

theorem World.outcome?_settledAs {u : World} {slot : Nat} (h : slot < u.slots.size)
    (outcome : Outcome) (s : Scheduler Task) :
    (u.settledAs slot outcome s).outcome? slot = some outcome :=
  Table.get_set_self _ h

/-- When the continuation that fills the slot has been resumed, nothing is left to do. -/
theorem takeTurns_delivered {n slot : Nat} {x u v : World} {outcome : Outcome}
    (hv : Tracks slots v u [])
    (ha : Advances n x ((v.resume (.deliver (.slot slot)) outcome).mapScheduler
      Scheduler.endTurn)) :
    ∃ s, s.ready = [] ∧ s.timers = [] ∧
      ∀ fuel, World.takeTurns (n + fuel) 0 x = (u.settledAs slot outcome s, n, true) := by
  have hfill : Tracks slots (v.fillSlot slot outcome) (u.fillSlot slot outcome) [] := by
    obtain ⟨s, rfl⟩ := hv.same
    exact ⟨⟨hv.calm.mailboxes, hv.calm.dataflows⟩, (Table.size_modify _ _ _).trans hv.size,
      ⟨s, rfl⟩, hv.ready, hv.timers⟩
  have hend := hfill.endTurn.tick
  obtain ⟨s, hs⟩ := hend.same
  have hr := hend.ready
  have ht := hend.timers
  rw [hs] at hr ht
  refine ⟨s, hr, ht, fun fuel => ?_⟩
  rw [ha, Nat.zero_add]
  exact (World.takeTurns_of_nil hend.ready fuel n).trans (by rw [hs]; rfl)

/-- **Taking turns comes to what plain recursion comes to.** A program that runs to an end in one go
does so in turns, with the same outcome, and everything but the scheduler and the outcome's own slot
is as plain recursion leaves it. All it takes is that nothing else is queued and nobody waits. -/
theorem evaluate_eq_direct {i : Interpreter} {program : Program} {stack : Stack} {w u : World}
    {outcome : Outcome} {depth : Nat} (hcalm : w.Calm) (hready : w.scheduler.ready = [])
    (htimers : w.scheduler.timers = []) (hrest : w.scheduler.dispatching = false)
    (h : Direct.evaluate depth i program stack w = some (u, outcome)) :
    ∃ turns s, s.ready = [] ∧ s.timers = [] ∧
      (∀ fuel, World.takeTurns (turns + fuel) 0 (i.begin program stack w) =
        (u.settledAs w.slots.size outcome s, turns, true)) ∧
      (turns ≤ i.bound →
        i.evaluate program stack w = (u.settledAs w.slots.size outcome s, outcome)) := by
  have hlaunch : Tracks (w.slots.size + 1) (w.launch i.settings.strictWords program)
      (w.launch i.settings.strictWords program) [] :=
    ⟨⟨hcalm.mailboxes, hcalm.dataflows⟩, Table.size_push _ _, ⟨_, rfl⟩, hready, htimers⟩
  obtain ⟨u₁, task, h₁, hc⟩ := follows_code (sound_block depth) i.env (w.load program).2 h
    (.deliver (.slot w.slots.size)) hlaunch
  have hbegin : Tracks (w.slots.size + 1) (i.begin program stack w) u₁ [task] :=
    h₁.mapScheduler ({ · with started := true }) h₁.ready h₁.timers
  obtain ⟨turns, v, hv, ha⟩ := hc _ hbegin
  obtain ⟨s, hr, ht, hturns⟩ := takeTurns_delivered hv ha
  refine ⟨turns, s, hr, ht, hturns, fun hle => ?_⟩
  -- The evaluation is not cut off, and the outcome is in its slot.
  have hd : (i.begin program stack w).scheduler.dispatching = false :=
    (leads_begin i program [] stack w).2.dispatching.trans hrest
  have hbound := hturns (i.bound - turns)
  rw [Nat.add_sub_cancel' hle] at hbound
  have hslot : w.slots.size < u.slots.size := by
    rw [hv.size]
    omega
  rw [i.evaluate_eq, World.drain_of_takeTurns hd hbound]
  simp only [if_true, World.outcome?_settledAs hslot]

/-- A program that defines a word and calls it, and sends a message to an object:
`[ :x def x print x ] :echo defun :a echo [ [ drop :pong ] :ping def ] vocab new :ping send`. -/
def pingPong : Program :=
  [.block () [.symbol "x", .word "def", .word "x", .word "print", .word "x"], .symbol "echo",
    .word "defun", .symbol "a", .word "echo",
    .block () [.block () [.word "drop", .symbol "pong"], .symbol "ping", .word "def"],
    .word "vocab", .word "new", .symbol "ping", .word "send"]

theorem evaluate_eq_direct_pingPong :
    let w := (Interpreter.new {} {}).1
    let i := (Interpreter.new {} {}).2
    ∃ u t turns s, Direct.evaluate 1 i pingPong .empty w = some (u, .ok t) ∧
      t.values.map u.display = [":a", ":pong"] ∧ u.printed = [":a"] ∧
      (turns ≤ i.bound →
        i.evaluate pingPong .empty w = (u.settledAs w.slots.size (.ok t) s, .ok t)) := by
  have hrun : ∃ u t, Direct.evaluate 1 (Interpreter.new {} {}).2 pingPong .empty
      (Interpreter.new {} {}).1 = some (u, .ok t) ∧ t.values.map u.display = [":a", ":pong"] ∧
        u.printed = [":a"] := by
    rw [Interpreter.new_empty]
    exact ⟨_, _, by cbv, by cbv, by cbv⟩
  have hcalm : (Interpreter.new {} {}).1.Calm :=
    World.Calm.of_sameCells ⟨.empty, .empty⟩ (World.sameCells_newBuiltinRoot {})
  obtain ⟨u, t, h, hshown, hprinted⟩ := hrun
  obtain ⟨turns, s, -, -, -, hs⟩ := evaluate_eq_direct hcalm rfl rfl rfl h
  exact ⟨u, t, turns, s, h, hshown, hprinted, hs⟩

end Catena
