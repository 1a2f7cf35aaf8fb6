import Catena.Proofs.Machine.Regimes

/-!
# How values reach a process

The values that a process has are those on the stack of its continuation, wherever this is held.
Others cannot put any there but by the cells: a message in the mailbox of the process, the value of
a variable, the result of another process. What comes to the stack in a step otherwise is what the
process finds itself, such as the meaning of a word or the property of an object (`Reaches`). The
main result says that there are no other ways (`Next.reaches`).
-/

namespace Catena

/-- Every process works on its own stacks, whatever main programs do. -/
def Regime.selfOwned : Regime where
  works t owner := ∀ p, t = .process p → owner = some p
  waits t owner _ := ∀ p, t = .process p → owner = some p

theorem Regime.selfOwned_lawful (w : World) : selfOwned.Lawful w :=
  ⟨id, fun h _ => h, fun _ _ _ hp => by cases hp; rfl⟩

/-! ## What a thread has -/

/-- The values that a continuation is resumed with. -/
def World.itemsOf : Outcome → List Value
  | .ok s => s.items
  | .error _ => []

/-- The values on the stack of one who waits. -/
def Waker.items : Waker → List Value
  | .resume _ s _ => s.items
  | .report _ => []

/-- The values on the stack that a task goes on with. -/
def Task.items : Task → List Value
  | .resume _ outcome => World.itemsOf outcome
  | .activate _ _ _ _ s _ => s.items
  | .start _ _ s => s.items
  | .wakeReceiver _ waker => waker.items
  | .wakeWaiter waker value => value :: waker.items
  | .script _ => []

/-- The values on the stack that is being worked on. -/
def Control.items : Control → List Value
  | .rest => []
  | .run _ _ s _ => s.items
  | .resume _ outcome => World.itemsOf outcome

/-- A value is on the stack of a thread, wherever its continuation is. -/
inductive Moment.Has (m : Moment) (t : Thread) (v : Value) : Prop
  | work (ht : m.control.thread? = some t) (hv : v ∈ m.control.items)
  | ready {task : Task} (hm : task ∈ m.world.scheduler.ready) (ht : task.thread? = some t)
      (hv : v ∈ task.items)
  | timer {timer : Timer Task} (hm : timer ∈ m.world.scheduler.timers)
      (ht : timer.task.thread? = some t) (hv : v ∈ timer.task.items)
  | waiting {c : Cell} {waker : Waker} (hm : waker ∈ m.world.waiting c) (ht : waker.thread? = some t)
      (hv : v ∈ waker.items)

/-! ## Ways to a value -/

/-- What the thread at work can come up with by itself. -/
inductive Moment.Finds (m : Moment) : Value → Prop
  | plain {d : Datum BlockId} (h : d.isPlain = true) : Finds m (.datum d)
  /-- A block that is written where it works. -/
  | block {env : EnvId} {id : BlockId} {body code : Code} {s : Stack} {k : Continuation}
      (h : m.control = .run env (.block id body :: code) s k) : Finds m (.block id body)
  /-- What a word means where it works. -/
  | meaning {env : EnvId} {name : Name} {code : Code} {s : Stack} {k : Continuation} {v : Value}
      (h : m.control = .run env (.word name :: code) s k) (hv : m.world.lookup env name = some v) :
      Finds m v
  | self {p : ProcessId} (h : m.control.thread? = some (.process p)) : Finds m (.process p)
  | mailbox {p : ProcessId} (h : m.control.thread? = some (.process p)) :
      Finds m (.mailbox (m.world.process p).mailbox)
  | property {o : ObjectId} {key : Name} {v : Value} (h : m.world.answer? o key = some v) : Finds m v
  | binding {n : VocabularyId} {key : Name} {v : Value}
      (h : (m.world.vocabulary n).get? key = some v) : Finds m v
  -- What it makes.
  | newProcess : Finds m (.process ⟨m.world.processes.size⟩)
  | newVariable : Finds m (.dataflow ⟨m.world.dataflows.size⟩)
  | newObject : Finds m (.object ⟨m.world.objects.size⟩)
  | newVocabulary : Finds m (.vocabulary ⟨m.world.vocabularies.size⟩)

/-- What is in a cell before a step, or is put there in the step. -/
def Cell.Offers (m : Moment) (es : List Event) : Cell → Value → Prop
  | .dataflow d, v => v ∈ m.world.contents (.dataflow d) ∨ .bind d v ∈ effectsOf es
  | .process q, v => v ∈ m.world.contents (.process q) ∨
      ∃ outcome, .finish q outcome ∈ effectsOf es ∧ v = World.resultOf outcome
  | .mailbox b, v => v ∈ m.world.contents (.mailbox b) ∨ .deliver b v ∈ effectsOf es

/-- How a value comes to the stack of a process in a step. -/
inductive Reaches (p : ProcessId) (m : Moment) (es : List Event) : Value → Prop
  /-- The process is at work, and finds it. -/
  | found {v : Value} (ht : m.control.thread? = some (.process p)) (hv : m.Finds v) : Reaches p m es v
  /-- It is there when the process is made. -/
  | born {captured : Bindings Value} {block : Block} {parent : Option ProcessId} {v : Value}
      (he : .spawn captured block parent ∈ effectsOf es) (hp : m.world.processes.size = p.index)
      (hv : v ∈ (World.firstStack parent p).items) : Reaches p m es v
  /-- It is a message to the process. -/
  | message {v : Value} (hv : (Cell.mailbox (m.world.process p).mailbox).Offers m es v) :
      Reaches p m es v
  /-- It is the value of a variable. -/
  | dataflow {d : VariableId} {v : Value} (hv : (Cell.dataflow d).Offers m es v) : Reaches p m es v
  /-- It is the result of a process. -/
  | result {q : ProcessId} {v : Value} (hv : (Cell.process q).Offers m es v) : Reaches p m es v

/-- What a process has, and what it gets in a step. -/
def Gets (p : ProcessId) (m : Moment) (es : List Event) (v : Value) : Prop :=
  m.Has (.process p) v ∨ Reaches p m es v

/-- If the stack is the process's, there is nothing on it but what the process has and gets. -/
def Confined (p : ProcessId) (m : Moment) (es : List Event) (t : Option Thread)
    (items : List Value) : Prop := t = some (.process p) → ∀ v ∈ items, Gets p m es v

/-- All tasks and all who wait have only what is theirs, as far as the process is concerned. -/
abbrev HoldersConfined (p : ProcessId) (m : Moment) (es : List Event) (w : World) : Prop :=
  Holders (Cell.Offers m es) (fun task => Confined p m es task.thread? task.items)
    (fun _ waker => Confined p m es waker.thread? waker.items) w

/-- A sequence of effects brings only what is the process's to its stacks. -/
abbrev BringsConfined (p : ProcessId) (m : Moment) (es : List Event) (w : World)
    (effects : List Effect) : Prop :=
  Holders.BringsAll (Cell.Offers m es) (fun task => Confined p m es task.thread? task.items)
    (fun _ waker => Confined p m es waker.thread? waker.items) w effects

section Step

variable {p : ProcessId} {m : Moment} {es : List Event}

theorem Confined.push {t : Option Thread} {s : Stack} (h : Confined p m es t s.items) {v : Value}
    (hv : t = some (.process p) → Gets p m es v) : Confined p m es t (s.push v).items :=
  fun ht => List.forall_mem_cons.2 ⟨hv ht, h ht⟩

theorem Confined.congr {t t' : Option Thread} {items : List Value} (h : Confined p m es t items)
    (ht : t' = t) : Confined p m es t' items := ht ▸ h

theorem Confined.nil (t : Option Thread) : Confined p m es t [] := fun _ _ hv => by cases hv

/-- At first, everyone has what he has. -/
theorem holdersConfined (p : ProcessId) (m : Moment) (es : List Event) :
    HoldersConfined p m es m.world := by
  refine .of_mem (fun task hm ht v hv => .inl (.ready hm ht hv))
    (fun timer hm ht v hv => .inl (.timer hm ht hv))
    (fun c waker hm ht v hv => .inl (.waiting hm ht hv)) fun c v hv => ?_
  cases c with
  | dataflow | process | mailbox => exact .inl hv

/-- What a cell hands out reaches those who wait there. -/
theorem passes_confined (p : ProcessId) (m : Moment) (es : List Event) (w : World) :
    Passes (Cell.Offers m es) (fun task => Confined p m es task.thread? task.items)
      (fun _ waker => Confined p m es waker.thread? waker.items) w where
  waiter hk _ hv ht := List.forall_mem_cons.2 ⟨.inr (.dataflow hv), hk ht⟩
  joiner _ hk _ hv ht := List.forall_mem_cons.2 ⟨.inr (.result hv), hk ht⟩
  receiver hk := hk

/-! ## What words bring -/

/-- What a word comes up with for a process at work on its own stack. -/
theorem World.Derives.gets {s t : Stack} (h : m.world.Derives s t)
    (ht : m.control.thread? = some (.process p)) (ho : s.owner = some p)
    (hs : ∀ v ∈ s.items, Gets p m es v) : ∀ v ∈ t.items, Gets p m es v := by
  intro v hv
  cases h.items v hv with
  | kept hk => exact hs v hk
  | plain hd => exact .inr (.found ht (.plain hd))
  | self hq =>
    cases ho.symm.trans hq
    exact .inr (.found ht (.self ht))
  | mailbox hq =>
    cases ho.symm.trans hq
    exact .inr (.found ht (.mailbox ht))
  | property ha => exact .inr (.found ht (.property ha))
  | binding hb => exact .inr (.found ht (.binding hb))

/-- The stack that a process at work has. -/
structure Working (p : ProcessId) (m : Moment) (es : List Event) (s : Stack) : Prop where
  owner : m.control.thread? = some (.process p) → s.owner = some p
  items : Confined p m es m.control.thread? s.items

variable {env : EnvId} {s t : Stack} {k : Continuation} {effects : List Effect}

theorem Working.derives (h : Working p m es s) (hd : m.world.Derives s t) :
    Working p m es t where
  owner ht := hd.owner.trans (h.owner ht)
  items ht := hd.gets ht (h.owner ht) (h.items ht)

theorem Working.push (h : Working p m es s) {v : Value} (hv : m.Finds v) :
    Working p m es (s.push v) where
  owner := h.owner
  items := h.items.push fun ht => .inr (.found ht hv)

theorem Working.concludes (h : Working p m es s) {outcome : Outcome}
    (hc : m.world.Concludes s outcome) :
    Confined p m es m.control.thread? (World.itemsOf outcome) := by
  cases outcome with
  | ok t => exact (h.derives hc).items
  | error e => exact .nil _

theorem SyncEffects.working (h : SyncEffects env s m.world effects (.ok t))
    (hs : Working p m es s) : Working p m es t := by
  cases h with
  | compute h | print _ h | define _ _ h | defun _ _ h | adopt _ h | setProperty _ _ _ h
  | deliver _ _ h | bind _ _ h => exact hs.derives h
  | newObject _ h => exact (hs.derives h).push .newObject
  | spawn _ h => exact (hs.derives h).push .newProcess
  | newVariable _ h => exact (hs.derives h).push .newVariable

theorem SyncEffects.confined {outcome : Outcome} (h : SyncEffects env s m.world effects outcome)
    (hs : Working p m es s) : Confined p m es m.control.thread? (World.itemsOf outcome) := by
  cases outcome with
  | ok t => exact (h.working hs).items
  | error e => exact .nil _

theorem SyncEffects.bringsConfined {outcome : Outcome}
    (h : SyncEffects env s m.world effects outcome) (hsub : ∀ e ∈ effects, e ∈ effectsOf es) :
    BringsConfined p m es m.world effects := by
  cases h with
  | fail | compute => exact trivial
  | print | define | adopt | newObject | setProperty | newVariable => exact ⟨trivial, trivial⟩
  | defun => exact ⟨trivial, trivial, trivial⟩
  | deliver | bind => exact ⟨.inr (hsub _ (List.mem_singleton.2 rfl)), trivial⟩
  | spawn hb hd =>
    rename_i block t
    refine ⟨trivial, fun ht v hv => ?_, trivial⟩
    have hsize : (m.world.instantiate env block).1.processes.size = m.world.processes.size :=
      congrArg Table.size (m.world.processes_instantiate env block)
    cases ht
    exact .inr (.born (hsub _ (List.mem_cons_of_mem _ (List.mem_singleton.2 rfl))) hsize.symm hv)

theorem AsyncEffects.bringsConfined (h : AsyncEffects env s k m.world effects)
    (hs : Working p m es s) (hk : k.thread? = m.control.thread?)
    (hsub : ∀ e ∈ effects, e ∈ effectsOf es) : BringsConfined p m es m.world effects := by
  have keeps : ∀ {t}, m.world.Derives s t → Confined p m es k.thread? t.items :=
    fun hd => (hs.derives hd).items.congr hk
  cases h with
  | resume hc => exact ⟨(hs.concludes hc).congr hk, trivial⟩
  | report message hd => exact ⟨trivial, keeps hd, trivial⟩
  | activate exit hb hd => exact ⟨trivial, keeps hd, trivial⟩
  | iterate n hb hd => exact ⟨trivial, keeps hd, trivial⟩
  | callWord hp hb hd => exact ⟨trivial, keeps hd, trivial⟩
  | awaitVariable hv hd =>
    exact ⟨⟨fun _ hv => (keeps hd).push fun _ => .inr (.dataflow hv), keeps hd⟩, trivial⟩
  | awaitProcess hp hd =>
    exact ⟨⟨fun _ hv => (keeps hd).push fun _ => .inr (.result hv), keeps hd⟩, trivial⟩
  | receive hd =>
    refine ⟨⟨fun q _ ho hv => (keeps hd).push fun ht => ?_, fun _ _ => .nil _, fun _ _ => keeps hd⟩,
      trivial⟩
    cases ((hs.derives hd).owner (hk ▸ ht)).symm.trans ho
    exact .inr (.message hv)
  | after due hd => exact ⟨keeps hd, trivial⟩
  | sync hd hsync =>
    have hsub' := (List.forall_mem_append.1 hsub).1
    refine Holders.bringsAll_append (hsync.bringsConfined hsub') ⟨?_, trivial⟩
    exact (hsync.confined (hs.derives hd)).congr hk
  | swallow => exact trivial
  | stall => exact ⟨.nil _, trivial⟩

/-! ## What a step brings -/

/-- **A step of the work of a turn brings nothing else to the stacks of a process.** -/
theorem Does.confined {c' : Control} (h : Does m.world m.control effects c')
    (ho : Regime.selfOwned.LetsControl m.control) (he : effectsOf es = effects) :
    BringsConfined p m es m.world effects ∧ Confined p m es c'.thread? c'.items := by
  obtain ⟨w, c, roots⟩ := m
  dsimp only at h ho ⊢
  have has : Confined p ⟨w, c, roots⟩ es c.thread? c.items := fun ht v hv => .inl (.work ht hv)
  have working : ∀ {env code s k}, c = .run env code s k → Working p ⟨w, c, roots⟩ es s := by
    rintro env code s k rfl
    exact ⟨fun ht => ho _ ht p rfl, has⟩
  have hsub : ∀ e ∈ effects, e ∈ effectsOf es := fun e hmem => he ▸ hmem
  cases h with
  | finish => exact ⟨⟨has, trivial⟩, .nil _⟩
  | literal hd => exact ⟨trivial, ((working rfl).push (.plain hd)).items⟩
  | block => exact ⟨⟨trivial, trivial⟩, ((working rfl).push (.block rfl)).items⟩
  | value hv => exact ⟨trivial, ((working rfl).push (.meaning rfl hv)).items⟩
  | unbound hv message => exact ⟨⟨trivial, trivial⟩, ((working rfl).push (.plain (d := .nil) rfl)).items⟩
  | unresolved => exact ⟨⟨.nil _, trivial⟩, .nil _⟩
  | call hv hs => exact ⟨hs.bringsConfined hsub, (hs.working (working rfl)).items⟩
  | fail hv hs =>
    have hsub' := (List.forall_mem_append.1 hsub).1
    exact ⟨Holders.bringsAll_append (hs.bringsConfined hsub') ⟨.nil _, trivial⟩, .nil _⟩
  | takeOver hv ha => exact ⟨ha.bringsConfined (working rfl) (Continuation.thread?_push _ _) hsub, .nil _⟩
  | fillSlot => exact ⟨⟨trivial, trivial⟩, .nil _⟩
  | finishProcess => exact ⟨⟨.inr ⟨_, hsub _ (List.mem_singleton.2 rfl), rfl⟩, trivial⟩, .nil _⟩
  | goOn | skip | giveUp => exact ⟨trivial, has⟩
  | leave => exact ⟨⟨trivial, trivial⟩, has⟩
  | harvest => exact ⟨⟨trivial, trivial⟩, Confined.push has fun ht => .inr (.found ht .newVocabulary)⟩
  | enough => exact ⟨⟨has, trivial⟩, .nil _⟩
  | again => exact ⟨⟨trivial, has, trivial⟩, .nil _⟩

/-- A turn begins with what its task has, and with a message to the process. -/
theorem Begins.confined {w : World} {roots : List EnvId} {task : Task} {rest : List Task}
    {c : Control} (hr : w.scheduler.ready = task :: rest)
    (h : Begins (w.apply .beginTurn) task effects c) (hw : w.Sound w)
    (ho : Regime.selfOwned.LetsTask task) :
    BringsConfined p ⟨w, .rest, roots⟩ es (w.apply .beginTurn) effects ∧
      Confined p ⟨w, .rest, roots⟩ es c.thread? c.items := by
  have hmem : task ∈ w.scheduler.ready := by rw [hr]; simp
  have has : Confined p ⟨w, .rest, roots⟩ es task.thread? task.items :=
    fun ht v hv => .inl (.ready hmem ht hv)
  cases h with
  | resume => exact ⟨trivial, has⟩
  | activate | start => exact ⟨⟨trivial, trivial⟩, has⟩
  | receive hoffer =>
    rename_i b epoch s k message
    have hsound := hw.cells.ready _ hmem
    refine ⟨⟨has, trivial⟩, Confined.push has fun ht => .inr (.message (.inl ?_))⟩
    obtain ⟨⟨left, htake⟩, -⟩ := World.take?_of_offer hoffer
    have hown : b = (w.process p).mailbox := by
      obtain ⟨t, hk, hex⟩ := hsound.1.2
      cases hk.symm.trans ht
      rw [hw.matched.mailbox hex]
      cases (ho _ ht p rfl).symm.trans hsound.2
      rfl
    subst hown
    have hqueue : (w.mailbox (w.process p).mailbox).queue = message :: left.queue :=
      (Mailbox.queue_of_take? htake).1
    show message ∈ (w.mailbox (w.process p).mailbox).queue
    rw [hqueue]
    exact List.mem_cons_self ..
  | refuse => exact ⟨⟨has, trivial⟩, .nil _⟩
  | wake ha => exact ⟨⟨trivial, trivial⟩, has⟩
  | pass ha => exact ⟨⟨trivial, trivial⟩, .nil _⟩

/-- **What a process has after a step it had before, or it reached it.** -/
theorem Next.reaches {starts : World → Stack → Prop} {m' : Moment}
    (hn : Next (.evaluations starts) m es m') (hs : m.Sound) (ho : Regime.selfOwned.Keeps m)
    {v : Value} (hv : m'.Has (.process p) v) : m.Has (.process p) v ∨ Reaches p m es v := by
  -- It is enough to see that everything is confined in the end.
  suffices h : HoldersConfined p m es m'.world ∧
      Confined p m es m'.control.thread? m'.control.items by
    cases hv with
    | work ht hv => exact h.2 ht v hv
    | ready hm ht hv => exact h.1.ready _ hm ht v hv
    | timer hm ht hv => exact h.1.timers _ hm ht v hv
    | waiting hm ht hv => exact h.1.of_mem_waiting hm ht v hv
  have has : Confined p m es m.control.thread? m.control.items := fun ht v hv => .inl (.work ht hv)
  have holders := holdersConfined p m es
  have passes := passes_confined p m es
  cases hn with
  | work hd =>
    obtain ⟨hb, hc⟩ := Does.confined (p := p) (m := ⟨_, _, _⟩) hd ho.control (effectsOf_map _ _)
    exact ⟨holders.replay passes hb, hc⟩
  | turn hr hb =>
    obtain ⟨hb, hc⟩ := hb.confined (p := p) hr hs.world (ho.cells.ready _ (by rw [hr]; simp))
    exact ⟨(holders.apply (e := .beginTurn) (passes _) trivial).replay passes hb, hc⟩
  | evaluate strict program henv hst =>
    exact ⟨holders.apply (e := .launch strict program) (passes _) trivial, fun ht => by cases ht⟩
  | install => exact ⟨holders.apply (e := .install) (passes _) trivial, .nil _⟩
  | outside he =>
    refine ⟨holders.apply (passes _) ?_, has⟩
    rcases he with (rfl | rfl | rfl | ⟨elapsed, lapses, rfl⟩) | rfl | ⟨epoch, rfl⟩ <;> exact trivial

end Step

theorem Run.selfOwned {starts : World → Stack → Prop} {m : Moment} {es : List Event}
    (h : Run (.evaluations starts) .dawn es m) : Regime.selfOwned.Keeps m := by
  refine h.induct (I := Regime.selfOwned.Keeps) (fun hk hn => ?_) ⟨.empty, trivial⟩
  exact (hn.keeps (Regime.selfOwned_lawful _) Policy.letsEffect_of_evaluations
    (fun _ _ _ ht => by cases ht) hk).2

end Catena
