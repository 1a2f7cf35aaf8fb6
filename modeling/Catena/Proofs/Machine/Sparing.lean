import Catena.Proofs.Machine.Likeness

/-!
# Worlds with fewer waiters

Two worlds side by side: in the second, some of those are missing who wait for a variable or a
process since an epoch that has been given up (`World.Spared`). Whatever happens to both, they stay
so related, and every turn begins with the same focus on both sides. So nobody can tell from what
the second world does that anyone is missing.

A turn in which someone is passed over has nothing beside it in the second world; it is the only
thing that happens on one side alone (`World.Spared.drop_turn`).
-/

namespace Catena

/-! ## Lists and tables, side by side -/

/-- The second list is the first with some elements left out, all of which are gone. -/
inductive Thinned {α : Type} (gone : α → Prop) : List α → List α → Prop
  | nil : Thinned gone [] []
  | keep {l l' : List α} (a : α) (h : Thinned gone l l') : Thinned gone (a :: l) (a :: l')
  | drop {l l' : List α} {a : α} (ha : gone a) (h : Thinned gone l l') : Thinned gone (a :: l) l'

namespace Thinned

variable {α : Type} {gone : α → Prop} {l l' m m' : List α}

theorem refl (l : List α) : Thinned gone l l := by
  induction l with
  | nil => exact .nil
  | cons a l ih => exact .keep a ih

theorem append (h : Thinned gone l l') (hm : Thinned gone m m') :
    Thinned gone (l ++ m) (l' ++ m') := by
  induction h with
  | nil => exact hm
  | keep a _ ih => exact .keep a ih
  | drop ha _ ih => exact .drop ha ih

/-- Something that is gone may be added to the first list alone. -/
theorem append_gone (h : Thinned gone l l') {a : α} (ha : gone a) : Thinned gone (l ++ [a]) l' := by
  rw [← List.append_nil l']
  exact h.append (.drop ha .nil)

theorem filter {q : α → Bool} (hq : ∀ a, q a = true → gone a) (l : List α) :
    Thinned gone l (l.filter (!q ·)) := by
  induction l with
  | nil => exact .nil
  | cons a l ih =>
    rw [List.filter_cons]
    cases ha : q a with
    | true => exact .drop (hq a ha) ih
    | false => exact .keep a ih

theorem eq_nil (h : Thinned gone [] l') : l' = [] := by
  cases h
  rfl

end Thinned

/-- Two tables of one size whose entries are related. -/
structure Table.Paired {α : Type} [Inhabited α] (r : α → α → Prop) (t u : Table α) : Prop where
  size : u.size = t.size
  get (i : Nat) : r (t.get i) (u.get i)

namespace Table.Paired

variable {α : Type} [Inhabited α] {r : α → α → Prop} {t u : Table α}

theorem refl (hr : ∀ a, r a a) (t : Table α) : t.Paired r t := ⟨rfl, fun i => hr (t.get i)⟩

theorem modify (h : t.Paired r u) {f g : α → α} (hf : ∀ a b, r a b → r (f a) (g b)) (i : Nat) :
    (t.modify i f).Paired r (u.modify i g) := by
  refine ⟨by rw [size_modify, size_modify, h.size], fun j => ?_⟩
  by_cases hij : i = j
  · subst hij
    rcases Nat.lt_or_ge i t.size with hi | hi
    · rw [get_modify_self f hi, get_modify_self g (h.size ▸ hi)]
      exact hf _ _ (h.get i)
    · rw [modify_of_size_le f hi, modify_of_size_le g (h.size ▸ hi)]
      exact h.get i
  · rw [get_modify_of_ne t f hij, get_modify_of_ne u g hij]
    exact h.get j

theorem push (h : t.Paired r u) {a b : α} (hab : r a b) : (t.push a).Paired r (u.push b) := by
  refine ⟨by rw [size_push, size_push, h.size], fun i => ?_⟩
  by_cases hi : i = t.size
  · subst hi
    rw [get_push_size, ← h.size, get_push_size]
    exact hab
  · have hne : i ≠ u.size := fun hu => hi (hu.trans h.size)
    simp only [Table.get, get?_push, if_neg hi, if_neg hne]
    exact h.get i

theorem map {f : α → α} (hf : f default = default) (hr : ∀ a, r a (f a)) (t : Table α) :
    t.Paired r (t.map f) := by
  refine ⟨size_map f t, fun i => ?_⟩
  rw [get_map hf]
  exact hr _

end Table.Paired

/-! ## Settling -/

namespace Scheduler

variable {τ : Type} {s : Scheduler τ}

/-- Nothing changes if nothing is due. -/
theorem promote_of_nil (h : s.timers.takeWhile (·.due ≤ s.clock) = []) : s.promote s.clock = s := by
  have hrest : s.timers.dropWhile (·.due ≤ s.clock) = s.timers := by
    have hall := List.takeWhile_append_dropWhile (p := (·.due ≤ s.clock)) (l := s.timers)
    rwa [h, List.nil_append] at hall
  simp only [promote, h, hrest, List.map_nil, List.append_nil, List.length_nil, Nat.add_zero]

theorem settle_of_ready (h : (s.promote s.clock).ready ≠ []) : s.settle = s.promote s.clock := by
  simp only [settle]
  split
  · rename_i hr _
    exact absurd hr h
  · rfl

/-- If nothing becomes ready, time goes on to the first timer. -/
theorem settle_of_idle (h : (s.promote s.clock).ready = []) :
    s.settle = (s.promote s.clock).timers.head?.elim (s.promote s.clock) fun timer =>
      { s.promote s.clock with clock := timer.due }.promote timer.due := by
  simp only [settle, h]
  cases (s.promote s.clock).timers <;> rfl

end Scheduler

/-! ## Those who are gone -/

/-- One who waits since one of these epochs. -/
def Waker.IsGone (gone : Nat → Prop) : Waker → Prop
  | .resume epoch _ _ => gone epoch
  | .report _ => False

/-- The turn in which one who waits since one of these epochs is called with the value of a
variable. -/
def Task.IsGone (gone : Nat → Prop) : Task → Prop
  | .wakeWaiter waker _ => waker.IsGone gone
  | _ => False

/-- The second process is the first, and some of those who are gone do not wait for it. -/
inductive Process.Spared (gone : Nat → Prop) (a : Process) : Process → Prop
  | intro {notify : List Waker} (h : Thinned (Waker.IsGone gone) a.notify notify) :
      Spared gone a { a with notify }

/-- The second variable is the first, and some of those who are gone do not wait for it. -/
inductive Variable.Spared (gone : Nat → Prop) (a : Variable) : Variable → Prop
  | intro {waiters : List Waker} (h : Thinned (Waker.IsGone gone) a.waiters waiters) :
      Spared gone a { a with waiters }

section Cells

variable {gone : Nat → Prop}

theorem Process.Spared.refl (a : Process) : a.Spared gone a := .intro (.refl a.notify)

theorem Variable.Spared.refl (a : Variable) : a.Spared gone a := .intro (.refl a.waiters)

theorem Process.Spared.env {a b : Process} (h : a.Spared gone b) : b.env = a.env := by
  cases h
  rfl

theorem Process.Spared.mailbox {a b : Process} (h : a.Spared gone b) : b.mailbox = a.mailbox := by
  cases h
  rfl

theorem Process.Spared.state {a b : Process} (h : a.Spared gone b) : b.state = a.state := by
  cases h
  rfl

theorem Process.Spared.result {a b : Process} (h : a.Spared gone b) : b.result = a.result := by
  cases h
  rfl

theorem Variable.Spared.name {a b : Variable} (h : a.Spared gone b) : b.name = a.name := by
  cases h
  rfl

theorem Variable.Spared.value {a b : Variable} (h : a.Spared gone b) : b.value = a.value := by
  cases h
  rfl

theorem Process.Spared.addNotify {a b : Process} (h : a.Spared gone b) (waker : Waker) :
    (a.addNotify waker).Spared gone (b.addNotify waker) := by
  obtain ⟨h⟩ := h
  exact .intro (h.append (.refl [waker]))

theorem Variable.Spared.addWaiter {a b : Variable} (h : a.Spared gone b) (waker : Waker) :
    (a.addWaiter waker).Spared gone (b.addWaiter waker) := by
  obtain ⟨h⟩ := h
  exact .intro (h.append (.refl [waker]))

theorem Process.Spared.markRunning {a b : Process} (h : a.Spared gone b) :
    a.markRunning.Spared gone b.markRunning := by
  unfold Process.markRunning
  rw [h.state]
  split
  · obtain ⟨h⟩ := h
    exact .intro h
  · exact h

/-- The end of a process calls the same on both sides but for those who are gone. -/
theorem Process.Spared.complete {a b : Process} (h : a.Spared gone b) (result : Value)
    (failure : Option Error) :
    (a.complete result failure).1.Spared gone (b.complete result failure).1 ∧
      Thinned (Waker.IsGone gone) (a.complete result failure).2 (b.complete result failure).2 := by
  unfold Process.complete
  rw [h.state]
  split
  · exact ⟨h, .nil⟩
  · obtain ⟨h⟩ := h
    exact ⟨.intro .nil, h⟩

/-- Binding a variable releases the same on both sides but for those who are gone. -/
theorem Variable.Spared.bind? {a b : Variable} (h : a.Spared gone b) (value : Value) :
    (a.bind? value = none ∧ b.bind? value = none) ∨
      ∃ cell cell' wakers wakers', a.bind? value = some (cell, wakers) ∧
        b.bind? value = some (cell', wakers') ∧ cell.Spared gone cell' ∧
          Thinned (Waker.IsGone gone) wakers wakers' := by
  unfold Variable.bind?
  rw [h.value]
  cases a.value with
  | some bound => exact .inl ⟨rfl, rfl⟩
  | none =>
    obtain ⟨h⟩ := h
    exact .inr ⟨_, _, _, _, rfl, rfl, .intro .nil, h⟩

end Cells

namespace World

/-- The second world is the first without some of those who wait since one of these epochs, all of
which have been given up: they do not wait for a variable or a process, and are not called in the
turns that are queued. Beyond that, only counters of tasks and turns may differ, and what the
embedding program has logged. -/
inductive Spared (gone : Nat → Prop) (w : World) : World → Prop
  | intro {processes : Table Process} {dataflows : Table Variable} {ready : List Task}
      {scheduled executed depth : Nat} {log : List Host.Entry}
      (hgone : ∀ epoch, gone epoch → w.isAbandoned epoch = true)
      (hprocesses : w.processes.Paired (Process.Spared gone) processes)
      (hdataflows : w.dataflows.Paired (Variable.Spared gone) dataflows)
      (hready : Thinned (Task.IsGone gone) w.scheduler.ready ready) :
      Spared gone w { w with
        processes, dataflows
        scheduler := { w.scheduler with
          ready
          stats := { w.scheduler.stats with
            tasksScheduled := scheduled, tasksExecuted := executed, maxDispatchDepth := depth } }
        host := { w.host with log } }

namespace Spared

variable {gone : Nat → Prop} {w v : World}

/-! ### What is the same on both sides -/

theorem process (h : w.Spared gone v) (p : ProcessId) :
    (w.process p).Spared gone (v.process p) := by
  obtain ⟨-, hp, -, -⟩ := h
  exact hp.get p.index

theorem dataflow (h : w.Spared gone v) (x : VariableId) :
    (w.dataflow x).Spared gone (v.dataflow x) := by
  obtain ⟨-, -, hx, -⟩ := h
  exact hx.get x.index

theorem mailbox (h : w.Spared gone v) (m : MailboxId) : v.mailbox m = w.mailbox m := by
  cases h
  rfl

theorem epoch (h : w.Spared gone v) : v.scheduler.epoch = w.scheduler.epoch := by
  cases h
  rfl

theorem isAbandoned (h : w.Spared gone v) (epoch : Nat) :
    v.isAbandoned epoch = w.isAbandoned epoch := by
  cases h
  rfl

theorem isAbandoned_of_gone (h : w.Spared gone v) {epoch : Nat} (he : gone epoch) :
    w.isAbandoned epoch = true := by
  obtain ⟨hgone, -, -, -⟩ := h
  exact hgone epoch he

theorem ready (h : w.Spared gone v) :
    Thinned (Task.IsGone gone) w.scheduler.ready v.scheduler.ready := by
  obtain ⟨-, -, -, hr⟩ := h
  exact hr

theorem timers (h : w.Spared gone v) : v.scheduler.timers = w.scheduler.timers := by
  cases h
  rfl

theorem clock (h : w.Spared gone v) : v.scheduler.clock = w.scheduler.clock := by
  cases h
  rfl

theorem strict (h : w.Spared gone v) : v.strict = w.strict := by
  cases h
  rfl

theorem hostEnv (h : w.Spared gone v) : v.host.env = w.host.env := by
  cases h
  rfl

theorem hostProcess (h : w.Spared gone v) (index : Nat) :
    v.hostProcess index = w.hostProcess index := by
  cases h
  rfl

theorem hostVariable (h : w.Spared gone v) (index : Nat) :
    v.hostVariable index = w.hostVariable index := by
  cases h
  rfl

theorem hostMailbox (h : w.Spared gone v) (box : Host.BoxName) :
    v.hostMailbox box = w.hostMailbox box := by
  cases box with
  | bare index =>
    cases h
    rfl
  | ofProcess index =>
    simp only [World.hostMailbox, h.hostProcess]
    exact (h.process _).mailbox

/-- Such worlds look alike to every step. -/
theorem alike (h : w.Spared gone v) : w.Alike v := by
  have hstate := fun p => (h.process p).state
  have hmailbox := fun p => (h.process p).mailbox
  have hname := fun x => (h.dataflow x).name
  have hvalue := fun x => (h.dataflow x).value
  obtain ⟨-, hp, hx, -⟩ := h
  exact ⟨rfl, rfl, rfl, rfl, hp.size, hx.size, hmailbox, hstate, hname, hvalue, fun _ => rfl, rfl⟩

/-! ### What happens to both -/

/-- What counts neither tasks nor turns counts the same on both sides. -/
theorem count (h : w.Spared gone v) {f : Stats → Stats}
    (hf : ∀ (s : Stats) scheduled executed depth,
      f { s with tasksScheduled := scheduled, tasksExecuted := executed, maxDispatchDepth := depth } =
        { f s with
          tasksScheduled := scheduled, tasksExecuted := executed, maxDispatchDepth := depth }) :
    (w.count f).Spared gone (v.count f) := by
  obtain @⟨_, _, _, scheduled, executed, depth, _, hgone, hp, hx, hr⟩ := h
  have hstats := hf w.scheduler.stats scheduled executed depth
  simp only [World.count, mapScheduler, Scheduler.count, hstats]
  exact ⟨hgone, hp, hx, hr⟩

theorem addEntry (h : w.Spared gone v) (entry entry' : Host.Entry) :
    (w.addEntry entry).Spared gone (v.addEntry entry') := by
  obtain ⟨hgone, hp, hx, hr⟩ := h
  exact ⟨hgone, hp, hx, hr⟩

theorem report (h : w.Spared gone v) (message : String) :
    (w.report message).Spared gone (v.report message) := by
  obtain ⟨hgone, hp, hx, hr⟩ := h
  exact ⟨hgone, hp, hx, hr⟩

theorem later (h : w.Spared gone v) (task : Task) : (w.later task).Spared gone (v.later task) := by
  obtain ⟨hgone, hp, hx, hr⟩ := h
  exact ⟨hgone, hp, hx, hr.append (.refl [task])⟩

/-- Who is gone may be given a turn in the first world alone. -/
theorem later_gone (h : w.Spared gone v) {task : Task} (ht : task.IsGone gone) :
    (w.later task).Spared gone v := by
  obtain ⟨hgone, hp, hx, hr⟩ := h
  exact ⟨hgone, hp, hx, hr.append_gone ht⟩

theorem modifyProcess (h : w.Spared gone v) {f g : Process → Process}
    (hf : ∀ a b, a.Spared gone b → (f a).Spared gone (g b)) (p : ProcessId) :
    (w.modifyProcess p f).Spared gone (v.modifyProcess p g) := by
  obtain ⟨hgone, hp, hx, hr⟩ := h
  exact ⟨hgone, hp.modify hf p.index, hx, hr⟩

theorem modifyVariable (h : w.Spared gone v) {f g : Variable → Variable}
    (hf : ∀ a b, a.Spared gone b → (f a).Spared gone (g b)) (x : VariableId) :
    (w.modifyVariable x f).Spared gone (v.modifyVariable x g) := by
  obtain ⟨hgone, hp, hx, hr⟩ := h
  exact ⟨hgone, hp, hx.modify hf x.index, hr⟩

theorem setMailbox (h : w.Spared gone v) (m : MailboxId) (mailbox : Mailbox) :
    (w.setMailbox m mailbox).Spared gone (v.setMailbox m mailbox) := by
  obtain ⟨hgone, hp, hx, hr⟩ := h
  exact ⟨hgone, hp, hx, hr⟩

/-- Calling those who wait, one after the other: whoever is missing on the one side is passed over
on the other. -/
theorem foldl {f : World → Waker → World} {l l' : List Waker}
    (hl : Thinned (Waker.IsGone gone) l l')
    (hkeep : ∀ {u u' : World} waker, u.Spared gone u' → (f u waker).Spared gone (f u' waker))
    (hdrop : ∀ {u u' : World} {waker}, waker.IsGone gone → u.Spared gone u' →
      (f u waker).Spared gone u')
    (h : w.Spared gone v) : (l.foldl f w).Spared gone (l'.foldl f v) := by
  induction hl generalizing w v with
  | nil => exact h
  | keep waker _ ih => exact ih (hkeep waker h)
  | drop ha _ ih => exact ih (hdrop ha h)

theorem bind (h : w.Spared gone v) (x : VariableId) (value : Value) :
    (w.bind x value).Spared gone (v.bind x value) := by
  unfold World.bind
  rcases (h.dataflow x).bind? value with ⟨hw, hv⟩ | ⟨cell, cell', wakers, wakers', hw, hv, hcell, hl⟩
  · rw [hw, hv]
    exact h
  · rw [hw, hv]
    exact (h.modifyVariable (fun _ _ _ => hcell) x).foldl hl (fun waker hu => hu.later _)
      fun hgone hu => hu.later_gone hgone

theorem awaitVariable (h : w.Spared gone v) (x : VariableId) (s : Stack) (k : Continuation) :
    (w.awaitVariable x s k).Spared gone (v.awaitVariable x s k) := by
  have hvalue := (h.dataflow x).value
  cases hw : (w.dataflow x).value with
  | some bound =>
    rw [awaitVariable_of_bound hw, awaitVariable_of_bound (hvalue.trans hw)]
    exact h.later _
  | none =>
    rw [awaitVariable_of_unbound hw, awaitVariable_of_unbound (hvalue.trans hw), h.epoch]
    exact h.modifyVariable (fun a b hab => hab.addWaiter _) x

theorem awaitProcess (h : w.Spared gone v) (p : ProcessId) (s : Stack) (k : Continuation) :
    (w.awaitProcess p s k).Spared gone (v.awaitProcess p s k) := by
  have hresult := (h.process p).result
  cases hw : (w.process p).result with
  | some result =>
    rw [awaitProcess_of_result hw, awaitProcess_of_result (hresult.trans hw)]
    exact h.later _
  | none =>
    rw [awaitProcess_of_none hw, awaitProcess_of_none (hresult.trans hw), h.epoch]
    exact h.modifyProcess (fun a b hab => hab.addNotify _) p

theorem receive (h : w.Spared gone v) (s : Stack) (k : Continuation) :
    (w.receive s k).Spared gone (v.receive s k) := by
  unfold World.receive
  cases s.owner with
  | none => exact h.later _
  | some p =>
    simp only [h.mailbox, (h.process p).mailbox, h.epoch]
    split
    · exact ((h.setMailbox _ _).count fun _ _ _ _ => rfl).later _
    · split
      · exact h.setMailbox _ _
      · exact h.later _

theorem deliver (h : w.Spared gone v) (m : MailboxId) (message : Value) :
    (w.deliver m message).Spared gone (v.deliver m message) := by
  have hposted : ((w.count Stats.posted).setMailbox m ((w.mailbox m).post message).1).Spared gone
      ((v.count Stats.posted).setMailbox m ((w.mailbox m).post message).1) :=
    (h.count fun _ _ _ _ => rfl).setMailbox m _
  unfold World.deliver
  simp only [h.mailbox]
  split
  · exact hposted.later _
  · exact hposted

theorem wakeJoiner (h : w.Spared gone v) (result : Value) (waker : Waker) :
    (w.wakeJoiner result waker).Spared gone (v.wakeJoiner result waker) := by
  cases waker with
  | report tag => exact h.addEntry _ _
  | resume epoch s k =>
    simp only [World.wakeJoiner, h.isAbandoned]
    split
    · exact h
    · exact h.later _

/-- Who is gone is passed over when a process ends. -/
theorem wakeJoiner_gone (h : w.Spared gone v) (result : Value) {waker : Waker}
    (hw : waker.IsGone gone) : (w.wakeJoiner result waker).Spared gone v := by
  cases waker with
  | report tag => cases hw
  | resume epoch s k =>
    simp only [World.wakeJoiner, h.isAbandoned_of_gone hw, if_true]
    exact h

/-- A process ends, and those who wait for it are called. -/
theorem complete (h : w.Spared gone v) {u u' : World} (hu : u.Spared gone u') (p : ProcessId)
    (result : Value) (failure : Option Error) :
    (((w.process p).complete result failure).2.foldl (fun w waker => w.wakeJoiner result waker)
        (u.modifyProcess p fun _ => ((w.process p).complete result failure).1)).Spared gone
      (((v.process p).complete result failure).2.foldl (fun w waker => w.wakeJoiner result waker)
        (u'.modifyProcess p fun _ => ((v.process p).complete result failure).1)) := by
  obtain ⟨hcell, hwakers⟩ := (h.process p).complete result failure
  exact (hu.modifyProcess (fun _ _ _ => hcell) p).foldl hwakers
    (fun waker hw => hw.wakeJoiner result waker) fun hgone hw => hw.wakeJoiner_gone result hgone

theorem finishProcess (h : w.Spared gone v) (p : ProcessId) (outcome : Outcome) :
    (w.finishProcess p outcome).Spared gone (v.finishProcess p outcome) := by
  have hcounted : (w.count Stats.completed).Spared gone (v.count Stats.completed) :=
    h.count fun _ _ _ _ => rfl
  cases outcome with
  | ok s => exact h.complete hcounted p _ _
  | error e => exact h.complete hcounted p _ _

theorem newProcess (h : w.Spared gone v) (env : EnvId) :
    (v.newProcess env).2 = (w.newProcess env).2 ∧
      (w.newProcess env).1.Spared gone (v.newProcess env).1 := by
  refine ⟨congrArg ProcessId.mk h.alike.processCount, ?_⟩
  obtain ⟨hgone, hp, hx, hr⟩ := h
  simp only [World.newProcess, newMailbox, ProcessId.number, hp.size]
  exact ⟨hgone, hp.push (.refl _), hx, hr⟩

theorem startProcess (h : w.Spared gone v) (captured : Bindings Value) (block : Block)
    (parent : Option ProcessId) :
    (w.startProcess captured block parent).1.Spared gone
      (v.startProcess captured block parent).1 := by
  obtain ⟨henv, hseeded⟩ : (v.newSeeded captured).2 = (w.newSeeded captured).2 ∧
      (w.newSeeded captured).1.Spared gone (v.newSeeded captured).1 := by
    obtain ⟨hgone, hp, hx, hr⟩ := h
    exact ⟨rfl, hgone, hp, hx, hr⟩
  obtain ⟨hown, hmade⟩ := hseeded.newProcess (w.newSeeded captured).2
  simp only [World.startProcess, henv, hown]
  exact (hmade.count fun _ _ _ _ => rfl).later _

theorem instantiate (h : w.Spared gone v) (env : EnvId) (block : Block) :
    (w.instantiate env block).1.Spared gone (v.instantiate env block).1 := by
  obtain ⟨hgone, hp, hx, hr⟩ := h
  unfold World.instantiate captured?
  dsimp only
  split <;> exact ⟨hgone, hp, hx, hr⟩

/-- **What a step does keeps the worlds so related.** -/
theorem apply (h : w.Spared gone v) {e : Effect} (he : e.isDeed = true) :
    (w.apply e).Spared gone (v.apply e) := by
  cases e with
  | snapshot env block => exact h.instantiate env block
  | spawn captured block parent => exact h.startProcess captured block parent
  | deliver m message => exact h.deliver m message
  | bind x value => exact h.bind x value
  | later task => exact h.later task
  | awaitVariable x s k => exact h.awaitVariable x s k
  | awaitProcess p s k => exact h.awaitProcess p s k
  | receive s k => exact h.receive s k
  | finish p outcome => exact h.finishProcess p outcome
  | newVariable name =>
    obtain ⟨hgone, hp, hx, hr⟩ := h
    exact ⟨hgone, hp, hx.push (.refl _), hr⟩
  | report | print | define | defineWord | adopt | newObject | setProperty | schedule | fillSlot
  | restore | harvest =>
    obtain ⟨hgone, hp, hx, hr⟩ := h
    exact ⟨hgone, hp, hx, hr⟩
  | _ => cases he

theorem replay (h : w.Spared gone v) {es : List Effect} (he : ∀ e ∈ es, e.isDeed = true) :
    (w.replay es).Spared gone (v.replay es) := by
  induction es generalizing w v with
  | nil => exact h
  | cons e es ih =>
    obtain ⟨hfirst, hrest⟩ := List.forall_mem_cons.1 he
    exact ih (h.apply hfirst) hrest

theorem alongside (h : w.Spared gone v) {w' v' : World} (hu : Alongside w v w' v') :
    w'.Spared gone v' := by
  obtain ⟨es, hes⟩ := hu
  exact h.replay fun e he => (hes e he).isDeed

/-- **A step of a turn is the same on both sides**, and so is what it goes on with. -/
theorem advance (h : w.Spared gone v) (f : Focus) :
    (v.advance f).2 = (w.advance f).2 ∧ (w.advance f).1.Spared gone (v.advance f).1 := by
  by_cases hf : f.Unresolved w
  · obtain ⟨rest, s, k, hl⟩ := hf
    have hl' := (h.alike.lookup _ _).trans hl
    cases hs : w.strict with
    | false =>
      rw [advance_of_lax rest s k hl hs, advance_of_lax rest s k hl' (h.strict.trans hs)]
      exact ⟨rfl, h.report _⟩
    | true =>
      rw [advance_of_strict rest s k hl hs, advance_of_strict rest s k hl' (h.strict.trans hs)]
      exact ⟨rfl, h.alongside (Alongside.refl.failTo _ k)⟩
  · obtain ⟨hfocus, htogether⟩ := together_advance h.alike hf
    refine ⟨hfocus, ?_⟩
    generalize w.advance f = result at htogether
    generalize v.advance f = result' at htogether
    obtain ⟨w', f'⟩ := result
    obtain ⟨v', f''⟩ := result'
    cases htogether with
    | effects hu => exact h.alongside hu
    | told | resumed => exact h.addEntry _ _

theorem iterate_step (h : w.Spared gone v) (f : Focus) (n : Nat) :
    (step^[n] (v, f)).2 = (step^[n] (w, f)).2 ∧
      (step^[n] (w, f)).1.Spared gone (step^[n] (v, f)).1 := by
  induction n with
  | zero => exact ⟨rfl, h⟩
  | succ n ih =>
    rw [Function.iterate_succ_apply', Function.iterate_succ_apply']
    obtain ⟨hfocus, hworlds⟩ := ih
    obtain ⟨hfocus', hworlds'⟩ := hworlds.advance (step^[n] (w, f)).2
    simp only [step, hfocus]
    exact ⟨hfocus', hworlds'⟩

/-- The rest of a turn is the same on both sides. -/
theorem reaches (h : w.Spared gone v) {f : Focus} {w' v' : World}
    (hw : Reaches (w, f) (w', .done)) (hv : Reaches (v, f) (v', .done)) : w'.Spared gone v' := by
  obtain ⟨n, hn⟩ := hw
  obtain ⟨hfocus, hworlds⟩ := h.iterate_step f n
  rw [hn] at hfocus hworlds
  have hend := hv.eq_of_done rfl hfocus
  rwa [hend] at hworlds

theorem resume (h : w.Spared gone v) (k : Continuation) (outcome : Outcome) :
    (w.resume k outcome).Spared gone (v.resume k outcome) :=
  h.reaches (reaches_resume w k outcome) (reaches_resume v k outcome)

theorem wakeWaiter (h : w.Spared gone v) (value : Value) (waker : Waker) :
    (w.wakeWaiter value waker).Spared gone (v.wakeWaiter value waker) := by
  cases waker with
  | report tag => exact h.addEntry _ _
  | resume epoch s k =>
    simp only [World.wakeWaiter, h.isAbandoned]
    split
    · exact h
    · exact h.resume k _

/-- Who is gone is passed over in its turn. -/
theorem wakeWaiter_gone (h : w.Spared gone v) (value : Value) {waker : Waker}
    (hw : waker.IsGone gone) : w.wakeWaiter value waker = w := by
  cases waker with
  | report tag => cases hw
  | resume epoch s k => simp only [World.wakeWaiter, h.isAbandoned_of_gone hw, if_true]

theorem wakeReceiver (h : w.Spared gone v) (m : MailboxId) (message : Value) (waker : Waker) :
    (w.wakeReceiver m message waker).Spared gone (v.wakeReceiver m message waker) := by
  cases waker with
  | report tag => exact h.addEntry _ _
  | resume epoch s k =>
    simp only [World.wakeReceiver, h.isAbandoned, h.mailbox]
    split
    · exact h.setMailbox m _
    · exact (h.count fun _ _ _ _ => rfl).resume k _

/-! ### The embedding program -/

theorem readValues (h : w.Spared gone v) (source : String) :
    (v.readValues source).2 = (w.readValues source).2 ∧
      (w.readValues source).1.Spared gone (v.readValues source).1 := by
  obtain ⟨hgone, hp, hx, hr⟩ := h
  unfold World.readValues
  cases Program.read source with
  | ok program => exact ⟨rfl, hgone, hp, hx, hr⟩
  | error e => exact ⟨rfl, hgone, hp, hx, hr⟩

theorem readValue (h : w.Spared gone v) (source : String) :
    (v.readValue source).2 = (w.readValue source).2 ∧
      (w.readValue source).1.Spared gone (v.readValue source).1 := by
  obtain ⟨hvalues, hread⟩ := h.readValues source
  exact ⟨congrArg (·.headD .nil) hvalues, hread⟩

theorem readStack (h : w.Spared gone v) (source : String) (owner : Option ProcessId) :
    (v.readStack source owner).2 = (w.readStack source owner).2 ∧
      (w.readStack source owner).1.Spared gone (v.readStack source owner).1 := by
  obtain ⟨hvalues, hread⟩ := h.readValues source
  exact ⟨congrArg (fun values => { Stack.ofValues values with owner }) hvalues, hread⟩

theorem hostCall (h : w.Spared gone v) (p : Primitive) (s : Stack) (tag : String) :
    (w.hostCall p s tag).1.Spared gone (v.hostCall p s tag).1 := by
  unfold World.hostCall
  rw [h.hostEnv]
  cases hc : p.call with
  | async start => exact h.alongside (h.alike.call hc w.host.env s _)
  | sync action =>
    obtain ⟨hresult, hworlds⟩ := concurs_sync hc w.host.env s h.alike
    have hspared := h.alongside hworlds
    dsimp only
    generalize (action w.host.env s).run w = result at hresult hspared
    generalize (action w.host.env s).run v = result' at hresult hspared
    obtain ⟨outcome, w'⟩ := result
    obtain ⟨outcome', v'⟩ := result'
    cases hresult
    cases outcome <;> exact hspared

theorem hostCallWord (h : w.Spared gone v) (word : Name) (s : Stack) (tag : String) :
    (w.hostCallWord word s tag).1.Spared gone (v.hostCallWord word s tag).1 := by
  unfold World.hostCallWord
  rw [h.hostEnv, h.alike.lookup]
  split
  · exact h.hostCall _ s tag
  · exact h

/-- What the embedding program has made is the same on both sides. -/
theorem mapHost (h : w.Spared gone v) {f : Host.State → Host.State}
    (hf : ∀ (s : Host.State) log, f { s with log } = { f s with log := (f { s with log }).log }) :
    ({ w with host := f w.host } : World).Spared gone { v with host := f v.host } := by
  obtain @⟨_, _, _, _, _, _, log, hgone, hp, hx, hr⟩ := h
  dsimp only
  rw [hf w.host log]
  exact ⟨hgone, hp, hx, hr⟩

/-- What the embedding program asks for is done on both sides; the answers may tell how many
wait. -/
theorem carryOut (h : w.Spared gone v) (command : Host.Command) :
    (w.carryOut command).1.Spared gone (v.carryOut command).1 := by
  cases command with
  | later task => exact h.later _
  | after delay task =>
    simp only [World.carryOut, scriptAfter, h.alike.deadline?]
    split
    · obtain ⟨hgone, hp, hx, hr⟩ := h
      exact ⟨hgone, hp, hx, hr⟩
    · exact h
  | diagnose text => exact h.report text
  | countSpawned | countCompleted | countPosted | countReceived =>
    exact h.count fun _ _ _ _ => rfl
  | abandon epoch =>
    obtain ⟨hgone, hp, hx, hr⟩ := h
    refine ⟨fun other hother => ?_, hp, hx, hr⟩
    have hstays : w.scheduler.isAbandoned other = true := hgone other hother
    exact (w.scheduler.isAbandoned_abandon epoch other).trans (by rw [hstays, Bool.or_true])
  | discard =>
    obtain ⟨hgone, hp, hx, hr⟩ := h
    exact ⟨hgone, hp, hx, .nil⟩
  | newProcess =>
    have hroot : w.newRoot.1.Spared gone v.newRoot.1 ∧ v.newRoot.2 = w.newRoot.2 := by
      obtain ⟨hgone, hp, hx, hr⟩ := h
      exact ⟨⟨hgone, hp, hx, hr⟩, rfl⟩
    obtain ⟨hown, hmade⟩ := hroot.1.newProcess w.newRoot.2
    simp only [World.carryOut, hroot.2, hown]
    exact hmade.mapHost (f := fun s => { s with processes := s.processes.push _ }) fun _ _ => rfl
  | markRunning index =>
    simp only [World.carryOut, h.hostProcess]
    exact h.modifyProcess (fun a b hab => hab.markRunning) _
  | complete index value failure =>
    obtain ⟨hvalue, hread⟩ := h.readValue value
    simp only [World.carryOut, h.hostProcess, hvalue]
    exact hread.complete hread _ _ _
  | addNotify index tag =>
    simp only [World.carryOut, h.hostProcess]
    exact h.modifyProcess (fun a b hab => hab.addNotify _) _
  | await target tag stack =>
    obtain ⟨hstack, hread⟩ := h.readStack stack none
    simp only [World.carryOut, hstack]
    cases target with
    | process index =>
      simp only [hread.hostProcess]
      exact hread.hostCallWord _ _ tag
    | dataflow index =>
      simp only [hread.hostVariable]
      exact hread.hostCallWord _ _ tag
  | receive index tag stack =>
    obtain ⟨hstack, hread⟩ := h.readStack stack (some (w.hostProcess index))
    simp only [World.carryOut, h.hostProcess, hstack]
    exact hread.hostCallWord _ _ tag
  | call word tag stack owner =>
    obtain ⟨hstack, hread⟩ := h.readStack stack (owner.map w.hostProcess)
    simp only [World.carryOut, funext h.hostProcess, hstack]
    exact hread.hostCallWord word _ tag
  | newVariable name =>
    obtain ⟨hgone, hp, hx, hr⟩ := h
    simp only [World.carryOut, newVariable, Table.add_fst, Table.add_snd, hx.size]
    exact ⟨hgone, hp, hx.push (.refl _), hr⟩
  | wait box tag =>
    simp only [World.carryOut, h.hostMailbox, h.mailbox]
    split
    · exact h.setMailbox _ _
    · exact h
  | deliver box value =>
    obtain ⟨hvalue, hread⟩ := h.readValue value
    simp only [World.carryOut, hread.hostMailbox, hvalue]
    exact hread.deliver _ _
  | post box value call =>
    obtain ⟨hvalue, hread⟩ := h.readValue value
    simp only [World.carryOut, h.hostMailbox, hread.mailbox, hvalue]
    have hposted := hread.setMailbox (w.hostMailbox box)
      (((w.readValue value).1.mailbox (w.hostMailbox box)).post (w.readValue value).2).1
    split
    · rename_i waker call hwaker
      obtain ⟨hcalled, hread'⟩ := hposted.readValue call
      simp only [hcalled]
      exact hread'.wakeReceiver _ _ _
    · exact hposted
    · exact hposted
  | take box =>
    simp only [World.carryOut, h.hostMailbox, h.mailbox]
    split
    · exact h.setMailbox _ _
    · exact h
  | requeue box value =>
    obtain ⟨hvalue, hread⟩ := h.readValue value
    simp only [World.carryOut, h.hostMailbox, hread.mailbox, hvalue]
    exact hread.setMailbox _ _
  | addWaiter index tag =>
    simp only [World.carryOut, h.hostVariable]
    exact h.modifyVariable (fun a b hab => hab.addWaiter _) _
  | bindNow index value =>
    obtain ⟨hvalue, hread⟩ := h.readValue value
    simp only [World.carryOut, h.hostVariable, hvalue]
    rcases (hread.dataflow (w.hostVariable index)).bind? (w.readValue value).2 with
      ⟨hw, hv⟩ | ⟨cell, cell', wakers, wakers', hw, hv, hcell, hl⟩
    · simp only [hw, hv]
      exact hread
    · simp only [hw, hv]
      refine (hread.modifyVariable (fun _ _ _ => hcell) _).foldl hl
        (fun waker hu => hu.wakeWaiter _ waker) fun hgone hu => ?_
      rw [hu.wakeWaiter_gone _ hgone]
      exact hu
  | bind index values =>
    obtain ⟨hstack, hread⟩ := h.readStack values none
    simp only [World.carryOut, hread.hostVariable, hstack]
    exact hread.hostCallWord _ _ ""
  | _ =>
    obtain ⟨hgone, hp, hx, hr⟩ := h
    exact ⟨hgone, hp, hx, hr⟩

theorem runScript (h : w.Spared gone v) (commands : List Host.Command) :
    (w.runScript commands).Spared gone (v.runScript commands) := by
  unfold World.runScript
  induction commands generalizing w v with
  | nil => exact h
  | cons command commands ih => exact ih ((h.carryOut command).addEntry _ _)

/-! ### Turns -/

theorem offer (h : w.Spared gone v) (m : MailboxId) (epoch : Nat) (waker : Waker) :
    (v.offer m epoch waker).2 = (w.offer m epoch waker).2 ∧
      (w.offer m epoch waker).1.Spared gone (v.offer m epoch waker).1 := by
  unfold World.offer
  simp only [h.mailbox]
  split
  · rename_i mailbox _
    have hset := h.setMailbox m mailbox
    simp only [hset.isAbandoned, hset.mailbox]
    split
    · exact ⟨rfl, hset.setMailbox m _⟩
    · exact ⟨rfl, hset.count fun _ _ _ _ => rfl⟩
  · split
    · exact ⟨rfl, h.setMailbox m _⟩
    · exact ⟨rfl, h.report _⟩

theorem wakeNext (h : w.Spared gone v) (m : MailboxId) (waker : Waker) :
    (w.wakeNext m waker).Spared gone (v.wakeNext m waker) := by
  unfold World.wakeNext
  simp only [h.mailbox]
  split
  · exact (h.setMailbox m _).wakeReceiver m _ waker
  · split
    · exact h.setMailbox m _
    · exact h.report _

/-- **A turn begins the same on both sides.** -/
theorem embark (h : w.Spared gone v) (task : Task) :
    (v.embark task).2 = (w.embark task).2 ∧
      (w.embark task).1.Spared gone (v.embark task).1 := by
  cases task with
  | resume k outcome => exact ⟨rfl, h⟩
  | activate captured own block exit s k =>
    obtain ⟨hgone, hp, hx, hr⟩ := h
    cases own <;> exact ⟨rfl, hgone, hp, hx, hr⟩
  | start p code s =>
    have hbegun := h.modifyProcess (fun a b hab => hab.markRunning) p
    simp only [World.embark, (hbegun.process p).env, true_and]
    exact hbegun
  | wakeReceiver m waker =>
    cases waker with
    | resume epoch s k =>
      obtain ⟨hmessage, hworlds⟩ := h.offer m epoch (.resume epoch s k)
      simp only [World.embark, hmessage, true_and]
      exact hworlds
    | report tag =>
      simp only [World.embark, h.mailbox]
      split
      · exact ⟨rfl, h.setMailbox m _⟩
      · exact ⟨rfl, h.wakeNext m _⟩
  | wakeWaiter waker value =>
    cases waker with
    | resume epoch s k =>
      simp only [World.embark, h.isAbandoned, true_and]
      exact h
    | report tag => exact ⟨rfl, h⟩
  | script commands => exact ⟨rfl, h.runScript commands⟩

theorem beginTurn (h : w.Spared gone v) {rest rest' : List Task}
    (hr : Thinned (Task.IsGone gone) rest rest') :
    (w.mapScheduler (·.beginTurn rest)).Spared gone (v.mapScheduler (·.beginTurn rest')) := by
  obtain ⟨hgone, hp, hx, -⟩ := h
  exact ⟨hgone, hp, hx, hr⟩

theorem perform (h : w.Spared gone v) (task : Task) :
    (w.perform task).Spared gone (v.perform task) := by
  obtain ⟨hfocus, hworlds⟩ := h.embark task
  have hw := reaches_perform w task
  have hv := reaches_perform v task
  refine hworlds.reaches (f := (w.embark task).2) hw ?_
  rw [← hfocus]
  exact hv

/-- **A turn is the same on both sides.** -/
theorem turn (h : w.Spared gone v) (task : Task) {rest rest' : List Task}
    (hr : Thinned (Task.IsGone gone) rest rest') :
    (w.turn task rest).Spared gone (v.turn task rest') := by
  have hdone := (h.beginTurn hr).perform task
  unfold World.turn
  generalize (w.mapScheduler (·.beginTurn rest)).perform task = w' at hdone
  generalize (v.mapScheduler (·.beginTurn rest')).perform task = v' at hdone
  obtain ⟨hgone, hp, hx, hr⟩ := hdone
  exact ⟨hgone, hp, hx, hr⟩

/-- In the turn of one who is gone nothing happens. -/
theorem turn_gone (h : w.Spared gone v) {task : Task} (ht : task.IsGone gone) (rest : List Task) :
    w.turn task rest = (w.mapScheduler (·.beginTurn rest)).mapScheduler Scheduler.endTurn := by
  have hbegun := h.beginTurn (.refl rest)
  cases task with
  | wakeWaiter waker value => rw [World.turn, World.perform, hbegun.wakeWaiter_gone value ht]
  | _ => cases ht

/-- The other side can do without such a turn. -/
theorem drop_turn (h : w.Spared gone v) {task : Task} (ht : task.IsGone gone) {rest : List Task}
    (hr : Thinned (Task.IsGone gone) rest v.scheduler.ready) :
    (w.turn task rest).Spared gone v := by
  rw [h.turn_gone ht]
  obtain ⟨hgone, hp, hx, -⟩ := h
  exact ⟨hgone, hp, hx, hr⟩

theorem promote (h : w.Spared gone v) (now : Nat) :
    (w.mapScheduler (·.promote now)).Spared gone (v.mapScheduler (·.promote now)) := by
  obtain ⟨hgone, hp, hx, hr⟩ := h
  exact ⟨hgone, hp, hx, hr.append (.refl _)⟩

theorem setClock (h : w.Spared gone v) (now : Nat) :
    (w.mapScheduler ({ · with clock := now })).Spared gone
      (v.mapScheduler ({ · with clock := now })) := by
  obtain ⟨hgone, hp, hx, hr⟩ := h
  exact ⟨hgone, hp, hx, hr⟩

theorem elapse (h : w.Spared gone v) :
    (w.mapScheduler Scheduler.elapse).Spared gone (v.mapScheduler Scheduler.elapse) := by
  obtain ⟨hgone, hp, hx, hr⟩ := h
  exact ⟨hgone, hp, hx, hr⟩

/-- Both worlds settle alike, unless one of them has something to do first. -/
theorem settle (h : w.Spared gone v)
    (hnil : (v.scheduler.promote v.scheduler.clock).ready = [] →
      (w.scheduler.promote w.scheduler.clock).ready = []) :
    (w.apply .settle).Spared gone (v.apply .settle) := by
  have hboth := h.promote w.scheduler.clock
  simp only [World.apply, mapScheduler] at hboth ⊢
  by_cases hw : (w.scheduler.promote w.scheduler.clock).ready = []
  · have hv : (v.scheduler.promote v.scheduler.clock).ready = [] := by
      have hr := hboth.ready
      rw [h.clock]
      rw [hw] at hr
      exact hr.eq_nil
    have ht := hboth.timers
    rw [Scheduler.settle_of_idle hw, Scheduler.settle_of_idle hv, h.clock, ht]
    cases (w.scheduler.promote w.scheduler.clock).timers with
    | nil => exact hboth
    | cons timer rest => exact (hboth.setClock timer.due).promote timer.due
  · rw [Scheduler.settle_of_ready hw, Scheduler.settle_of_ready (mt hnil hw), h.clock]
    exact hboth

/-- A world that has nothing to do may wait for the other. -/
theorem settle_or (h : w.Spared gone v) :
    (w.apply .settle).Spared gone (v.apply .settle) ∨ (w.apply .settle).Spared gone v := by
  by_cases hnil : (v.scheduler.promote v.scheduler.clock).ready = [] →
      (w.scheduler.promote w.scheduler.clock).ready = []
  · exact .inl (h.settle hnil)
  · right
    obtain ⟨hv, hw⟩ := Classical.not_imp.1 hnil
    have hdue : w.scheduler.timers.takeWhile (·.due ≤ w.scheduler.clock) = [] := by
      have hdue := (List.append_eq_nil_iff.1 hv).2
      rwa [h.timers, h.clock, List.map_eq_nil_iff] at hdue
    have hstill : w.apply .settle = w := by
      rw [World.apply, mapScheduler, Scheduler.settle_of_ready hw, Scheduler.promote_of_nil hdue]
    rwa [hstill]

end Spared

end World

end Catena
