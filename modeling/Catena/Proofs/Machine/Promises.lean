import Catena.Proofs.Machine.Epochs

/-!
# What comes once

The value of a variable and the result of a process come once and stay (`Promise`). This module says
what each effect can do to them, and to those who wait for them.

* An effect takes nothing off the queue, unless a turn begins or all tasks are dropped
  (`World.ready_apply`).
* An effect leaves a process as it is, or it is its first turn, or its end (`World.fares_apply`). So
  a process is done when it has a result (`World.Decided`).
* An effect leaves a promise alone, lets someone more wait for it, or fulfils it, and then everyone
  who waits is called, in the order in which they wait (`World.develops_apply`).
-/

namespace Catena

/-! ## The queue -/

/-- Effects that take nothing off the queue. -/
def Effect.keepsQueue : Effect → Bool
  | .beginTurn | .discard => false
  | _ => true

theorem Effect.keepsQueue_of_isDeed {e : Effect} (h : e.isDeed = true) : e.keepsQueue = true := by
  cases e with
  | beginTurn | discard => cases h
  | _ => rfl

theorem Begins.keepsQueue {w : World} {task : Task} {es : List Effect} {c : Control}
    (h : Begins w task es c) : ∀ e ∈ es, e.keepsQueue = true := by
  cases h <;> simp [Effect.keepsQueue]

/-- What happens besides turns takes nothing off the queue, unless all tasks are dropped. -/
theorem Policy.keepsQueue_of_allows {starts : World → Stack → Prop} {e : Effect}
    (h : (Policy.evaluations starts).allows e) : e.keepsQueue = true ∨ e = .discard := by
  rcases h with (rfl | rfl | rfl | ⟨elapsed, lapses, rfl⟩) | rfl | ⟨epoch, rfl⟩
  case inr.inl => exact .inr rfl
  all_goals exact .inl rfl

/-- With all tasks, the threads that they hold are lost. -/
theorem World.mem_lost_discard {w : World} {task : Task} {t : Thread}
    (h : task ∈ w.scheduler.ready) (ht : task.thread? = some t) :
    t ∈ w.gather World.lost [.discard] := by
  have hmem : t ∈ w.scheduler.ready.filterMap Task.thread? := List.mem_filterMap.2 ⟨task, h, ht⟩
  simp [gather, lost, dropped, hmem]

/-- All other effects add to the end of the queue, if anything. -/
theorem World.ready_apply (w : World) {e : Effect} (h : e.keepsQueue = true) :
    ∃ tasks, (w.apply e).scheduler.ready = w.scheduler.ready ++ tasks := by
  by_cases hquiet : e.isQuiet = true
  · exact ⟨[], by rw [(w.sameCells_apply hquiet).ready, List.append_nil]⟩
  by_cases htouch : e.touches = true
  · cases w.touches_apply htouch with
    | queue hw | dataflow _ hw | process _ _ hw | mailbox _ hw => exact ⟨_, hw.ready⟩
  cases e with
  | spawn captured block parent => exact ⟨[_], rfl⟩
  | settle =>
    obtain ⟨due, hr, -⟩ := w.scheduler.settle_spec
    exact ⟨_, hr⟩
  | newVariable | schedule | fillSlot | launch => exact ⟨[], (List.append_nil _).symm⟩
  | beginTurn | discard => cases h
  | _ => first | exact absurd rfl hquiet | exact absurd rfl htouch

/-! ## Promises -/

/-- What is not there at first, comes at most once, and stays: the value of a variable or the result
of a process. -/
inductive Promise where
  | dataflow (v : VariableId)
  | process (p : ProcessId)
  deriving DecidableEq

/-- The cell in which one waits for it. -/
def Promise.cell : Promise → Cell
  | .dataflow v => .dataflow v
  | .process p => .process p

namespace World

/-- What has come of a promise. -/
def promised (w : World) : Promise → Option Value
  | .dataflow v => (w.dataflow v).value
  | .process p => (w.process p).result

/-- The tasks by which one who waits is called with the value. -/
def calls (w : World) (value : Value) : Promise → Waker → List Task
  | .dataflow _, waker => [.wakeWaiter waker value]
  | .process _, waker => w.joined value waker

end World

namespace World

theorem dataflow_modifyVariable (w : World) (v x : VariableId) (f : Variable → Variable) :
    (w.modifyVariable v f).dataflow x =
      if v = x ∧ x.index < w.dataflows.size then f (w.dataflow x) else w.dataflow x := by
  by_cases hv : v = x
  · subst hv
    rcases Nat.lt_or_ge v.index w.dataflows.size with hin | hin
    · rw [if_pos ⟨rfl, hin⟩]
      exact Table.get_modify_self f hin
    · rw [if_neg (by omega), modifyVariable, Table.modify_of_size_le f hin]
  · rw [if_neg (by simp [hv])]
    exact Table.get_modify_of_ne _ f fun hi => hv (by cases v; cases x; exact congrArg _ hi)

theorem process_modifyProcess (w : World) (p x : ProcessId) (f : Process → Process) :
    (w.modifyProcess p f).process x =
      if p = x ∧ x.index < w.processes.size then f (w.process x) else w.process x := by
  by_cases hp : p = x
  · subst hp
    rcases Nat.lt_or_ge p.index w.processes.size with hin | hin
    · rw [if_pos ⟨rfl, hin⟩]
      exact Table.get_modify_self f hin
    · rw [if_neg (by omega), modifyProcess, Table.modify_of_size_le f hin]
  · rw [if_neg (by simp [hp])]
    exact Table.get_modify_of_ne _ f fun hi => hp (by cases p; cases x; exact congrArg _ hi)

/-- A variable that does not exist yet is as good as a new one. -/
theorem dataflow_newVariable (w : World) (name : Name) (x : VariableId) :
    ((w.newVariable name).1.dataflow x).value = (w.dataflow x).value ∧
      ((w.newVariable name).1.dataflow x).waiters = (w.dataflow x).waiters := by
  have hd : (w.newVariable name).1.dataflows = w.dataflows.push (.new name) := rfl
  simp only [dataflow, hd]
  rcases Nat.lt_trichotomy x.index w.dataflows.size with hx | hx | hx
  · rw [Table.get_push_of_lt _ hx]
    exact ⟨rfl, rfl⟩
  · rw [hx, Table.get_push_size, Table.get_of_size_le le_rfl]
    exact ⟨rfl, rfl⟩
  · rw [Table.get_of_size_le (by rw [Table.size_push]; omega), Table.get_of_size_le (by omega)]
    exact ⟨rfl, rfl⟩

/-- A process that does not exist yet is as good as a new one, but for its environment and its
mailbox. -/
theorem process_spawn (w : World) (captured : Bindings Value) (block : Block)
    (parent : Option ProcessId) (x : ProcessId) :
    ∃ env mailbox, (w.apply (.spawn captured block parent)).process x =
      { w.process x with env, mailbox } := by
  have hp : (w.apply (.spawn captured block parent)).processes =
      w.processes.push (.new ⟨w.forest.handles.size⟩ ⟨w.mailboxes.size⟩) := rfl
  simp only [process, hp]
  rcases Nat.lt_trichotomy x.index w.processes.size with hx | hx | hx
  · rw [Table.get_push_of_lt _ hx]
    exact ⟨_, _, rfl⟩
  · rw [hx, Table.get_push_size, Table.get_of_size_le le_rfl]
    exact ⟨_, _, rfl⟩
  · rw [Table.get_of_size_le (by rw [Table.size_push]; omega), Table.get_of_size_le (by omega)]
    exact ⟨_, _, rfl⟩

/-! ## What processes come to -/

/-- What an effect does to a process: nothing that it is waited for, or it is its first turn, or its
end. -/
inductive Fares (w : World) (p : ProcessId) (e : Effect) : Prop
  | stays (hstate : ((w.apply e).process p).state = (w.process p).state)
      (hresult : ((w.apply e).process p).result = (w.process p).result)
      (hfailure : ((w.apply e).process p).failure = (w.process p).failure)
  | begins (he : e = .markRunning p) (hbefore : (w.process p).state = .waiting)
      (hstate : ((w.apply e).process p).state = .running)
      (hresult : ((w.apply e).process p).result = (w.process p).result)
      (hfailure : ((w.apply e).process p).failure = (w.process p).failure)
  | ends {outcome : Outcome} (he : e = .finish p outcome) (hbefore : (w.process p).state ≠ .done)
      (h : (w.apply e).process p = ended (w.process p) outcome)

theorem fares_apply (w : World) (p : ProcessId) (e : Effect) : w.Fares p e := by
  by_cases hkeeps : e.keepsProcesses = true
  · have hp : (w.apply e).process p = w.process p :=
      congrArg (·.get p.index) (w.processes_apply hkeeps)
    exact .stays (by rw [hp]) (by rw [hp]) (by rw [hp])
  cases e with
  | spawn captured block parent =>
    obtain ⟨env, mailbox, hp⟩ := w.process_spawn captured block parent p
    exact .stays (by rw [hp]) (by rw [hp]) (by rw [hp])
  | awaitProcess q s k =>
    cases hr : (w.process q).result with
    | some u =>
      have hp : (w.apply (.awaitProcess q s k)).process p = w.process p := by
        simp only [apply, awaitProcess_of_result hr]
        rfl
      exact .stays (by rw [hp]) (by rw [hp]) (by rw [hp])
    | none =>
      have hp := w.process_modifyProcess q p (·.addNotify (.resume w.scheduler.epoch s k))
      rw [← awaitProcess_of_none hr] at hp
      refine .stays ?_ ?_ ?_ <;> simp only [apply, hp] <;> split <;> rfl
  | finish q outcome =>
    by_cases hs : (w.process q).state = .done
    · have hp : (w.apply (.finish q outcome)).process p = w.process p := by
        simp only [apply, finishProcess_of_done hs]
        rw [process_modifyProcess]
        split
        · rename_i hq
          rw [hq.1]
        · rfl
      exact .stays (by rw [hp]) (by rw [hp]) (by rw [hp])
    · have hp : (w.apply (.finish q outcome)).process p =
          (w.modifyProcess q fun _ => ended (w.process q) outcome).process p :=
        congrArg (·.get p.index) (finishProcess_of_ne_done hs outcome).processes
      rw [process_modifyProcess] at hp
      split at hp
      · rename_i hq
        obtain ⟨rfl, -⟩ := hq
        exact .ends rfl hs hp
      · exact .stays (by rw [hp]) (by rw [hp]) (by rw [hp])
  | markRunning q =>
    have hp := w.process_modifyProcess q p Process.markRunning
    split at hp
    · rename_i hq
      obtain ⟨rfl, -⟩ := hq
      have happly : (w.apply (.markRunning q)).process q = (w.process q).markRunning := hp
      by_cases hs : (w.process q).state = .waiting
      · refine .begins rfl hs ?_ ?_ ?_ <;> simp [happly, Process.markRunning, hs]
      · refine .stays ?_ ?_ ?_ <;> simp [happly, Process.markRunning, hs]
    · have happly : (w.apply (.markRunning q)).process p = w.process p := hp
      exact .stays (by rw [happly]) (by rw [happly]) (by rw [happly])
  | _ => exact absurd rfl hkeeps

/-- A process is done when it has a result. -/
def Decided (w : World) : Prop :=
  ∀ p, (w.process p).state = .done ↔ (w.process p).result.isSome

theorem Decided.apply {w : World} (h : w.Decided) (e : Effect) : (w.apply e).Decided := by
  intro p
  cases w.fares_apply p e with
  | stays hstate hresult _ => rw [hstate, hresult]; exact h p
  | begins _ hbefore hstate hresult _ =>
    rw [hstate, hresult, ← h p, hbefore]
    simp
  | ends _ _ hp => simp [hp, ended]

theorem decided_empty : ({} : World).Decided := by
  intro p
  have hp : ({} : World).process p = default := Table.get_of_size_le (Nat.zero_le _)
  rw [hp]
  simp [default, Process.new]

theorem Decided.replay {w : World} (h : w.Decided) (es : List Effect) : (w.replay es).Decided :=
  replay_induct h fun _ e _ hv => hv.apply e

/-! ## What effects do to promises -/

/-- What an effect does to a promise: it stays as it is, where someone more may begin to wait, or it
is fulfilled, and whoever waits is called in order, or is lost if its epoch has been given up. -/
inductive Develops (w : World) (x : Promise) (e : Effect) : Prop
  | stays (hvalue : (w.apply e).promised x = w.promised x)
      (hwaiting : ∃ more, (w.apply e).waiting x.cell = w.waiting x.cell ++ more)
  | comes {u : Value} (hbefore : w.promised x = none) (hvalue : (w.apply e).promised x = some u)
      (hready : (w.apply e).scheduler.ready =
        w.scheduler.ready ++ (w.waiting x.cell).flatMap (w.calls u x))
      (hlost : ∀ epoch s k t, .resume epoch s k ∈ w.waiting x.cell → k.thread? = some t →
        w.calls u x (.resume epoch s k) = [] → t ∈ w.lost e)

variable {w : World}

theorem develops_dataflow (w : World) (v : VariableId) (e : Effect) :
    w.Develops (.dataflow v) e := by
  by_cases hkeeps : e.keepsVariables = true
  · have hd : (w.apply e).dataflow v = w.dataflow v :=
      congrArg (·.get v.index) (w.dataflows_apply hkeeps)
    refine .stays (congrArg Variable.value hd) ⟨[], ?_⟩
    rw [List.append_nil]
    exact congrArg Variable.waiters hd
  cases e with
  | newVariable name =>
    obtain ⟨hvalue, hwaiters⟩ := w.dataflow_newVariable name v
    exact .stays hvalue ⟨[], by rw [List.append_nil]; exact hwaiters⟩
  | bind x value =>
    cases hx : (w.dataflow x).value with
    | some u =>
      have hw : w.apply (.bind x value) = w := bind_of_bound hx value
      exact .stays (by rw [hw]) ⟨[], by rw [hw, List.append_nil]⟩
    | none =>
      have hq := bind_of_unbound hx value
      have hd : (w.apply (.bind x value)).dataflow v =
          (w.modifyVariable x fun _ => bindTo (w.dataflow x) value).dataflow v :=
        congrArg (·.get v.index) hq.dataflows
      rw [dataflow_modifyVariable] at hd
      split at hd
      · rename_i hxv
        obtain ⟨rfl, -⟩ := hxv
        refine .comes hx (congrArg Variable.value hd) ?_ fun _ _ _ _ _ _ hnil => by cases hnil
        have hready := hq.ready
        rw [List.map_eq_flatMap] at hready
        exact hready
      · refine .stays (congrArg Variable.value hd) ⟨[], ?_⟩
        rw [List.append_nil]
        exact congrArg Variable.waiters hd
  | awaitVariable x s k =>
    cases hx : (w.dataflow x).value with
    | some u =>
      have hw : w.apply (.awaitVariable x s k) = _ := awaitVariable_of_bound hx s k
      exact .stays (by rw [hw]; rfl) ⟨[], by rw [hw, List.append_nil]; rfl⟩
    | none =>
      have hd := w.dataflow_modifyVariable x v (·.addWaiter (.resume w.scheduler.epoch s k))
      rw [← awaitVariable_of_unbound hx] at hd
      split at hd
      · have hvalue : ((w.awaitVariable x s k).dataflow v).value = (w.dataflow v).value := by
          rw [hd]
          rfl
        exact .stays hvalue ⟨_, congrArg Variable.waiters hd⟩
      · refine .stays (congrArg Variable.value hd) ⟨[], ?_⟩
        rw [List.append_nil]
        exact congrArg Variable.waiters hd
  | _ => exact absurd rfl hkeeps

theorem develops_process (hd : w.Decided) (p : ProcessId) (e : Effect) :
    w.Develops (.process p) e := by
  have same : (w.apply e).process p = w.process p → w.Develops (.process p) e := by
    intro hp
    refine .stays (congrArg Process.result hp) ⟨[], ?_⟩
    rw [List.append_nil]
    exact congrArg Process.notify hp
  by_cases hkeeps : e.keepsProcesses = true
  · exact same (congrArg (·.get p.index) (w.processes_apply hkeeps))
  cases e with
  | spawn captured block parent =>
    obtain ⟨env, mailbox, hp⟩ := w.process_spawn captured block parent p
    refine .stays ?_ ⟨[], ?_⟩
    · simp only [promised, hp]
    · simp only [Promise.cell, waiting, hp, List.append_nil]
  | awaitProcess q s k =>
    cases hr : (w.process q).result with
    | some u =>
      have hw : w.apply (.awaitProcess q s k) = _ := awaitProcess_of_result hr s k
      exact same (by rw [hw]; rfl)
    | none =>
      have hp := w.process_modifyProcess q p (·.addNotify (.resume w.scheduler.epoch s k))
      rw [← awaitProcess_of_none hr] at hp
      split at hp
      · have hresult : ((w.awaitProcess q s k).process p).result = (w.process p).result := by
          rw [hp]
          rfl
        exact .stays hresult ⟨_, congrArg Process.notify hp⟩
      · exact same hp
  | finish q outcome =>
    by_cases hs : (w.process q).state = .done
    · refine same ?_
      simp only [apply, finishProcess_of_done hs]
      rw [process_modifyProcess]
      split
      · rename_i hq
        rw [hq.1]
      · rfl
    · have hq := finishProcess_of_ne_done hs outcome
      have hp : (w.apply (.finish q outcome)).process p =
          (w.modifyProcess q fun _ => ended (w.process q) outcome).process p :=
        congrArg (·.get p.index) hq.processes
      rw [process_modifyProcess] at hp
      split at hp
      · rename_i hqp
        obtain ⟨rfl, -⟩ := hqp
        have hnone : (w.process q).result = none := by
          rw [← Option.not_isSome_iff_eq_none, ← hd q]
          exact hs
        refine .comes hnone (congrArg Process.result hp) hq.ready ?_
        -- one whose epoch has been given up is dropped when the process ends
        intro epoch s k t hmem hk hnil
        have hgone : w.isAbandoned epoch = true := by
          simp only [calls, joined] at hnil
          split at hnil
          · assumption
          · cases hnil
        refine List.mem_append_left _ ?_
        simp only [dropped, if_neg hs]
        exact List.mem_filterMap.2 ⟨_, List.mem_filter.2 ⟨hmem, hgone⟩, hk⟩
      · exact same hp
  | markRunning q =>
    have hp := w.process_modifyProcess q p Process.markRunning
    split at hp
    · refine .stays ?_ ⟨[], ?_⟩
      · exact (congrArg Process.result hp).trans (Process.result_markRunning _)
      · rw [List.append_nil]
        exact (congrArg Process.notify hp).trans (Process.notify_markRunning _)
    · exact same hp
  | _ => exact absurd rfl hkeeps

/-- **What effects do to promises.** -/
theorem develops_apply (hd : w.Decided) (x : Promise) (e : Effect) : w.Develops x e := by
  cases x with
  | dataflow v => exact w.develops_dataflow v e
  | process p => exact develops_process hd p e

/-- What has come stays. -/
theorem promised_apply (hd : w.Decided) {x : Promise} {u : Value} (h : w.promised x = some u)
    (e : Effect) : (w.apply e).promised x = some u := by
  cases develops_apply hd x e with
  | stays hvalue _ => exact hvalue.trans h
  | comes hbefore => rw [h] at hbefore; cases hbefore

theorem promised_replay (hd : w.Decided) {x : Promise} {u : Value} (h : w.promised x = some u)
    (es : List Effect) : (w.replay es).promised x = some u := by
  induction es generalizing w with
  | nil => exact h
  | cons e es ih => exact ih (hd.apply e) (promised_apply hd h e)

end World

end Catena
