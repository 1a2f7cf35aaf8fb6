import Catena.Proofs.Machine.Awaiting

/-!
# The life of a process

A process waits for its first turn, runs, and is done, in this order (`ProcessState.Precedes`). It
ends when its body has come to an outcome, which happens once; from then on it has its result, and
everyone who waits for it is served with it (`process_lifecycle`).

That a process does not end before it has begun is a matter of where its continuation is: as long as
it has not begun, all there is of it is the task that starts it (`World.Startable`), so that nothing
of it can be at work.
-/

namespace Catena

/-- The steps in the life of a process. -/
inductive ProcessState.Precedes : ProcessState → ProcessState → Prop
  | same (s : ProcessState) : Precedes s s
  | begins : Precedes .waiting .running
  | ends : Precedes .running .done

namespace World

variable {w : World} {p : ProcessId}

/-- The outcomes that a process ends with. -/
def finishes (p : ProcessId) (_ : World) : Effect → List Outcome
  | .finish q outcome => if q = p then [outcome] else []
  | _ => []

/-- From `w` to `w'` a process has not ended, though it may have begun. -/
structure GoesOn (p : ProcessId) (w w' : World) : Prop where
  result : (w'.process p).result = (w.process p).result
  failure : (w'.process p).failure = (w.process p).failure
  state : (w'.process p).state = (w.process p).state ∨
    ((w.process p).state = .waiting ∧ (w'.process p).state = .running)

theorem GoesOn.trans {w' w'' : World} (h : GoesOn p w w') (h' : GoesOn p w' w'') :
    GoesOn p w w'' where
  result := h'.result.trans h.result
  failure := h'.failure.trans h.failure
  state := by
    rcases h.state with hs | ⟨hbefore, hs⟩ <;> rcases h'.state with hs' | ⟨hbefore', hs'⟩
    · exact .inl (hs'.trans hs)
    · exact .inr ⟨hs.symm.trans hbefore', hs'⟩
    · exact .inr ⟨hbefore, hs'.trans hs⟩
    · cases hs.symm.trans hbefore'

theorem GoesOn.precedes {w' : World} (h : GoesOn p w w') :
    (w.process p).state.Precedes (w'.process p).state := by
  rcases h.state with hs | ⟨hbefore, hs⟩
  · rw [hs]
    exact .same _
  · rw [hbefore, hs]
    exact .begins

theorem goesOn_apply {e : Effect} (h : ∀ outcome, e ≠ .finish p outcome) :
    GoesOn p w (w.apply e) := by
  cases w.fares_apply p e with
  | stays hstate hresult hfailure => exact ⟨hresult, hfailure, .inl hstate⟩
  | begins _ hbefore hstate hresult hfailure => exact ⟨hresult, hfailure, .inr ⟨hbefore, hstate⟩⟩
  | ends he => exact absurd he (h _)

theorem goesOn_replay {es : List Effect} (h : ∀ e ∈ es, ∀ outcome, e ≠ .finish p outcome) :
    GoesOn p w (w.replay es) :=
  replay_induct ⟨rfl, rfl, .inl rfl⟩ fun _ e he hv => hv.trans (goesOn_apply (h e he))

theorem gather_finishes_eq_nil {es : List Effect}
    (h : ∀ e ∈ es, ∀ outcome, e ≠ .finish p outcome) : w.gather (finishes p) es = [] := by
  induction es generalizing w with
  | nil => rfl
  | cons e es ih =>
    obtain ⟨he, hes⟩ := List.forall_mem_cons.1 h
    have hnil : w.finishes p e = [] := by
      cases e with
      | finish q outcome => exact if_neg fun hq : q = p => he outcome (by rw [hq])
      | _ => rfl
    rw [gather, hnil, ih hes]
    rfl

/-- The end of a process. -/
theorem process_finish (h : w.isUnfinished (.process p) = true) (outcome : Outcome) :
    (w.apply (.finish p outcome)).process p = ended (w.process p) outcome := by
  obtain ⟨hin, hs⟩ := isUnfinished_process_iff.1 h
  have hp : (w.apply (.finish p outcome)).process p = _ :=
    congrArg (·.get p.index) (finishProcess_of_ne_done hs outcome).processes
  exact hp.trans ((w.process_modifyProcess p p _).trans (if_pos ⟨rfl, hin⟩))

/-- A process that has taken its first turn has begun. -/
theorem not_waiting_markRunning (h : p.index < (w.apply (.markRunning p)).processes.size) :
    ((w.apply (.markRunning p)).process p).state ≠ .waiting := by
  have hin : p.index < w.processes.size := by rwa [(w.sameTraits_apply rfl).size] at h
  have hp : (w.apply (.markRunning p)).process p = (w.process p).markRunning :=
    (w.process_modifyProcess p p Process.markRunning).trans (if_pos ⟨rfl, hin⟩)
  rw [hp, Process.markRunning]
  split
  · simp
  · assumption

/-! ## Processes that have not begun -/

/-- A process that has not begun has a task that starts it, or has been lost with it. -/
def Startable (w : World) (p : ProcessId) (gone : List Thread) : Prop :=
  p.index < w.processes.size → (w.process p).state = .waiting →
    .process p ∈ gone ∨ ∃ code s, .start p code s ∈ w.scheduler.ready

theorem Startable.apply {gone : List Thread} (h : w.Startable p gone) {e : Effect}
    (he : e.keepsQueue = true) : (w.apply e).Startable p gone := by
  intro hin hwaiting
  obtain ⟨tasks, htasks⟩ := w.ready_apply he
  by_cases hold : p.index < w.processes.size
  · have hbefore : (w.process p).state = .waiting := by
      cases w.fares_apply p e with
      | stays hstate => exact hstate.symm.trans hwaiting
      | begins _ hbefore => exact hbefore
      | ends _ _ hend =>
        rw [hend] at hwaiting
        cases hwaiting
    rcases h hold hbefore with hgone | ⟨code, s, hmem⟩
    · exact .inl hgone
    · exact .inr ⟨code, s, by rw [htasks]; exact List.mem_append_left _ hmem⟩
  · -- it is being made
    cases e with
    | spawn captured block parent =>
      have hsize : (w.apply (.spawn captured block parent)).processes.size =
          w.processes.size + 1 := Table.size_push _ _
      obtain ⟨index⟩ := p
      obtain rfl : index = w.processes.size := by
        simp only at hold hin
        omega
      exact .inr ⟨_, _, List.mem_append_right _ (List.mem_singleton_self _)⟩
    | _ =>
      rw [(w.sameTraits_apply rfl).size] at hin
      exact absurd hin hold

theorem Startable.replay {gone : List Thread} (h : w.Startable p gone) {es : List Effect}
    (he : ∀ e ∈ es, e.keepsQueue = true) : (w.replay es).Startable p gone :=
  replay_induct (I := fun v => v.Startable p gone) h fun _ e hmem hv => hv.apply (he e hmem)

end World

section Steps

variable {starts : World → Stack → Prop} {m m' : Moment} {es fs : List Event} {p : ProcessId}

/-- **One step of a process that has not begun**: the task that starts it stays, or is taken, or is
lost. -/
theorem Next.startable (hn : Next (.evaluations starts) m fs m')
    {gone : List Thread} (h : m.world.Startable p gone) :
    m'.world.Startable p (gone ++ m.world.gather World.lost (effectsOf fs)) := by
  have more : ∀ {w : World}, w.Startable p gone → ∀ l, w.Startable p (gone ++ l) := by
    intro w hw l hin hwaiting
    exact (hw hin hwaiting).imp_left (List.mem_append_left _)
  rw [hn.world_eq]
  cases hn with
  | work hdoes =>
    rw [effectsOf_map]
    exact more (h.replay hdoes.keepsQueue) _
  | @turn w c roots task rest es hr hbegins =>
    rw [effectsOf_map]
    by_cases hstart : ∃ code s, task = .start p code s
    -- it begins
    · obtain ⟨code, s, rfl⟩ := hstart
      cases hbegins
      intro hin hwaiting
      exact absurd hwaiting (World.not_waiting_markRunning hin)
    -- the turn belongs to someone else
    · have hbegun : (w.apply .beginTurn).Startable p gone := by
        intro hin hwaiting
        refine (h hin hwaiting).imp_right ?_
        rintro ⟨code, s, hmem⟩
        refine ⟨code, s, ?_⟩
        show _ ∈ w.scheduler.ready.tail
        rw [hr, List.mem_cons] at hmem
        rw [hr]
        exact hmem.resolve_left fun heq => hstart ⟨code, s, heq.symm⟩
      exact more (hbegun.replay hbegins.keepsQueue) _
  | evaluate strict program henv hs => exact more (h.replay (List.forall_mem_singleton.2 rfl)) _
  | install => exact more (h.replay (List.forall_mem_singleton.2 rfl)) _
  | @outside w c roots e he =>
    rcases Policy.keepsQueue_of_allows he with hkeeps | rfl
    · exact more (h.replay (List.forall_mem_singleton.2 hkeeps)) _
    · intro hin hwaiting
      refine .inl ?_
      rcases h hin hwaiting with hgone | ⟨code, s, hmem⟩
      · exact List.mem_append_left _ hgone
      · exact List.mem_append_right _ (World.mem_lost_discard hmem rfl)

theorem Run.startable (h : Run (.evaluations starts) .dawn es m) (p : ProcessId) :
    m.world.Startable p (World.gather World.lost {} (effectsOf es)) := by
  induction h with
  | refl => exact fun hin => absurd hin (Nat.not_lt_zero _)
  | step hr hn ih =>
    have hnext := hn.startable ih
    rw [effectsOf_append, World.gather_append]
    rw [hr.world_eq] at hnext
    exact hnext

/-- Only the end of its body ends a process. -/
theorem Next.of_finish {outcome : Outcome} (hn : Next (.evaluations starts) m es m')
    (he : .finish p outcome ∈ effectsOf es) :
    m.control = .resume (.deliver (.finish p)) outcome ∧
      es = [⟨some (.process p), .finish p outcome⟩] := by
  have hends : ∀ {fs : List Effect}, (∀ e ∈ fs, e.endsThread = false) → .finish p outcome ∉ fs :=
    fun hfs hmem => by cases hfs _ hmem
  cases hn with
  | work hdoes =>
    rw [effectsOf_map] at he
    cases hdoes with
    | finishProcess =>
      obtain ⟨rfl, rfl⟩ := Effect.finish.inj (List.mem_singleton.1 he)
      exact ⟨rfl, rfl⟩
    | call hv hs => exact absurd he (hends fun e h => (Effect.still (hs.isStill e h)).2.2)
    | fail hv hs =>
      refine absurd he (hends ?_)
      refine List.forall_mem_append.2 ⟨fun e h => ?_, by simp [Effect.endsThread]⟩
      exact (Effect.still (hs.isStill e h)).2.2
    | takeOver hv ha => exact absurd he (hends ha.endsThread)
    | _ => simp at he
  | turn hr hbegins =>
    rw [effectsOf_map, List.mem_cons] at he
    rcases he with he | he
    · cases he
    · exact absurd he (hends (hbegins.account (.process p)).2)
  | evaluate | install => simp [effectsOf] at he
  | outside hallows =>
    obtain rfl : Effect.finish p outcome = _ := by simpa [effectsOf] using he
    rcases hallows with (h | h | h | ⟨_, _, h⟩) | h | ⟨_, h⟩ <;> cases h

/-- **One step in the life of a process.** It goes on, or its body has come to an outcome and it
ends. -/
theorem Next.lives (hst : ∀ w s, starts w s → s.Sound w)
    (hrun : Run (.evaluations starts) .dawn es m) (hn : Next (.evaluations starts) m fs m')
    (p : ProcessId) :
    (m.world.gather (World.finishes p) (effectsOf fs) = [] ∧
        World.GoesOn p m.world m'.world) ∨
      ∃ outcome, m.world.gather (World.finishes p) (effectsOf fs) = [outcome] ∧
        m.control = .resume (.deliver (.finish p)) outcome ∧
        (m.world.process p).state = .running ∧
        m'.world.process p = World.ended (m.world.process p) outcome := by
  by_cases hfinish : ∃ outcome, .finish p outcome ∈ effectsOf fs
  · obtain ⟨outcome, hmem⟩ := hfinish
    obtain ⟨hcontrol, rfl⟩ := hn.of_finish hmem
    have hbal := hrun.balanced hst
    have hthread : m.control.thread? = some (.process p) := by rw [hcontrol]; rfl
    have hunfinished := hbal.isUnfinished hthread
    obtain ⟨hin, hnot⟩ := World.isUnfinished_process_iff.1 hunfinished
    refine .inr ⟨outcome, by simp [effectsOf, World.gather, World.finishes], hcontrol, ?_, ?_⟩
    · cases hstate : (m.world.process p).state with
      | running => rfl
      | done => exact absurd hstate hnot
      | waiting =>
        -- a thread at work is neither lost nor held in a task
        have hb := hbal (.process p)
        have hle := (m.world.isUnfinished (.process p)).toNat_le
        rw [Control.isOf_of_thread? hthread, Bool.toNat_true] at hb
        rcases hrun.startable p hin hstate with hgone | ⟨code, s, hready⟩
        · have := List.count_pos_iff.2 hgone
          omega
        · have hpos : 0 < m.world.scheduler.ready.countP (Task.isOf (.process p)) :=
            List.countP_pos_iff.2 ⟨_, hready, decide_eq_true rfl⟩
          have := m.world.countP_ready_add_countWaiting_le (.process p)
          omega
    · rw [hn.world_eq]
      exact World.process_finish hunfinished outcome
  · have hnone : ∀ e ∈ effectsOf fs, ∀ outcome, e ≠ .finish p outcome := by
      rintro e he outcome rfl
      exact hfinish ⟨outcome, he⟩
    refine .inl ⟨World.gather_finishes_eq_nil hnone, ?_⟩
    rw [hn.world_eq]
    exact World.goesOn_replay hnone

/-- What a process is, given the outcomes that it has ended with, of which there is at most one. Its
result is the top of its last stack, or `nil` if there is none or its body failed. -/
def Process.EndedBy (process : Process) : List Outcome → Prop
  | [] => process.state ≠ .done ∧ process.result = none ∧ process.failure = none
  | [.ok s] => process.state = .done ∧ process.result = some (s.top?.getD .nil) ∧
      process.failure = none
  | [.error e] => process.state = .done ∧ process.result = some .nil ∧ process.failure = some e
  | _ => False

theorem World.endedBy_ended (process : Process) (outcome : Outcome) :
    (ended process outcome).EndedBy [outcome] := by
  cases outcome <;> exact ⟨rfl, rfl, rfl⟩

theorem Process.EndedBy.eq_nil {process : Process} {outcomes : List Outcome}
    (h : process.EndedBy outcomes) (hs : process.state ≠ .done) : outcomes = [] := by
  unfold EndedBy at h
  split at h
  · rfl
  · exact absurd h.1 hs
  · exact absurd h.1 hs
  · exact h.elim

/-- A process that goes on has ended as it had before. -/
theorem Process.EndedBy.goesOn {w w' : World} (h : World.GoesOn p w w') {outcomes : List Outcome}
    (he : (w.process p).EndedBy outcomes) : (w'.process p).EndedBy outcomes := by
  have hdone : (w'.process p).state = .done ↔ (w.process p).state = .done := by
    rcases h.state with hs | ⟨hbefore, hs⟩
    · rw [hs]
    · rw [hs, hbefore]
      simp
  unfold EndedBy at he ⊢
  split at he <;> simp_all [h.result, h.failure]

/-- **A process ends once**, with the outcome of its body. -/
theorem Run.endedBy (hst : ∀ w s, starts w s → s.Sound w)
    (h : Run (.evaluations starts) .dawn es m) (p : ProcessId) :
    (m.world.process p).EndedBy (World.gather (World.finishes p) {} (effectsOf es)) := by
  induction h with
  | refl =>
    have hp : Moment.dawn.world.process p = default := Table.get_of_size_le (Nat.zero_le _)
    rw [hp]
    exact ⟨by simp [default, Process.new], rfl, rfl⟩
  | step hr hn ih =>
    rw [effectsOf_append, World.gather_append, ← show _ = World.replay {} _ from hr.world_eq]
    rcases hn.lives hst hr p with ⟨hnil, hgoes⟩ | ⟨outcome, hone, -, hrunning, hend⟩
    · rw [hnil, List.append_nil]
      exact ih.goesOn hgoes
    -- it was running, so it has not ended before
    · have hnot : (World.process _ p).state ≠ .done :=
        fun hdone => by cases hdone.symm.trans hrunning
      rw [ih.eq_nil hnot, hone, hend]
      exact World.endedBy_ended _ outcome

/-! ## The law of processes -/

/-- What becomes of a process and of those who wait for it, in every run of any number of
evaluations. -/
structure Lifecycle (starts : World → Stack → Prop) (p : ProcessId) : Prop where
  /-- It waits for its first turn, then runs, then is done. -/
  precedes : ∀ {es m fs m'}, Run (.evaluations starts) .dawn es m →
    Next (.evaluations starts) m fs m' →
      (m.world.process p).state.Precedes (m'.world.process p).state
  /-- It ends at most once, and what it ends with decides its result and its failure. -/
  ended : ∀ {es m}, Run (.evaluations starts) .dawn es m →
    (m.world.process p).EndedBy (World.gather (World.finishes p) {} (effectsOf es))
  /-- What it ends with is what its body has come to. -/
  body : ∀ {es m fs m' outcome}, Run (.evaluations starts) .dawn es m →
    Next (.evaluations starts) m fs m' → .finish p outcome ∈ effectsOf fs →
      m.control = .resume (.deliver (.finish p)) outcome ∧
        fs = [⟨some (.process p), .finish p outcome⟩]
  /-- It is done when it has a result. -/
  decided : ∀ {es m}, Run (.evaluations starts) .dawn es m →
    ((m.world.process p).state = .done ↔ (m.world.process p).result.isSome)
  /-- Nobody waits for a process that is done. -/
  released : ∀ {es m}, Run (.evaluations starts) .dawn es m →
    (m.world.process p).state = .done → (m.world.process p).notify = []
  /-- Once it is done, it stays as it is. -/
  final : ∀ {es m fs m'}, Run (.evaluations starts) .dawn es m →
    Run (.evaluations starts) m fs m' → (m.world.process p).state = .done →
      (m'.world.process p).state = .done ∧
        (m'.world.process p).result = (m.world.process p).result ∧
        (m'.world.process p).failure = (m.world.process p).failure
  /-- Whoever waits for the result gets it once and in order. -/
  serves : Serves starts (.process p)

theorem Run.final (hst : ∀ w s, starts w s → s.Sound w)
    (hrun : Run (.evaluations starts) .dawn es m) (hrest : Run (.evaluations starts) m fs m')
    (hdone : (m.world.process p).state = .done) :
    (m'.world.process p).state = .done ∧
      (m'.world.process p).result = (m.world.process p).result ∧
      (m'.world.process p).failure = (m.world.process p).failure := by
  induction hrest with
  | refl => exact ⟨hdone, rfl, rfl⟩
  | step hr hn ih =>
    obtain ⟨hstate, hresult, hfailure⟩ := ih
    rcases hn.lives hst (hrun.trans hr) p with ⟨-, hgoes⟩ | ⟨outcome, -, -, hrunning, -⟩
    · refine ⟨?_, hgoes.result.trans hresult, hgoes.failure.trans hfailure⟩
      rcases hgoes.state with hs | ⟨hbefore, -⟩
      · exact hs.trans hstate
      · cases hbefore.symm.trans hstate
    · cases hrunning.symm.trans hstate

end Steps

/-- **The life of a process, and its result for everyone who waits.** -/
theorem process_lifecycle {starts : World → Stack → Prop}
    (hst : ∀ w s, starts w s → s.Sound w) (p : ProcessId) : Lifecycle starts p where
  precedes {es m fs m'} hrun hn := by
    rcases hn.lives hst hrun p with ⟨-, hgoes⟩ | ⟨outcome, -, -, hrunning, hend⟩
    · exact hgoes.precedes
    · rw [hrunning, hend]
      exact .ends
  ended hrun := hrun.endedBy hst p
  body _ hn hmem := hn.of_finish hmem
  decided hrun := hrun.decided p
  released {es m} hrun hdone := by
    rw [hrun.world_eq] at hdone ⊢
    have hall := (World.Open.empty.replay (effectsOf es)).processes
    exact (Table.All.get_of_default (i := p.index) hall (fun hd => by cases hd) hdone).2
  final hrun hrest hdone := hrun.final hst hrest hdone
  serves := Catena.serves hst (.process p)

/-- One process succeeds on a later turn and is awaited twice, before and after its end; another
one fails. -/
def parenting : Program :=
  [.block () [.word "yield", .symbol "x"], .word "go", .symbol "p", .word "def",
    .word "p", .word "await", .word "p", .word "await",
    .block () [.word "drop", .word "drop", .word "drop"], .word "go", .word "await"]

/-- The parent gets the result of the first twice, and `nil` from the second. -/
theorem process_lifecycle_of_parenting :
    ∃ (w : World) (i : Interpreter), Evaluated Stack.IsFree w [i] ∧
      (i.evaluate parenting .empty w).2 = .ok ⟨[.nil, .symbol "x", .symbol "x"], none⟩ ∧
      ((i.evaluate parenting .empty w).1.process ⟨1⟩).failure =
        some (.stackUnderflow "drop" 1 0) ∧
      Lifecycle Stack.IsFree ⟨0⟩ ∧ Lifecycle Stack.IsFree ⟨1⟩ := by
  have h : Evaluated Stack.IsFree World.fresh [⟨⟨0⟩, { maxTurns := some 20 }⟩] := .fresh _
  exact ⟨_, _, h, by cbv, by cbv, process_lifecycle Stack.IsFree.sound ⟨0⟩,
    process_lifecycle Stack.IsFree.sound ⟨1⟩⟩

end Catena
