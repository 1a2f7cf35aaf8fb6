import Catena.Proofs.Machine.Resolution

/-!
# Where an evaluation is

Steps say what the machine does (`World.advance`), moments say what may happen (`Does`). Here the
two meet: wherever an evaluation is in whichever turn (`Interpreter.point`), it has come there by a
run, and what it is working on is the control of that moment (`Evaluated.leads_point`). So what is
known of every moment of every run is known of every point.
-/

namespace Catena

/-- What goes on inside a turn, as a moment has it; nobody waits for a detached run, and only the
embedding program is told a value. -/
def Focus.control? : Focus → Option Control
  | .done => some .rest
  | .run env code s (some k) => some (.run env code s k)
  | .resume k outcome => some (.resume k outcome)
  | .run _ _ _ none | .tell _ _ => none

/-! ## Steps -/

theorem Works.one {w : World} {c c' : Control} {es : List Effect} (h : Does w c es c') :
    Works w c (w.replay es) c' := .step h (.refl _ _)

/-- A step of the machine is one of those that may happen: it leads to `result`. -/
def World.Matches (w : World) (c : Control) (result : World × Focus) : Prop :=
  ∃ es c', Does w c es c' ∧ result.1 = w.replay es ∧ result.2.control? = some c'

section Steps

variable {w : World}

/-- A step that looks at an item of code. -/
theorem matches_advanceCode (w : World) (env : EnvId) (d : Datum BlockId) (rest : Code) (s : Stack)
    (k : Continuation) :
    w.Matches (.run env (d :: rest) s k) (w.advanceCode env d rest s (some k)) := by
  unfold World.advanceCode World.decode
  cases d with
  | word name =>
    dsimp only [World.resolve]
    cases hv : w.lookup env name with
    | none =>
      dsimp only
      cases hs : w.strict with
      | true => exact ⟨_, _, .unresolved hv, rfl, rfl⟩
      | false => exact ⟨_, _, .unbound hv _, rfl, rfl⟩
    | some v =>
      cases v with
      | primitive p =>
        dsimp only
        cases hc : p.call with
        | sync action =>
          obtain ⟨es, hes, hw⟩ := call_sync hc env s w
          dsimp only
          generalize (action env s).run w = result at hes hw ⊢
          obtain ⟨outcome, w'⟩ := result
          dsimp only at hes hw
          subst hw
          cases outcome with
          | ok t => exact ⟨_, _, .call hv hes, rfl, rfl⟩
          | error e =>
            refine ⟨_, _, .fail hv hes, ?_, rfl⟩
            rw [World.replay_append]
            rfl
        | async start =>
          obtain ⟨es, hes, hw⟩ := call_async (.bound hv) hc s (k.push (.resume env rest))
          exact ⟨_, _, .takeOver hv hes, hw, rfl⟩
      | _ => exact ⟨_, _, .value hv, rfl, rfl⟩
  | block id body => exact ⟨_, _, .block, rfl, rfl⟩
  | _ => exact ⟨_, _, .literal rfl, rfl, rfl⟩

/-- A step that looks at a frame. -/
theorem matches_advanceFrame (w : World) (frame : Frame) (frames : List Frame) (sink : Sink)
    (outcome : Outcome) :
    w.Matches (.resume ⟨frame :: frames, sink⟩ outcome)
      (w.advanceFrame ⟨frames, sink⟩ outcome frame) := by
  cases frame with
  | resume env code =>
    cases outcome with
    | ok s => exact ⟨_, _, .goOn, rfl, rfl⟩
    | error e => exact ⟨_, _, .skip, rfl, rfl⟩
  | exit kind guard =>
    cases kind with
    | leave => exact ⟨_, _, .leave, rfl, rfl⟩
    | harvest =>
      cases outcome with
      | ok s => exact ⟨_, _, .harvest, rfl, rfl⟩
      | error e => exact ⟨_, _, .leave, rfl, rfl⟩
  | again env block remaining =>
    cases outcome with
    | ok s =>
      cases remaining with
      | zero => exact ⟨_, _, .enough, rfl, rfl⟩
      | succ n => exact ⟨_, _, .again, rfl, rfl⟩
    | error e => exact ⟨_, _, .giveUp, rfl, rfl⟩

/-- **A step of the machine may happen**, if it is on behalf of a thread. -/
theorem matches_advance {f : Focus} {c : Control} (hf : f.control? = some c) (hr : c ≠ .rest)
    (hc : c.Sound w) : w.Matches c (w.advance f) := by
  cases f with
  | done =>
    cases hf
    exact absurd rfl hr
  | run env code s k =>
    cases k with
    | none => cases hf
    | some k =>
      cases hf
      cases code with
      | nil => exact ⟨_, _, .finish, rfl, rfl⟩
      | cons d rest => exact matches_advanceCode w env d rest s k
  | resume k outcome =>
    cases hf
    obtain ⟨frames, sink⟩ := k
    cases frames with
    | cons frame frames => exact matches_advanceFrame w frame frames sink outcome
    | nil =>
      obtain ⟨⟨t, ht, -⟩, -⟩ := hc
      cases sink with
      | slot index => exact ⟨_, _, .fillSlot, rfl, rfl⟩
      | finish p => exact ⟨_, _, .finishProcess, rfl, rfl⟩
      | report tag => cases ht
      | detached env code => cases ht
  | tell tag value => cases hf

/-- **A step of the machine is a step of a run**, if it is on behalf of a thread. -/
theorem works_advance {f : Focus} {c : Control} (hf : f.control? = some c) (hc : c.Sound w) :
    ∃ c', (w.advance f).2.control? = some c' ∧ Works w c (w.advance f).1 c' := by
  by_cases hr : c = .rest
  · subst hr
    cases f with
    | done => exact ⟨_, rfl, .refl _ _⟩
    | run env code s k => cases k <;> cases hf
    | resume k outcome => cases hf
    | tell tag value => cases hf
  · obtain ⟨es, c', hd, hw, hc'⟩ := matches_advance hf hr hc
    exact ⟨c', hc', hw ▸ .one hd⟩

/-- The machine begins a turn as a run does. -/
theorem begins_embark {task : Task} (ht : task.thread?.isSome) (w : World) :
    ∃ es c, Begins w task es c ∧ (w.embark task).1 = w.replay es ∧
      (w.embark task).2.control? = some c := by
  cases task with
  | resume k outcome => exact ⟨_, _, .resume, rfl, rfl⟩
  | activate captured own block exit s k => exact ⟨_, _, .activate, rfl, rfl⟩
  | start p code s =>
    refine ⟨_, _, .start, rfl, ?_⟩
    simp only [World.embark, World.env_process_markRunning]
    rfl
  | wakeReceiver m waker =>
    cases waker with
    | report tag => cases ht
    | resume epoch s k =>
      simp only [World.embark]
      cases ho : (w.offer m epoch (.resume epoch s k)).2 with
      | none => exact ⟨_, _, .refuse ho, rfl, rfl⟩
      | some message => exact ⟨_, _, .receive ho, rfl, rfl⟩
  | wakeWaiter waker value =>
    cases waker with
    | report tag => cases ht
    | resume epoch s k =>
      simp only [World.embark]
      cases ha : w.isAbandoned epoch with
      | true => exact ⟨_, _, .pass ha, rfl, rfl⟩
      | false => exact ⟨_, _, .wake ha, rfl, rfl⟩
  | script commands => cases ht

end Steps

/-! ## Points -/

section Points

variable {policy : Policy}

/-- So many steps of the machine are part of a run. -/
theorem leads_iterate_step (hp : policy.Sound) {w : World} {f : Focus} {c : Control}
    (hf : f.control? = some c) {roots : List EnvId} (hs : Moment.Sound ⟨w, c, roots⟩) (j : Nat) :
    ∃ c', (World.step^[j] (w, f)).2.control? = some c' ∧
      Leads policy ⟨w, c, roots⟩ ⟨(World.step^[j] (w, f)).1, c', roots⟩ := by
  induction j with
  | zero => exact ⟨c, hf, .refl _⟩
  | succ j ih =>
    obtain ⟨c', hc', hl⟩ := ih
    obtain ⟨c'', hc'', hw⟩ := works_advance hc' (hl.sound hp hs).control
    rw [Function.iterate_succ_apply']
    exact ⟨c'', hc'', hl.trans (.of_works hw roots)⟩

theorem World.beginTurn_eq {w : World} {task : Task} {rest : List Task}
    (hr : w.scheduler.ready = task :: rest) :
    w.mapScheduler (·.beginTurn rest) = w.apply .beginTurn := by
  show _ = w.mapScheduler fun s => s.beginTurn s.ready.tail
  simp only [World.mapScheduler, hr, List.tail_cons]

/-- The next turn begins as in a run. -/
theorem leads_opening {w : World} (h : w.Sound w) (roots : List EnvId) :
    ∃ c, w.opening.2.control? = some c ∧ Leads policy ⟨w, .rest, roots⟩ ⟨w.opening.1, c, roots⟩ := by
  cases hr : w.scheduler.ready with
  | nil =>
    rw [World.opening_of_nil hr]
    exact ⟨_, rfl, .refl _⟩
  | cons task rest =>
    rw [World.opening_of_cons hr, World.beginTurn_eq hr]
    obtain ⟨es, c, hbegins, hw, hc⟩ := begins_embark (h.thread hr) (w.apply .beginTurn)
    rw [hw]
    exact ⟨c, hc, .of_next (.turn hr hbegins)⟩

end Points

section Evaluated

variable {starts : World → Stack → Prop} {w : World} {is : List Interpreter} {i : Interpreter}
  {stack : Stack}

/-- **Wherever an evaluation is, it has come there by a run.** -/
theorem Evaluated.leads_point (hst : ∀ w s, starts w s → s.Sound w) (h : Evaluated starts w is)
    (hi : i ∈ is) (program : Program) (hs : starts w stack) (n j : Nat) :
    ∃ c, (i.point program stack w n j).2.control? = some c ∧
      Leads (.evaluations starts) .dawn
        ⟨(i.point program stack w n j).1, c, is.map Interpreter.env⟩ := by
  have henv : i.env ∈ is.map Interpreter.env := List.mem_map_of_mem hi
  have hp := Policy.evaluations_sound hst
  have hw := h.sound hst
  have hl := (h.leads hst).1
  obtain ⟨c, hc, hopen⟩ : ∃ c, (i.opening program stack w n).2.control? = some c ∧
      Leads (.evaluations starts) .dawn
        ⟨(i.opening program stack w n).1, c, is.map Interpreter.env⟩ := by
    cases n with
    | zero =>
      exact ⟨_, rfl, hl.trans (.of_next (.evaluate i.settings.strictWords program henv hs))⟩
    | succ n =>
      have hafter := hl.trans (leads_during program hw (hst w stack hs) hs henv n)
      obtain ⟨c, hc, hopen⟩ := leads_opening (hafter.sound hp Moment.sound_dawn).world
        (is.map Interpreter.env)
      exact ⟨c, hc, hafter.trans hopen⟩
  obtain ⟨c', hc', hpoint⟩ := leads_iterate_step hp hc (hopen.sound hp Moment.sound_dawn) j
  exact ⟨c', hc', hopen.trans hpoint⟩

end Evaluated

end Catena
