import Catena.Proofs.Machine.Points
import Catena.Proofs.Machine.Refusals

/-!
# Courses

`Does` says what may happen in a turn, and for some words it lets more happen than they do. A course
is what does happen: in a turn it takes the steps that the machine takes (`World.advance`), and
between the turns whatever may happen there. It keeps the moments before and after each step, so
that one can tell what has been done in it, and how often.

Whatever an evaluation is at, in whichever turn, a course leads there (`Evaluated.goes_point`). And
the machine can be followed from turn to turn by a function (`World.stride`), so that a course is
found by computing (`exists_course_stride`).
-/

namespace Catena

/-- What is being worked on. -/
def Control.focus : Control → Focus
  | .rest => .done
  | .run env code s k => .run env code s (some k)
  | .resume k outcome => .resume k outcome

theorem Control.focus_of_control? {f : Focus} {c : Control} (h : f.control? = some c) :
    c.focus = f := by
  cases f with
  | done => cases h; rfl
  | run env code s k =>
    cases k with
    | none => cases h
    | some k => cases h; rfl
  | resume k outcome => cases h; rfl
  | tell tag value => cases h

theorem Control.eq_of_focus {c c' : Control} (h : c.focus = c'.focus) : c = c' := by
  cases c <;> cases c' <;> cases h <;> rfl

@[simp] theorem Control.control?_focus (c : Control) : c.focus.control? = some c := by
  cases c <;> rfl

/-- A step of what happens. In a turn it is the step that the machine takes. -/
inductive Moment.Steps : Moment → List Event → Moment → Prop
  | work {w : World} {c c' : Control} {roots : List EnvId} {es : List Effect} (h : Does w c es c')
      (hexact : w.advance c.focus = (w.replay es, c'.focus)) :
      Steps ⟨w, c, roots⟩ (es.map (⟨c.thread?, ·⟩)) ⟨w.replay es, c', roots⟩
  | between {m m' : Moment} {es : List Event} (hr : m.control = .rest)
      (h : Next .sound m es m') : Steps m es m'

theorem Moment.Steps.next {m m' : Moment} {es : List Event} (h : m.Steps es m') :
    Next .sound m es m' := by
  cases h with
  | work h => exact .work h
  | between _ h => exact h

/-- A control word takes over. -/
theorem World.advance_of_control {w : World} {env : EnvId} {name : Name} {p : Primitive}
    {word : ControlWord} (hp : w.lookup env name = some (.primitive p))
    (hb : p.behaviour = .control word) (code : Code) (s : Stack) (k : Continuation) :
    w.advance (.run env (.word name :: code) s (some k)) =
      (word.starter w env s (k.push (.resume env code)), .done) := by
  simp only [World.advance, World.advanceCode, World.decode, World.resolve, hp,
    p.call_of_control hb]
  rfl

/-- A step at a control word is that the word takes over. -/
theorem Moment.Steps.eq_of_control {m m' : Moment} {es : List Event} (h : m.Steps es m')
    {env : EnvId} {name : Name} {code : Code} {s : Stack} {k : Continuation}
    (hc : m.control = .run env (.word name :: code) s k) {p : Primitive} {word : ControlWord}
    (hp : m.world.lookup env name = some (.primitive p)) (hb : p.behaviour = .control word) :
    m' = ⟨word.starter m.world env s (k.push (.resume env code)), .rest, m.roots⟩ := by
  cases h with
  | between hr => rw [hr] at hc; cases hc
  | @work w c c' roots es hd hexact =>
    subst hc
    obtain ⟨hworld, hfocus⟩ :=
      Prod.mk.inj ((World.advance_of_control hp hb code s k).symm.trans hexact)
    have hcontrol : c' = .rest := Control.eq_of_focus hfocus.symm
    rw [hcontrol, ← hworld]

/-- A step that was taken. -/
structure Transition where
  before : Moment
  events : List Event
  after : Moment

/-- A sequence of steps that leads from one moment to another. -/
inductive Course : Moment → List Transition → Moment → Prop
  | refl (m : Moment) : Course m [] m
  | step {m m' m'' : Moment} {ts : List Transition} {es : List Event} (h : Course m ts m')
      (hs : m'.Steps es m'') : Course m (ts ++ [⟨m', es, m''⟩]) m''

namespace Course

variable {m m' m'' : Moment} {ts us : List Transition}

theorem one {es : List Event} (h : m.Steps es m') : Course m [⟨m, es, m'⟩] m' := .step (.refl m) h

theorem trans (h : Course m ts m') (h' : Course m' us m'') : Course m (ts ++ us) m'' := by
  induction h' with
  | refl => rwa [List.append_nil]
  | step _ hs ih => rw [← List.append_assoc]; exact .step ih hs

/-- A course is a run. -/
theorem leads (h : Course m ts m') : Leads .sound m m' := by
  induction h with
  | refl => exact .refl _
  | step _ hs ih => exact ih.trans (.of_next hs.next)

end Course

/-- Some course leads from one moment to another. -/
def Goes (m m' : Moment) : Prop := ∃ ts, Course m ts m'

namespace Goes

variable {m m' m'' : Moment}

theorem refl (m : Moment) : Goes m m := ⟨[], .refl m⟩

theorem trans (h : Goes m m') (h' : Goes m' m'') : Goes m m'' := by
  obtain ⟨ts, h⟩ := h
  obtain ⟨us, h'⟩ := h'
  exact ⟨ts ++ us, h.trans h'⟩

theorem of_steps {es : List Event} (h : m.Steps es m') : Goes m m' := ⟨_, .one h⟩

theorem leads (h : Goes m m') : Leads .sound m m' := by
  obtain ⟨ts, h⟩ := h
  exact h.leads

/-- Something happens between the turns. -/
theorem outside {w : World} {e : Effect} (h : Policy.sound.allows e) (roots : List EnvId) :
    Goes ⟨w, .rest, roots⟩ ⟨w.apply e, .rest, roots⟩ := of_steps (.between rfl (.outside h))

end Goes

/-- Some course leads from one moment to another, and `P` holds of what goes on after every step. -/
def GoesBy (P : Control → Prop) (m m' : Moment) : Prop :=
  ∃ ts, Course m ts m' ∧ ∀ y ∈ ts, P y.after.control

namespace GoesBy

variable {P Q : Control → Prop} {m m' m'' : Moment}

theorem refl (m : Moment) : GoesBy P m m := ⟨[], .refl m, fun _ hy => (nomatch hy)⟩

theorem trans (h : GoesBy P m m') (h' : GoesBy P m' m'') : GoesBy P m m'' := by
  obtain ⟨ts, hts, hP⟩ := h
  obtain ⟨us, hus, hP'⟩ := h'
  exact ⟨ts ++ us, hts.trans hus, List.forall_mem_append.2 ⟨hP, hP'⟩⟩

theorem of_steps {es : List Event} (h : m.Steps es m') (hP : P m'.control) : GoesBy P m m' :=
  ⟨_, .one h, List.forall_mem_singleton.2 hP⟩

theorem mono (h : GoesBy P m m') (hPQ : ∀ c, P c → Q c) : GoesBy Q m m' := by
  obtain ⟨ts, hts, hP⟩ := h
  exact ⟨ts, hts, fun y hy => hPQ _ (hP y hy)⟩

theorem goes (h : GoesBy P m m') : Goes m m' := by
  obtain ⟨ts, hts, -⟩ := h
  exact ⟨ts, hts⟩

/-- Something happens between the turns. -/
theorem outside {w : World} {e : Effect} (h : Policy.sound.allows e) (roots : List EnvId) :
    GoesBy (· = .rest) ⟨w, .rest, roots⟩ ⟨w.apply e, .rest, roots⟩ :=
  of_steps (.between rfl (.outside h)) rfl

/-- What goes before a turn. -/
theorem tick (w : World) (roots : List EnvId) :
    GoesBy (· = .rest) ⟨w, .rest, roots⟩ ⟨w.tick, .rest, roots⟩ := by
  rw [World.tick_eq]
  exact (outside (Or.inl (Policy.turns_pass _ _)) roots).trans
    (outside (Or.inl (Or.inl rfl)) roots)

end GoesBy

theorem Policy.sound_sound : Policy.sound.Sound := Policy.evaluations_sound fun _ _ hs => hs

/-! ## What the machine does is a course -/

section Machine

variable {w : World} {roots : List EnvId}

/-- The next step of a turn. -/
theorem steps_advance {c : Control} (hr : c ≠ .rest) (hc : c.Sound w) (roots : List EnvId) :
    ∃ es c', Moment.Steps ⟨w, c, roots⟩ es ⟨(w.advance c.focus).1, c', roots⟩ ∧
      (w.advance c.focus).2.control? = some c' := by
  obtain ⟨es, c', hd, hw, hc'⟩ := matches_advance c.control?_focus hr hc
  have hexact : w.advance c.focus = (w.replay es, c'.focus) := by
    rw [Control.focus_of_control? hc', ← hw]
  rw [hw]
  exact ⟨_, c', .work hd hexact, hc'⟩

/-- A control word that a turn has come to takes over. -/
theorem exists_steps_of_control {m : Moment} (hm : m.Sound) {env : EnvId} {name : Name}
    {code : Code} {s : Stack} {k : Continuation} (hc : m.control = .run env (.word name :: code) s k)
    {p : Primitive} {word : ControlWord} (hp : m.world.lookup env name = some (.primitive p))
    (hb : p.behaviour = .control word) :
    ∃ es, m.Steps es
      ⟨word.starter m.world env s (k.push (.resume env code)), .rest, m.roots⟩ := by
  have hr : m.control ≠ .rest := by
    rw [hc]
    nofun
  obtain ⟨es, c', hs, -⟩ := steps_advance hr hm.control m.roots
  rw [hs.eq_of_control hc hp hb] at hs
  exact ⟨es, hs⟩

theorem goes_iterate_step {f : Focus} {c : Control} (hf : f.control? = some c)
    (hs : Moment.Sound ⟨w, c, roots⟩) (j : Nat) :
    ∃ c', (World.step^[j] (w, f)).2.control? = some c' ∧
      Goes ⟨w, c, roots⟩ ⟨(World.step^[j] (w, f)).1, c', roots⟩ := by
  induction j with
  | zero => exact ⟨c, hf, .refl _⟩
  | succ j ih =>
    rw [Function.iterate_succ_apply']
    generalize World.step^[j] (w, f) = p at ih ⊢
    obtain ⟨v, g⟩ := p
    obtain ⟨c', hc', hg⟩ := ih
    have hfocus := Control.focus_of_control? hc'
    by_cases hr : c' = .rest
    · subst hr
      subst hfocus
      exact ⟨_, rfl, hg⟩
    · obtain ⟨es, c'', hs, hc''⟩ :=
        steps_advance hr (hg.leads.sound Policy.sound_sound hs).control roots
      rw [hfocus] at hs hc''
      exact ⟨c'', hc'', hg.trans (.of_steps hs)⟩

/-- What the machine comes to without a stop. -/
theorem goes_reaches {f : Focus} {c : Control} (hf : f.control? = some c)
    (hs : Moment.Sound ⟨w, c, roots⟩) {v : World} (h : World.Reaches (w, f) (v, .done)) :
    Goes ⟨w, c, roots⟩ ⟨v, .rest, roots⟩ := by
  obtain ⟨n, hn⟩ := h
  obtain ⟨c', hc', hg⟩ := goes_iterate_step hf hs n
  rw [hn] at hc' hg
  cases hc'
  exact hg

/-- The next turn begins. -/
theorem steps_opening (h : w.Sound w) {task : Task} {rest : List Task}
    (hr : w.scheduler.ready = task :: rest) (roots : List EnvId) :
    ∃ es c, Moment.Steps ⟨w, .rest, roots⟩ es ⟨w.opening.1, c, roots⟩ ∧
      w.opening.2.control? = some c := by
  obtain ⟨es, c, hbegins, hw, hc⟩ := begins_embark (h.thread hr) (w.apply .beginTurn)
  rw [World.opening_of_cons hr, World.beginTurn_eq hr, hw]
  exact ⟨_, c, .between rfl (.turn hr hbegins), hc⟩

theorem goes_opening (h : w.Sound w) (roots : List EnvId) :
    ∃ c, w.opening.2.control? = some c ∧ Goes ⟨w, .rest, roots⟩ ⟨w.opening.1, c, roots⟩ := by
  cases hr : w.scheduler.ready with
  | nil =>
    rw [World.opening_of_nil hr]
    exact ⟨_, rfl, .refl _⟩
  | cons task rest =>
    obtain ⟨es, c, hstep, hc⟩ := steps_opening h hr roots
    exact ⟨c, hc, .of_steps hstep⟩

/-- What goes before a turn. -/
theorem goes_tick (w : World) (roots : List EnvId) :
    Goes ⟨w, .rest, roots⟩ ⟨w.tick, .rest, roots⟩ :=
  (GoesBy.tick w roots).goes

/-- The next turn, and what follows it. -/
theorem goes_proceed (h : w.Sound w) (roots : List EnvId) :
    Goes ⟨w, .rest, roots⟩ ⟨w.proceed, .rest, roots⟩ := by
  cases hr : w.scheduler.ready with
  | nil =>
    rw [World.proceed_of_nil hr]
    exact .refl _
  | cons task rest =>
    obtain ⟨c, hc, hopen⟩ := goes_opening h roots
    have hs := hopen.leads.sound Policy.sound_sound ⟨h, trivial⟩
    have hturn := goes_reaches hc hs (World.reaches_turn hr)
    have hend : Policy.sound.allows .endTurn := .inl (.inr (.inl rfl))
    rw [World.proceed_of_cons hr]
    exact ((hopen.trans hturn).trans (.outside hend roots)).trans (goes_tick _ roots)

theorem goes_iterate_proceed (h : w.Sound w) (roots : List EnvId) (n : Nat) :
    Goes ⟨w, .rest, roots⟩ ⟨World.proceed^[n] w, .rest, roots⟩ := by
  induction n with
  | zero => exact .refl _
  | succ n ih =>
    rw [Function.iterate_succ_apply']
    exact ih.trans (goes_proceed (ih.leads.sound Policy.sound_sound ⟨h, trivial⟩).world roots)

end Machine

/-! ## Following the machine -/

/-- What the machine does next: a step of the turn or, when the turn is over, what goes before the
next one, and its beginning. -/
def World.stride (p : World × Focus) : World × Focus :=
  match p.2 with
  | .done => (p.1.apply .endTurn).tick.opening
  | _ => step p

/-- At a control word, the word takes over. -/
theorem World.stride_of_control {q : World × Focus} {env : EnvId} {name : Name} {code : Code}
    {s : Stack} {k : Continuation} (hf : q.2 = .run env (.word name :: code) s (some k))
    {p : Primitive} {word : ControlWord} (hp : q.1.lookup env name = some (.primitive p))
    (hb : p.behaviour = .control word) :
    World.stride q = (word.starter q.1 env s (k.push (.resume env code)), .done) := by
  obtain ⟨w, f⟩ := q
  subst hf
  exact World.advance_of_control hp hb code s k

/-- The number of frames of a continuation that is being resumed. -/
def Focus.height? : Focus → Option Nat
  | .resume k _ => some k.frames.length
  | _ => none

section Stride

variable {P : Control → Prop} {w : World} {f : Focus} {c : Control} {roots : List EnvId}

/-- Nothing more goes on, or one step brings what goes on next. -/
theorem stride_cases (hf : f.control? = some c) (hs : Moment.Sound ⟨w, c, roots⟩) :
    ((World.stride (w, f)).2 = .done ∧
      GoesBy (· = .rest) ⟨w, c, roots⟩ ⟨(World.stride (w, f)).1, .rest, roots⟩) ∨
    ∃ m' es d, GoesBy (· = .rest) ⟨w, c, roots⟩ m' ∧ m'.control = c ∧
      (World.stride (w, f)).2.control? = some d ∧
      m'.Steps es ⟨(World.stride (w, f)).1, d, roots⟩ := by
  have hfocus := Control.focus_of_control? hf
  subst hfocus
  by_cases hr : c = .rest
  · subst hr
    have hend : Policy.sound.allows .endTurn := .inl (.inr (.inl rfl))
    have hbetween := (GoesBy.outside (w := w) hend roots).trans (.tick _ roots)
    have hsound := (hbetween.goes.leads.sound Policy.sound_sound hs).world
    unfold World.stride
    dsimp only [Control.focus]
    generalize (w.apply .endTurn).tick = u at hbetween hsound ⊢
    cases hready : u.scheduler.ready with
    | nil =>
      rw [World.opening_of_nil hready]
      exact .inl ⟨rfl, hbetween⟩
    | cons task rest =>
      obtain ⟨es, d, hstep, hd⟩ := steps_opening hsound hready roots
      exact .inr ⟨_, es, d, hbetween, rfl, hd, hstep⟩
  · obtain ⟨es, d, hstep, hd⟩ := steps_advance hr hs.control roots
    have hstride : World.stride (w, c.focus) = w.advance c.focus := by
      cases c with
      | rest => exact absurd rfl hr
      | _ => rfl
    rw [hstride]
    exact .inr ⟨_, es, d, .refl _, rfl, hd, hstep⟩

/-- What is computed step after step is a course, in which `P` holds of what goes on after every
step if it holds wherever the machine has been. -/
theorem goesBy_iterate_stride (hf : f.control? = some c) (hs : Moment.Sound ⟨w, c, roots⟩)
    (hrest : P .rest) (n : Nat)
    (hP : ∀ i < n, ∀ d, (World.stride^[i + 1] (w, f)).2.control? = some d → P d) :
    ∃ d, (World.stride^[n] (w, f)).2.control? = some d ∧
      GoesBy P ⟨w, c, roots⟩ ⟨(World.stride^[n] (w, f)).1, d, roots⟩ := by
  induction n with
  | zero => exact ⟨c, hf, .refl _⟩
  | succ n ih =>
    obtain ⟨d, hd, hg⟩ := ih fun i hi => hP i (Nat.lt_succ_of_lt hi)
    have hlast := hP n (Nat.lt_succ_self n)
    rw [Function.iterate_succ_apply'] at hlast ⊢
    generalize World.stride^[n] (w, f) = q at hd hg hlast ⊢
    have hresting : ∀ e, e = .rest → P e := fun _ he => he ▸ hrest
    rcases stride_cases hd (hg.goes.leads.sound Policy.sound_sound hs) with
      ⟨hdone, hidle⟩ | ⟨m', es, d', hwait, -, hd', hstep⟩
    · exact ⟨.rest, by rw [hdone]; rfl, hg.trans (hidle.mono hresting)⟩
    · exact ⟨d', hd', (hg.trans (hwait.mono hresting)).trans (.of_steps hstep (hlast d' hd'))⟩

/-- **A course is found by computing**: the machine is followed up to where a continuation is
resumed for the first time. As long as none of this length is resumed, it is not this one. -/
theorem exists_course_stride {k : Continuation} {outcome : Outcome} (hf : f.control? = some c)
    (hs : Moment.Sound ⟨w, c, roots⟩) (n : Nat)
    (hopen : ∀ i < n, (World.stride^[i + 1] (w, f)).2.height? ≠ some k.frames.length)
    (hlast : (World.stride^[n + 1] (w, f)).2 = .resume k outcome) :
    ∃ ts m' es, Course ⟨w, c, roots⟩ ts m' ∧ (∀ y ∈ ts, ∀ o, y.after.control ≠ .resume k o) ∧
      m'.control.focus = (World.stride^[n] (w, f)).2 ∧
      m'.Steps es ⟨(World.stride^[n + 1] (w, f)).1, .resume k outcome, roots⟩ := by
  have hne : ∀ i < n, ∀ d, (World.stride^[i + 1] (w, f)).2.control? = some d →
      ∀ o, d ≠ .resume k o := by
    rintro i hi d hd o rfl
    refine hopen i hi ?_
    rw [← Control.focus_of_control? hd]
    rfl
  obtain ⟨d, hd, hg⟩ := goesBy_iterate_stride (P := fun d => ∀ o, d ≠ .resume k o) hf hs nofun n hne
  have hfocus := Control.focus_of_control? hd
  rw [Function.iterate_succ_apply'] at hlast ⊢
  generalize World.stride^[n] (w, f) = q at hd hg hlast hfocus ⊢
  rcases stride_cases hd (hg.goes.leads.sound Policy.sound_sound hs) with
    ⟨hdone, -⟩ | ⟨m', es, d', hwait, hcontrol, hd', hstep⟩
  · cases hdone.symm.trans hlast
  · rw [show World.stride (q.1, q.2) = World.stride q from rfl, hlast] at hd'
    cases hd'
    obtain ⟨ts, hts, hnever⟩ := hg.trans (hwait.mono fun _ he => he ▸ nofun)
    exact ⟨ts, m', es, hts, hnever, hcontrol ▸ hfocus, hstep⟩

end Stride

/-! ## Evaluations -/

section Evaluations

variable {starts : World → Stack → Prop} {i : Interpreter} {stack : Stack} {w : World}
  {roots : List EnvId}

theorem goes_begun (program : Program) (hs : stack.Sound w) (hi : i.env ∈ roots) :
    Goes ⟨w, .rest, roots⟩ (.begun i program stack w roots) :=
  .of_steps (.between rfl (.evaluate i.settings.strictWords program hi hs))

theorem goes_after (program : Program) (h : w.Sound w) (hs : stack.Sound w) (hi : i.env ∈ roots)
    (n : Nat) : Goes ⟨w, .rest, roots⟩ ⟨i.after n program stack w, .rest, roots⟩ := by
  have hlaunch := goes_begun program hs hi
  have hrun := goes_reaches (f := .run i.env (w.load program).2 stack
    (some (.deliver (.slot w.slots.size)))) rfl (Moment.sound_begun i program roots h hs)
    (World.reaches_runThen _ _ _ _ _)
  have hclock : Policy.sound.allows .startClock := .inl (.inr (.inr (.inl rfl)))
  have hbegin := ((hlaunch.trans hrun).trans (.outside hclock roots)).trans (goes_tick _ roots)
  rw [Interpreter.after, World.takeTurns_fst]
  exact hbegin.trans (goes_iterate_proceed
    (hbegin.leads.sound Policy.sound_sound ⟨h, trivial⟩).world roots n)

theorem goes_evaluate (program : Program) (h : w.Sound w) (hs : stack.Sound w)
    (hi : i.env ∈ roots) (hd : w.scheduler.dispatching = false) :
    Goes ⟨w, .rest, roots⟩ ⟨(i.evaluate program stack w).1, .rest, roots⟩ := by
  have he := evaluate_ends i program h hs hd
  have hv := goes_after program h hs hi i.bound
  generalize i.after i.bound program stack w = v at he hv
  have hgive : Goes ⟨v, .rest, roots⟩
      ⟨v.apply (.abandon (w.scheduler.epoch + 1)), .rest, roots⟩ :=
    .outside (.inr (.inr ⟨_, rfl⟩)) roots
  generalize i.evaluate program stack w = result at he ⊢
  cases he with
  | delivered ho => exact hv
  | stalled ho hr ht => exact hv.trans hgive
  | cutOff bound => exact (hv.trans hgive).trans (.outside (.inr (.inl rfl)) roots)

/-- What any number of evaluations lead to, a course leads to. -/
theorem Evaluated.goes (hst : ∀ w s, starts w s → s.Sound w) {is : List Interpreter}
    (h : Evaluated starts w is) : Goes .dawn ⟨w, .rest, is.map Interpreter.env⟩ := by
  induction h with
  | nothing => exact .refl _
  | new settings h ih => exact ih.trans (.of_steps (.between rfl .install))
  | eval source h hi hs ih =>
    rename_i w is i stack
    unfold Interpreter.eval
    cases Program.read source with
    | error e => exact ih
    | ok program =>
      exact ih.trans (goes_evaluate program (h.sound hst) (hst w stack hs)
        (List.mem_map_of_mem hi) (h.leads hst).2)
  | pass elapsed lapses h ih =>
    exact ih.trans (.outside (Or.inl (Policy.turns_pass elapsed lapses)) _)

/-- **Wherever an evaluation is, it has come there by a course.** -/
theorem Evaluated.goes_point (hst : ∀ w s, starts w s → s.Sound w) {is : List Interpreter}
    (h : Evaluated starts w is) (hi : i ∈ is) (program : Program) (hs : starts w stack)
    (n j : Nat) :
    ∃ c, (i.point program stack w n j).2.control? = some c ∧
      Goes .dawn ⟨(i.point program stack w n j).1, c, is.map Interpreter.env⟩ := by
  have henv : i.env ∈ is.map Interpreter.env := List.mem_map_of_mem hi
  have hw := h.sound hst
  have hg := h.goes hst
  obtain ⟨c, hc, hopen⟩ : ∃ c, (i.opening program stack w n).2.control? = some c ∧
      Goes .dawn ⟨(i.opening program stack w n).1, c, is.map Interpreter.env⟩ := by
    cases n with
    | zero => exact ⟨_, rfl, hg.trans (goes_begun program (hst w stack hs) henv)⟩
    | succ n =>
      have hafter := hg.trans (goes_after program hw (hst w stack hs) henv n)
      obtain ⟨c, hc, hopen⟩ := goes_opening
        (hafter.leads.sound Policy.sound_sound Moment.sound_dawn).world (is.map Interpreter.env)
      exact ⟨c, hc, hafter.trans hopen⟩
  obtain ⟨c', hc', hpoint⟩ := goes_iterate_step hc
    (hopen.leads.sound Policy.sound_sound Moment.sound_dawn) j
  exact ⟨c', hc', hopen.trans hpoint⟩

/-- **An evaluation is followed** from where it has come to a control word, up to where the caller
of this word goes on. -/
theorem Evaluated.exists_course {is : List Interpreter} (h : Evaluated (fun w s => s.Sound w) w is)
    (hi : i ∈ is) {program : Program} (hstack : stack.Sound w) {a j : Nat} {q : World × Focus}
    (hq : i.point program stack w a j = q) {env : EnvId} {name : Name} {code : Code} {s : Stack}
    {k : Continuation} (hf : q.2 = .run env (.word name :: code) s (some k)) {p : Primitive}
    {word : ControlWord} (hp : q.1.lookup env name = some (.primitive p))
    (hb : p.behaviour = .control word) (n : Nat) {outcome : Outcome}
    (hopen : ∀ m < n, (World.stride^[m + 2] q).2.height? ≠ some (k.frames.length + 1))
    (hlast : (World.stride^[n + 2] q).2 = .resume (k.push (.resume env code)) outcome) :
    ∃ es fs m₁ ts m' gs,
      Run .sound .dawn es ⟨q.1, .run env (.word name :: code) s k, is.map Interpreter.env⟩ ∧
      Moment.Steps ⟨q.1, .run env (.word name :: code) s k, is.map Interpreter.env⟩ fs m₁ ∧
      Course m₁ ts m' ∧ (∀ y ∈ ts, ∀ o, y.after.control ≠ .resume (k.push (.resume env code)) o) ∧
      m'.control.focus = (World.stride^[n + 1] q).2 ∧
      m'.Steps gs ⟨(World.stride^[n + 2] q).1, .resume (k.push (.resume env code)) outcome,
        is.map Interpreter.env⟩ := by
  obtain ⟨c, hc, es, hrun⟩ := h.leads_point (fun _ _ hs => hs) hi program hstack a j
  rw [hq] at hc hrun
  obtain ⟨u, f⟩ := q
  subst hf
  cases hc
  have hs := hrun.sound Policy.sound_sound Moment.sound_dawn
  obtain ⟨fs, hcall⟩ := exists_steps_of_control hs rfl hp hb
  -- The first stride is the call.
  have hstride : ∀ m, World.stride^[m + 1] (u, .run env (.word name :: code) s (some k)) =
      World.stride^[m] (word.starter u env s (k.push (.resume env code)), .done) := fun m =>
    congrArg World.stride^[m] (World.stride_of_control rfl hp hb)
  rw [hstride (n + 1)] at hlast ⊢
  rw [hstride n]
  obtain ⟨ts, m', gs, hts, hnever, hfocus, hback⟩ := exists_course_stride (c := .rest) rfl
    ((Leads.of_next hcall.next).sound Policy.sound_sound hs) n
    (fun m hm => hstride (m + 1) ▸ hopen m hm) hlast
  exact ⟨es, fs, _, ts, m', gs, hrun, hcall, hts, hnever, hfocus, hback⟩

end Evaluations

end Catena
