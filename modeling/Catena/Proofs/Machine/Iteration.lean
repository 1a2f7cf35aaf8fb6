import Catena.Proofs.Machine.Bodies
import Catena.Proofs.Machine.Snapshots
import Catena.Proofs.Number.Wholes

/-!
# Running a block several times

The word `times` runs a block as often as a number says, each time on the stack that the time before
has left. Between two runs there may be any number of turns, and so there may be within a run, in
which others work. A course is searched for the runs that begin and end in it (`Loop.Rounds`), and
at each moment the loop is at one of four stages (`Loop.Stage`): a run waits for its turn, or goes
on, or has just ended, or there is no more to run. A step leads from one stage to the next
(`Loop.Stage.step`). So the number of runs, and what each begins with, is the same however they are
interrupted (`iterates`).
-/

namespace Catena

/-- A block that is run several times: the environment it is run from, the snapshot that it has, and
what comes after the last run. -/
structure Loop where
  env : EnvId
  block : Block
  snapshot? : Option (Bindings Value)
  k : Continuation

/-- One run of the block: the stack it begins with, and its outcome once it has ended. -/
structure Round where
  stack : Stack
  outcome? : Option Outcome

/-- All runs have succeeded, each on the stack that the one before has left. -/
inductive Succeeds (s : Stack) : List Round → Stack → Prop
  | nil : Succeeds s [] s
  | snoc {rounds : List Round} {u v : Stack} (h : Succeeds s rounds u) :
      Succeeds s (rounds ++ [⟨u, some (.ok v)⟩]) v

/-- What comes of running a block `n` times: the stack that the last run has left, or the failure of
the first run that has failed, after which there is no other. -/
inductive Result (n : Nat) (s : Stack) : List Round → Outcome → Prop
  | done {rounds : List Round} {u : Stack} (h : Succeeds s rounds u) (hn : rounds.length = n) :
      Result n s rounds (.ok u)
  | failed {rounds : List Round} {u : Stack} {e : Error} (h : Succeeds s rounds u)
      (hn : rounds.length < n) : Result n s (rounds ++ [⟨u, some (.error e)⟩]) (.error e)

/-- The code of the body has begun with a stack. -/
def Body.Starts (b : Body) (ts : List Transition) (s : Stack) : Prop :=
  ∃ x ∈ ts, x.after.control = .run b.guard.env b.code s b.base

namespace Loop

variable (l : Loop)

/-- What comes after a run when so many more are to follow. -/
def next (remaining : Nat) : Continuation := l.k.push (.again l.env l.block remaining)

/-- A run that waits for its turn. -/
def task (captured : Bindings Value) (s : Stack) (remaining : Nat) : Task :=
  .activate captured none l.block .leave s (l.next remaining)

/-- A run that goes on. -/
def body (guard : Guard) (remaining : Nat) : Body := ⟨guard, l.block.code, .leave, l.next remaining⟩

/-- A run begins. -/
def Begins (s : Stack) (x : Transition) : Prop :=
  ∃ captured remaining, Moment.Turns (l.task captured s remaining) x.before x.events x.after

/-- A run ends. -/
def Ends (outcome : Outcome) (x : Transition) : Prop :=
  ∃ remaining, x.after.control = .resume (l.next remaining) outcome

/-- The runs that begin and end in the course of some steps. -/
inductive Rounds : List Transition → List Round → Prop
  | nil : Rounds [] []
  | begins {ts : List Transition} {rounds : List Round} {s : Stack} {x : Transition}
      (h : Rounds ts rounds) (hx : l.Begins s x) : Rounds (ts ++ [x]) (rounds ++ [⟨s, none⟩])
  | ends {ts : List Transition} {rounds : List Round} {s : Stack} {outcome : Outcome}
      {x : Transition} (h : Rounds ts (rounds ++ [⟨s, none⟩])) (hx : l.Ends outcome x) :
      Rounds (ts ++ [x]) (rounds ++ [⟨s, some outcome⟩])
  | other {ts : List Transition} {rounds : List Round} {x : Transition} (h : Rounds ts rounds)
      (hb : ∀ s, ¬ l.Begins s x) (he : ∀ outcome, ¬ l.Ends outcome x) : Rounds (ts ++ [x]) rounds

/-- How far a thread has come that runs the block `n` times, beginning with `s`. -/
inductive Stage (t : Thread) (n : Nat) (s : Stack) (ts : List Transition) (m : Moment) :
    List Round → Prop
  /-- The next run waits for its turn. -/
  | waits {rounds : List Round} {u : Stack} {remaining : Nat} {captured : Bindings Value}
      (h : Succeeds s rounds u) (hn : rounds.length + remaining + 1 = n)
      (hc : ∀ b, l.snapshot? = some b → captured = b)
      (hq : m.Queued t (l.task captured u remaining) ts) : Stage t n s ts m rounds
  /-- A run goes on. -/
  | runs {rounds : List Round} {u : Stack} {remaining : Nat} {guard : Guard}
      (h : Succeeds s rounds u) (hn : rounds.length + remaining + 1 = n)
      (hb : (l.body guard remaining).Starts ts u) (hi : (l.body guard remaining).Inside t ts m) :
      Stage t n s ts m (rounds ++ [⟨u, none⟩])
  /-- A run has just ended. -/
  | ended {rounds : List Round} {u : Stack} {remaining : Nat} {guard : Guard} {outcome : Outcome}
      (h : Succeeds s rounds u) (hn : rounds.length + remaining + 1 = n)
      (hb : (l.body guard remaining).Starts ts u)
      (ho : ∀ v, outcome = .ok v → (l.body guard remaining).Ends ts v)
      (hc : m.control = .resume (l.next remaining) outcome) :
      Stage t n s ts m (rounds ++ [⟨u, some outcome⟩])
  /-- There is no more to run, and what has been left is on its way. -/
  | finished {rounds : List Round} {u : Stack} (h : Succeeds s rounds u) (hn : rounds.length = n)
      (hq : m.Queued t (.resume l.k (.ok u)) ts) : Stage t n s ts m rounds

end Loop

/-! ## From one stage to the next -/

namespace Loop

variable {l : Loop} {t : Thread} {n : Nat} {s : Stack} {ts : List Transition} {m m' : Moment}
  {es : List Event} {rounds : List Round}

theorem length_next (l : Loop) (remaining : Nat) :
    (l.next remaining).frames.length = l.k.frames.length + 1 := rfl

theorem not_begins_of_passes (ht : l.k.thread? = some t) (hp : m.Passes t es) (s : Stack) :
    ¬ l.Begins s ⟨m, es, m'⟩ := by
  rintro ⟨captured, remaining, hturn⟩
  exact hp.events _ hturn.mem_events ht

theorem not_begins_of_control (hc : m.control ≠ .rest) (s : Stack) : ¬ l.Begins s ⟨m, es, m'⟩ := by
  rintro ⟨captured, remaining, hturn⟩
  exact hc hturn.control

theorem not_ends_of_thread (ht : l.k.thread? = some t) (hc : m'.control.thread? ≠ some t)
    (outcome : Outcome) : ¬ l.Ends outcome ⟨m, es, m'⟩ := by
  rintro ⟨remaining, hend⟩
  rw [show m'.control = _ from hend] at hc
  exact hc ht

/-- The block is run again, or it has been run often enough. -/
theorem Stage.repeats {w : World} {u : Stack} {remaining : Nat} (h : Succeeds s rounds u)
    (hn : rounds.length + remaining = n) (hheld : w.held t = 0) (ht : t.Exists w)
    (hsnap : ∀ b, l.snapshot? = some b → w.captured? l.block.id = some b) (roots : List EnvId) :
    l.Stage t n s ts ⟨w.repeatBlock l.env l.block remaining u l.k, .rest, roots⟩ rounds := by
  cases remaining with
  | zero =>
    have hq : Moment.Queued t (.resume l.k (.ok u)) ts
        ⟨(w.replay []).later (.resume l.k (.ok u)), .rest, roots⟩ :=
      .of_later hheld ht (fun _ he => by cases he) roots ts
    exact .finished h hn hq
  | succ remaining =>
    have hq : Moment.Queued t (l.task (w.instantiate l.env l.block).2 u remaining) ts
        ⟨w.activate l.env l.block none .leave u (l.next remaining), .rest, roots⟩ :=
      .of_activate hheld ht l.env l.block none .leave u (l.next remaining) roots ts
    refine .waits h hn (fun b hb => ?_) hq
    rw [World.instantiate, hsnap b hb]

/-- An outcome that is on its way arrives, or nothing happens to it. -/
theorem step_queued {outcome : Outcome} (hq : m.Queued t (.resume l.k outcome) ts)
    (hr : l.Rounds ts rounds) (ht : l.k.thread? = some t) (hs : m.Steps es m')
    (hm : Leads .sound .dawn m) :
    l.Rounds (ts ++ [⟨m, es, m'⟩]) rounds ∧
        m'.Queued t (.resume l.k outcome) (ts ++ [⟨m, es, m'⟩]) ∨
      m'.control = .resume l.k outcome := by
  rcases hq.step ht hs hm with ⟨hq, hp, hc⟩ | ⟨hturn, -⟩
  · exact .inl ⟨.other hr (not_begins_of_passes ht hp) (not_ends_of_thread ht hc), hq⟩
  · cases hturn with
    | begins hready hb =>
      cases hb
      exact .inr rfl

/-- A run that waits begins, or nothing happens to it. -/
theorem step_waits {u : Stack} {remaining : Nat} {captured : Bindings Value}
    (h : Succeeds s rounds u) (hn : rounds.length + remaining + 1 = n)
    (hc : ∀ b, l.snapshot? = some b → captured = b)
    (hq : m.Queued t (l.task captured u remaining) ts) (hr : l.Rounds ts rounds)
    (ht : l.k.thread? = some t) (hs : m.Steps es m') (hm : Leads .sound .dawn m) :
    ∃ rounds', l.Rounds (ts ++ [⟨m, es, m'⟩]) rounds' ∧
      l.Stage t n s (ts ++ [⟨m, es, m'⟩]) m' rounds' := by
  rcases hq.step ht hs hm with ⟨hq, hp, hc'⟩ | ⟨hturn, hheld⟩
  · exact ⟨rounds, .other hr (not_begins_of_passes ht hp) (not_ends_of_thread ht hc'),
      .waits h hn hc hq⟩
  · obtain ⟨hinside, hcontrol⟩ := Body.Inside.begins hturn hq.keeps.present hheld
      (ts ++ [⟨m, es, m'⟩])
    have hstarts : (l.body ⟨⟨m.world.forest.handles.size⟩, ⟨m.world.forest.scopes.size⟩⟩
        remaining).Starts (ts ++ [⟨m, es, m'⟩]) u :=
      ⟨_, List.mem_append_right _ (List.mem_singleton.2 rfl), hcontrol⟩
    exact ⟨_, .begins hr ⟨captured, remaining, hturn⟩, .runs h hn hstarts hinside⟩

/-- A run goes on or ends. -/
theorem step_runs {u : Stack} {remaining : Nat} {guard : Guard} (h : Succeeds s rounds u)
    (hn : rounds.length + remaining + 1 = n) (hb : (l.body guard remaining).Starts ts u)
    (hi : (l.body guard remaining).Inside t ts m) (hr : l.Rounds ts (rounds ++ [⟨u, none⟩]))
    (ht : l.k.thread? = some t) (hs : m.Steps es m') (hm : Leads .sound .dawn m) :
    ∃ rounds', l.Rounds (ts ++ [⟨m, es, m'⟩]) rounds' ∧
      l.Stage t n s (ts ++ [⟨m, es, m'⟩]) m' rounds' := by
  obtain ⟨y, hy, hstart⟩ := hb
  have hb : (l.body guard remaining).Starts (ts ++ [⟨m, es, m'⟩]) u :=
    ⟨y, List.mem_append_left _ hy, hstart⟩
  rcases hi.step hs hm with hi' | ⟨outcome, -, hended, -, hcontrol⟩
  · refine ⟨_, .other hr ?_ ?_, .runs h hn hb hi'⟩
    · rintro v ⟨captured, r, hturn⟩
      exact hi.not_turns (k := l.next r) ht le_rfl hturn
    · rintro outcome ⟨r, hend⟩
      exact hi'.ne_resume (k := l.next r) ht le_rfl outcome hend
  · exact ⟨_, .ends hr ⟨remaining, hcontrol⟩,
      .ended h hn hb (fun v hv => (hended v hv).snoc _) hcontrol⟩

/-- A failure goes on at once. -/
theorem control_of_error {remaining : Nat} {e : Error} (hs : m.Steps es m')
    (hc : m.control = .resume (l.next remaining) (.error e)) :
    m'.control = .resume l.k (.error e) := by
  cases hs with
  | between hr => rw [hr] at hc; cases hc
  | @work w c c' roots es hd hexact =>
    subst hc
    have hadvance : w.advance (.resume (l.next remaining) (.error e)) =
        (w, .resume l.k (.error e)) := rfl
    obtain ⟨-, hfocus⟩ := Prod.mk.inj (hadvance.symm.trans hexact)
    exact @Control.eq_of_focus _ (.resume _ _) hfocus.symm

/-- After a run that has succeeded the block is run again, as often as remains. -/
theorem eq_of_ok {remaining : Nat} {v : Stack} (hs : m.Steps es m')
    (hc : m.control = .resume (l.next remaining) (.ok v)) :
    m' = ⟨m.world.repeatBlock l.env l.block remaining v l.k, .rest, m.roots⟩ := by
  cases hs with
  | between hr => rw [hr] at hc; cases hc
  | @work w c c' roots es hd hexact =>
    subst hc
    have hadvance : w.advance (.resume (l.next remaining) (.ok v)) =
        (w.repeatBlock l.env l.block remaining v l.k, .done) := rfl
    obtain ⟨hworld, hfocus⟩ := Prod.mk.inj (hadvance.symm.trans hexact)
    have hcontrol : c' = .rest := Control.eq_of_focus hfocus.symm
    rw [hcontrol, ← hworld]

/-- After a run comes the next, unless it has failed or was the last. -/
theorem step_ended {u : Stack} {remaining : Nat} {outcome : Outcome} (h : Succeeds s rounds u)
    (hn : rounds.length + remaining + 1 = n) (hc : m.control = .resume (l.next remaining) outcome)
    (hr : l.Rounds ts (rounds ++ [⟨u, some outcome⟩])) (ht : l.k.thread? = some t)
    (hs : m.Steps es m') (hm : Leads .sound .dawn m)
    (hsnap : ∀ b, l.snapshot? = some b → m.world.captured? l.block.id = some b) :
    (l.Rounds (ts ++ [⟨m, es, m'⟩]) (rounds ++ [⟨u, some outcome⟩]) ∧
        l.Stage t n s (ts ++ [⟨m, es, m'⟩]) m' (rounds ++ [⟨u, some outcome⟩])) ∨
      ∃ e, outcome = .error e ∧ m'.control = .resume l.k (.error e) := by
  cases outcome with
  | error e => exact .inr ⟨e, rfl, control_of_error hs hc⟩
  | ok v =>
    obtain ⟨fs, hrun⟩ := hm
    have hthread : m.control.thread? = some t := by
      rw [hc]
      exact ht
    have hexists :=
      (hrun.sound Policy.sound_sound Moment.sound_dawn).control.exists_of_thread? hthread
    have hheld := (hrun.balanced fun _ _ hs => hs).held_eq_zero hthread
    have hrest : m.control ≠ .rest := by
      rw [hc]
      nofun
    have hcount : (rounds ++ [Round.mk u (some (.ok v))]).length + remaining = n := by
      rw [List.length_append, List.length_singleton]
      omega
    obtain rfl := eq_of_ok hs hc
    exact .inl ⟨.other hr (not_begins_of_control hrest) (not_ends_of_thread ht nofun),
      .repeats h.snoc hcount hheld hexists hsnap m.roots⟩

/-- **A step leads from a stage to the next**, or to the result. -/
theorem Stage.step (h : l.Stage t n s ts m rounds) (hr : l.Rounds ts rounds)
    (ht : l.k.thread? = some t) (hs : m.Steps es m') (hm : Leads .sound .dawn m)
    (hsnap : ∀ b, l.snapshot? = some b → m.world.captured? l.block.id = some b) :
    (∃ rounds', l.Rounds (ts ++ [⟨m, es, m'⟩]) rounds' ∧
        l.Stage t n s (ts ++ [⟨m, es, m'⟩]) m' rounds') ∨
      ∃ outcome, m'.control = .resume l.k outcome ∧ Result n s rounds outcome := by
  cases h with
  | waits h hn hc hq => exact .inl (step_waits h hn hc hq hr ht hs hm)
  | runs h hn hb hi => exact .inl (step_runs h hn hb hi hr ht hs hm)
  | ended h hn hb ho hc =>
    rcases step_ended h hn hc hr ht hs hm hsnap with hstay | ⟨e, rfl, hcontrol⟩
    · exact .inl ⟨_, hstay⟩
    · exact .inr ⟨_, hcontrol, .failed h (by omega)⟩
  | finished h hn hq =>
    rcases step_queued hq hr ht hs hm with ⟨hr, hq⟩ | hcontrol
    · exact .inl ⟨_, hr, .finished h hn hq⟩
    · exact .inr ⟨_, hcontrol, .done h hn⟩

/-- Before the result there is none. -/
theorem Stage.ne_resume (h : l.Stage t n s ts m rounds) (ht : l.k.thread? = some t)
    (outcome : Outcome) : m.control ≠ .resume l.k outcome := by
  have queued : ∀ {task : Task}, m.Queued t task ts → m.control ≠ .resume l.k outcome := by
    intro task hq hc
    exact hq.keeps.control (by rw [hc]; exact ht)
  cases h with
  | waits _ _ _ hq => exact queued hq
  | finished _ _ hq => exact queued hq
  | runs _ _ _ hi => exact hi.ne_resume ht (Nat.le_succ _) outcome
  | ended _ _ _ _ hc =>
    rw [hc]
    intro heq
    injection heq with hk
    exact absurd (congrArg (List.length ∘ Continuation.frames) hk) (by simp [length_next])

/-- After a run of which it is known how many are to follow, it is known how many have been. -/
theorem Stage.of_ended (h : l.Stage t n s ts m rounds) (ht : l.k.thread? = some t)
    {remaining : Nat} {outcome : Outcome} (hc : m.control = .resume (l.next remaining) outcome) :
    rounds.length + remaining = n := by
  have hthread : m.control.thread? = some t := by
    rw [hc]
    exact ht
  cases h with
  | waits _ _ _ hq => exact absurd hthread hq.keeps.control
  | finished _ _ hq => exact absurd hthread hq.keeps.control
  | runs _ _ _ hi => exact absurd hc (hi.ne_resume (k := l.next remaining) ht le_rfl outcome)
  | ended _ hn _ _ hc' =>
    have hsame := hc.symm.trans hc'
    simp only [next, Continuation.push, Control.resume.injEq, Continuation.mk.injEq,
      List.cons.injEq, Frame.again.injEq] at hsame
    rw [List.length_append, List.length_singleton]
    omega

/-- **The caller goes on with the result**, and then nothing is left of the loop. -/
theorem Stage.result (h : l.Stage t n s ts m rounds) (hr : l.Rounds ts rounds)
    (ht : l.k.thread? = some t) (hs : m.Steps es m') (hm : Leads .sound .dawn m)
    (hsnap : ∀ b, l.snapshot? = some b → m.world.captured? l.block.id = some b)
    {outcome : Outcome} (hc : m'.control = .resume l.k outcome) :
    Result n s rounds outcome ∧ m'.world.held t = 0 := by
  have hthread : m'.control.thread? = some t := by
    rw [hc]
    exact ht
  obtain ⟨fs, hrun⟩ := hm.trans (.of_next hs.next)
  refine ⟨?_, (hrun.balanced fun _ _ hs => hs).held_eq_zero hthread⟩
  rcases h.step hr ht hs hm hsnap with ⟨rounds', -, hstage⟩ | ⟨o, hcontrol, hresult⟩
  · exact absurd hc (hstage.ne_resume ht outcome)
  · cases hc.symm.trans hcontrol
    exact hresult

/-- **In whatever course, the loop is at one of its stages** until there is a result. -/
theorem Stage.course {m₁ : Moment} (h : l.Stage t n s [] m₁ []) (ht : l.k.thread? = some t)
    (hm : Leads .sound .dawn m₁)
    (hsnap : ∀ b, l.snapshot? = some b → m₁.world.captured? l.block.id = some b)
    (hts : Course m₁ ts m) (hopen : ∀ y ∈ ts, ∀ o, y.after.control ≠ .resume l.k o) :
    ∃ rounds, l.Rounds ts rounds ∧ l.Stage t n s ts m rounds := by
  induction hts with
  | refl => exact ⟨[], .nil, h⟩
  | @step m m' ts es hts hs ih =>
    obtain ⟨rounds, hr, hstage⟩ := ih fun y hy => hopen y (List.mem_append_left _ hy)
    obtain ⟨fs, hrun⟩ := hts.leads
    have hsnap' : ∀ b, l.snapshot? = some b → m.world.captured? l.block.id = some b :=
      fun b hb => hrun.remembers.taken _ b (hsnap b hb)
    rcases hstage.step hr ht hs (hm.trans hts.leads) hsnap' with hnext | ⟨outcome, hcontrol, -⟩
    · exact hnext
    · exact absurd hcontrol (hopen _ (List.mem_append_right _ (List.mem_singleton.2 rfl)) outcome)

/-- An outcome that is on its way is so in whatever course, until it arrives. -/
theorem queued_course {m₁ : Moment} {outcome : Outcome}
    (h : m₁.Queued t (.resume l.k outcome) []) (ht : l.k.thread? = some t)
    (hm : Leads .sound .dawn m₁) (hts : Course m₁ ts m)
    (hopen : ∀ y ∈ ts, ∀ o, y.after.control ≠ .resume l.k o) :
    l.Rounds ts [] ∧ m.Queued t (.resume l.k outcome) ts := by
  induction hts with
  | refl => exact ⟨.nil, h⟩
  | @step m m' ts es hts hs ih =>
    obtain ⟨hr, hq⟩ := ih fun y hy => hopen y (List.mem_append_left _ hy)
    rcases step_queued hq hr ht hs (hm.trans hts.leads) with hnext | hcontrol
    · exact hnext
    · exact absurd hcontrol (hopen _ (List.mem_append_right _ (List.mem_singleton.2 rfl)) outcome)

/-- Running the block `n` times, in whatever course. -/
theorem course_repeats {m₁ : Moment} (hm : Leads .sound .dawn m) (ht : l.k.thread? = some t)
    (hheld : m.world.held t = 0) (hexists : t.Exists m.world)
    (hsnap : ∀ b, l.snapshot? = some b → m.world.captured? l.block.id = some b)
    (hm₁ : Leads .sound m m₁)
    (hworld : m₁ = ⟨m.world.repeatBlock l.env l.block n s l.k, .rest, m.roots⟩)
    (hts : Course m₁ ts m') (hopen : ∀ y ∈ ts, ∀ o, y.after.control ≠ .resume l.k o) :
    ∃ rounds, l.Rounds ts rounds ∧ l.Stage t n s ts m' rounds ∧
      ∀ gs m'' o, m'.Steps gs m'' → m''.control = .resume l.k o →
        Result n s rounds o ∧ m''.world.held t = 0 := by
  have hkept : ∀ v, Leads .sound m v →
      ∀ b, l.snapshot? = some b → v.world.captured? l.block.id = some b :=
    fun v ⟨gs, hv⟩ b hb => hv.remembers.taken _ b (hsnap b hb)
  have hstart : l.Stage t n s [] m₁ [] :=
    hworld ▸ .repeats .nil (Nat.zero_add n) hheld hexists hsnap m.roots
  obtain ⟨rounds, hr, hstage⟩ := hstart.course ht (hm.trans hm₁) (hkept m₁ hm₁) hts hopen
  have hm' := hm₁.trans hts.leads
  exact ⟨rounds, hr, hstage,
    fun gs m'' o hs hc => hstage.result hr ht hs (hm.trans hm') (hkept m' hm') hc⟩

/-- An outcome that is on its way, in whatever course. -/
theorem course_delivers {m₁ : Moment} {outcome : Outcome} (hm : Leads .sound .dawn m)
    (ht : l.k.thread? = some t) (hheld : m.world.held t = 0) (hexists : t.Exists m.world)
    (hm₁ : Leads .sound m m₁)
    (hworld : m₁ = ⟨m.world.later (.resume l.k outcome), .rest, m.roots⟩)
    (hts : Course m₁ ts m') (hopen : ∀ y ∈ ts, ∀ o, y.after.control ≠ .resume l.k o) :
    l.Rounds ts [] ∧ m'.Queued t (.resume l.k outcome) ts ∧
      ∀ gs m'' o, m'.Steps gs m'' → m''.control = .resume l.k o → o = outcome := by
  have hstart : Moment.Queued t (.resume l.k outcome) []
      ⟨(m.world.replay []).later (.resume l.k outcome), .rest, m.roots⟩ :=
    .of_later hheld hexists (fun _ he => by cases he) m.roots []
  obtain ⟨hr, hq⟩ := queued_course (hworld ▸ hstart) ht (hm.trans hm₁) hts hopen
  refine ⟨hr, hq, fun gs m'' o hs hc => ?_⟩
  rcases step_queued hq hr ht hs ((hm.trans hm₁).trans hts.leads) with ⟨-, hq'⟩ | hcontrol
  · exact (hq'.keeps.control (by rw [hc]; exact ht)).elim
  · cases hc.symm.trans hcontrol
    rfl

/-- The loop that a call begins. -/
def called (w : World) (env : EnvId) (block : Block) (code : Code) (k : Continuation) : Loop :=
  ⟨env, block, w.captured? block.id, k.push (.resume env code)⟩

end Loop

/-! ## The word -/

theorem ControlWord.iterateOperands_push (op : String) (s : Stack) (id : BlockId) (body : Code)
    (x : Float) :
    iterateOperands op ((s.push (.block id body)).push (.number x)) =
      match Number.toWhole? x with
      | some n => .ok (⟨id, body⟩, min n countBound, s)
      | none => .error (.invalidArgument op (.badCount x)) := by
  have hdrop : ((s.push (.block id body)).push (.number x)).dropTop op 2 = .ok s := by
    simp [Stack.dropTop, Stack.need, Stack.push, Stack.depth]
  have hblock : ((s.push (.block id body)).push (.number x)).peekBlock op 1 = .ok ⟨id, body⟩ := rfl
  have hnumber : ((s.push (.block id body)).push (.number x)).peekNumber op 0 = .ok x := rfl
  simp only [iterateOperands, hnumber, hblock, hdrop, bind, Except.bind]
  cases Number.toWhole? x <;> rfl

/-- What `times` begins with. -/
theorem ControlWord.starter_iterate (w : World) (env : EnvId) (s : Stack) (id : BlockId)
    (body : Code) (x : Float) (k : Continuation) :
    starter .iterate w env ((s.push (.block id body)).push (.number x)) k =
      (Number.toWhole? x).elim
        (w.later (.resume k (.error (.invalidArgument "times" (.badCount x)))))
        (fun n => w.repeatBlock env ⟨id, body⟩ (min n countBound) s k) := by
  show w.withOperands k (iterateOperands "times" ((s.push (.block id body)).push (.number x))) _ = _
  rw [iterateOperands_push]
  cases Number.toWhole? x <;> rfl

/-- When `times` is called with a whole number, the machine goes on as the loop does. -/
theorem World.stride_iterate {q : World × Focus} {env : EnvId} {name : Name} {code body : Code}
    {id : BlockId} {below : Stack} {x : Float} {k : Continuation}
    (hf : q.2 =
      .run env (.word name :: code) ((below.push (.block id body)).push (.number x)) (some k))
    {p : Primitive} (hp : q.1.lookup env name = some (.primitive p))
    (hb : p.behaviour = .control .iterate) {n : Nat}
    (hx : (Binary.ofFloat x).value? = some (n : ℚ)) :
    World.stride q = (q.1.repeatBlock env ⟨id, body⟩ (min n ControlWord.countBound) below
      (k.push (.resume env code)), .done) := by
  rw [World.stride_of_control hf hp hb, ControlWord.starter_iterate,
    Number.toWhole?_eq_some_iff.2 hx]
  rfl

/-- **Running a block several times is running it again on what it has left.** When `times` is
called with a block and a number, then in whatever course, with whatever interruptions, until its
caller goes on:

* If the number is a whole number `n` from zero on, each run begins on the stack that the run before
  has left, the first one on the stack below the operands; there are no more than `n` runs, and
  after a run that has failed there is no other. The caller goes on with the stack that the last of
  `n` runs has left, or with the failure of the first that has failed, and then nothing is left of
  the loop.
* If not, there is no run, and the caller goes on with a complaint. -/
theorem iterates {es fs : List Event} {m m₁ m' : Moment} {ts : List Transition}
    (h : Run .sound .dawn es m) {env : EnvId} {name : Name} {code body : Code} {id : BlockId}
    {below : Stack} {x : Float} {k : Continuation}
    (hc : m.control =
      .run env (.word name :: code) ((below.push (.block id body)).push (.number x)) k)
    {p : Primitive} (hp : m.world.lookup env name = some (.primitive p))
    (hb : p.behaviour = .control .iterate) (hcall : m.Steps fs m₁) (hts : Course m₁ ts m')
    {l : Loop} (hl : l = .called m.world env ⟨id, body⟩ code k)
    (hopen : ∀ y ∈ ts, ∀ o, y.after.control ≠ .resume l.k o) :
    ∃ t rounds, k.thread? = some t ∧ l.Rounds ts rounds ∧
      (∀ n : ℕ, (Binary.ofFloat x).value? = some (n : ℚ) →
        l.Stage t (min n ControlWord.countBound) below ts m' rounds ∧
        (∀ gs m'' remaining e, m'.Steps gs m'' →
          m'.control = .resume (l.next remaining) (.error e) →
          m''.control = .resume l.k (.error e)) ∧
        ∀ gs m'' o, m'.Steps gs m'' → m''.control = .resume l.k o →
          Result (min n ControlWord.countBound) below rounds o ∧ m''.world.held t = 0) ∧
      ((∀ n : ℕ, (Binary.ofFloat x).value? ≠ some (n : ℚ)) →
        rounds = [] ∧
        m'.Queued t (.resume l.k (.error (.invalidArgument "times" (.badCount x)))) ts ∧
        ∀ gs m'' o, m'.Steps gs m'' → m''.control = .resume l.k o →
          o = .error (.invalidArgument "times" (.badCount x))) := by
  subst hl
  have hm : Leads .sound .dawn m := ⟨es, h⟩
  obtain ⟨t, ht, hexists, hheld⟩ := h.exists_thread hc
  have hm₁ : Leads .sound m m₁ := .of_next hcall.next
  have hworld := hcall.eq_of_control hc hp hb
  rw [ControlWord.starter_iterate] at hworld
  cases hn : Number.toWhole? x with
  | some n =>
    rw [hn] at hworld
    have hvalue := Number.toWhole?_eq_some_iff.1 hn
    obtain ⟨rounds, hr, hstage, hresult⟩ :=
      Loop.course_repeats (l := .called m.world env ⟨id, body⟩ code k) hm ht hheld hexists
        (fun _ hb => hb) hm₁ hworld hts hopen
    refine ⟨t, rounds, ht, hr, fun n' hn' => ?_, fun hno => absurd hvalue (hno n)⟩
    cases (Nat.cast_inj (R := ℚ)).1 (Option.some.inj (hvalue.symm.trans hn'))
    exact ⟨hstage, fun gs m'' remaining e hs hc' => Loop.control_of_error hs hc', hresult⟩
  | none =>
    rw [hn] at hworld
    obtain ⟨hr, hq, hdelivers⟩ :=
      Loop.course_delivers (l := .called m.world env ⟨id, body⟩ code k) hm ht hheld hexists hm₁
        hworld hts hopen
    refine ⟨t, [], ht, hr, fun n hvalue => ?_, fun _ => ⟨rfl, hq, hdelivers⟩⟩
    rw [Number.toWhole?_eq_some_iff.2 hvalue] at hn
    cases hn

/-- A program whose block adds to the stack and waits for a turn. -/
def doubling : Program :=
  [.symbol "a", .block () [.word "dup", .word "yield"], .number 3, .word "times", .word "clear"]

/-- A program whose block waits for a turn and takes from the stack, more often than it can. -/
def draining : Program :=
  [.symbol "a", .symbol "b", .block () [.word "yield", .word "drop"], .number 5, .word "times",
    .word "clear"]

/-- In some evaluation `times` is called with a block and the number `x` above the stack `s`, and
after so many runs of the block the caller goes on with an outcome. -/
def Completes (body : Code) (x : Float) (s : Stack) (runs : Nat) (outcome : Outcome) : Prop :=
  ∃ (es fs gs : List Event) (m m₁ m' m'' : Moment) (ts : List Transition) (env : EnvId)
    (id : BlockId) (code : Code) (k : Continuation) (t : Thread) (n : Nat) (rounds : List Round),
    Run .sound .dawn es m ∧
      m.control =
        .run env (.word "times" :: code) ((s.push (.block id body)).push (.number x)) k ∧
      m.Steps fs m₁ ∧ Course m₁ ts m' ∧ m'.Steps gs m'' ∧
      m''.control = .resume (k.push (.resume env code)) outcome ∧
      (Loop.called m.world env ⟨id, body⟩ code k).Rounds ts rounds ∧ rounds.length = runs ∧
      (Binary.ofFloat x).value? = some (n : ℚ) ∧ Result n s rounds outcome ∧
      k.thread? = some t ∧ m''.world.held t = 0

/-- Three runs that each add to the stack, and five of which the third fails. -/
theorem iterates_to_result :
    Completes [.word "dup", .word "yield"] 3 ⟨[.symbol "a"], none⟩ 3
        (.ok ⟨[.symbol "a", .symbol "a", .symbol "a", .symbol "a"], none⟩) ∧
      Completes [.word "yield", .word "drop"] 5 ⟨[.symbol "b", .symbol "a"], none⟩ 3
        (.error (.stackUnderflow "drop" 1 0)) := by
  have hnew : Evaluated (fun w s => s.Sound w) World.fresh [⟨⟨0⟩, {}⟩] := .fresh {}
  constructor
  · have hthree : (Binary.ofFloat 3).value? = some ((3 : ℕ) : ℚ) := by
      rw [show Binary.ofFloat 3 = .finite false 6755399441055744 (-51) by decide +kernel,
        Binary.value?]
      norm_num
    generalize hq : Interpreter.point ⟨⟨0⟩, {}⟩ doubling .empty World.fresh 0 3 = q
    obtain ⟨hf, htimes⟩ : q.2 = .run ⟨0⟩ [.word "times", .word "clear"]
        (((⟨[.symbol "a"], none⟩ : Stack).push (.block ⟨0⟩ [.word "dup", .word "yield"])).push
          (.number 3)) (some (.deliver (.slot 0))) ∧
        q.1.lookup ⟨0⟩ "times" = some (.primitive ⟨46, "times", .control .iterate⟩) := by
      rw [← hq]
      exact ⟨by cbv, by cbv⟩
    have hlast : (World.stride^[29] q).2 = .resume ⟨[.resume ⟨0⟩ [.word "clear"]], .slot 0⟩
        (.ok ⟨[.symbol "a", .symbol "a", .symbol "a", .symbol "a"], none⟩) := by
      rw [Function.iterate_succ_apply, World.stride_iterate hf htimes rfl hthree, ← hq]
      cbv
    have hopen : ∀ m < 27, (World.stride^[m + 2] q).2.height? ≠ some 1 := by
      rw [← hq]
      decide +kernel
    obtain ⟨es, fs, m₁, ts, m', gs, hrun, hstep, hts, hnever, -, hback⟩ :=
      hnew.exists_course (List.mem_singleton.2 rfl) (.empty _) hq hf htimes rfl 27 hopen hlast
    obtain ⟨t, rounds, ht, hrounds, hwhole, -⟩ :=
      iterates hrun rfl htimes rfl hstep hts rfl hnever
    obtain ⟨-, -, hresult⟩ := hwhole 3 hthree
    obtain ⟨hr, hheld⟩ := hresult gs _ _ hback rfl
    cases hr with
    | done h hn =>
      exact ⟨es, fs, gs, _, m₁, m', _, ts, _, _, _, _, t, 3, rounds, hrun, rfl, hstep, hts, hback,
        rfl, hrounds, hn, hthree, .done h hn, ht, hheld⟩
  · have hfive : (Binary.ofFloat 5).value? = some ((5 : ℕ) : ℚ) := by
      rw [show Binary.ofFloat 5 = .finite false 5629499534213120 (-50) by decide +kernel,
        Binary.value?]
      norm_num
    generalize hq : Interpreter.point ⟨⟨0⟩, {}⟩ draining .empty World.fresh 0 4 = q
    obtain ⟨hf, htimes⟩ : q.2 = .run ⟨0⟩ [.word "times", .word "clear"]
        (((⟨[.symbol "b", .symbol "a"], none⟩ : Stack).push
          (.block ⟨0⟩ [.word "yield", .word "drop"])).push (.number 5))
        (some (.deliver (.slot 0))) ∧
        q.1.lookup ⟨0⟩ "times" = some (.primitive ⟨46, "times", .control .iterate⟩) := by
      rw [← hq]
      exact ⟨by cbv, by cbv⟩
    obtain ⟨hthird, hlast⟩ : (World.stride^[26] q).2 =
          .resume ⟨[.again ⟨0⟩ ⟨⟨0⟩, [.word "yield", .word "drop"]⟩ 2, .resume ⟨0⟩ [.word "clear"]],
            .slot 0⟩ (.error (.stackUnderflow "drop" 1 0)) ∧
        (World.stride^[27] q).2 = .resume ⟨[.resume ⟨0⟩ [.word "clear"]], .slot 0⟩
          (.error (.stackUnderflow "drop" 1 0)) := by
      rw [Function.iterate_succ_apply, Function.iterate_succ_apply (n := 26),
        World.stride_iterate hf htimes rfl hfive, ← hq]
      exact ⟨by cbv, by cbv⟩
    have hopen : ∀ m < 25, (World.stride^[m + 2] q).2.height? ≠ some 1 := by
      rw [← hq]
      decide +kernel
    obtain ⟨es, fs, m₁, ts, m', gs, hrun, hstep, hts, hnever, hfocus, hback⟩ :=
      hnew.exists_course (List.mem_singleton.2 rfl) (.empty _) hq hf htimes rfl 25 hopen hlast
    obtain ⟨t, rounds, ht, hrounds, hwhole, -⟩ :=
      iterates hrun rfl htimes rfl hstep hts rfl hnever
    obtain ⟨hstage, -, hresult⟩ := hwhole 5 hfive
    obtain ⟨hr, hheld⟩ := hresult gs _ _ hback rfl
    have hcount : rounds.length + 2 = 5 :=
      hstage.of_ended ht (@Control.eq_of_focus _ (.resume _ _) (hfocus.trans hthird))
    exact ⟨es, fs, gs, _, m₁, m', _, ts, _, _, _, _, t, 5, rounds, hrun, rfl, hstep, hts, hback,
      rfl, hrounds, Nat.add_right_cancel hcount, hfive, hr, ht, hheld⟩

end Catena
