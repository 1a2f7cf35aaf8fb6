import Catena.Proofs.Machine.Activations
import Catena.Proofs.Machine.Custody

/-!
# While a body runs

The body of a block runs in an environment of its own, and when it is over its scope is left. While
it runs, it may call others and suspend as often as it likes. But each time its thread goes on, it
goes on with the code of the body itself and nothing above its exit, or with something else that
comes back to the rest of the body (`Body.custody`). So a body is over only when its own code has
come to an end or has failed (`Body.Inside.step`).
-/

namespace Catena

/-- The body of a block that runs: the way out of its scope, its code, what becomes of its
definitions, and what comes after it. -/
structure Body where
  guard : Guard
  code : Code
  exit : Exit
  k : Continuation

namespace Body

variable (b : Body)

/-- What the body goes on with: its scope is left. -/
def base : Continuation := b.k.push (.exit b.exit b.guard)

/-- What something goes on with that the body has called: there may be more of it, none of it in the
environment of the body, and then the rest of the body. -/
def Calls (k : Continuation) : Prop :=
  ∃ (frames : List Frame) (code : Code),
    k = ⟨frames ++ .resume b.guard.env code :: b.base.frames, b.k.sink⟩ ∧ code <:+ b.code ∧
      ∀ env rest, Frame.resume env rest ∈ frames → env ≠ b.guard.env

/-- Code that is run for a continuation: it is the rest of the body, or the body has called it. -/
def Runs (env : EnvId) (code : Code) (k : Continuation) : Prop :=
  env = b.guard.env ∧ k = b.base ∧ code <:+ b.code ∨ env ≠ b.guard.env ∧ b.Calls k

/-- A continuation that is resumed: the body is over, or it has called someone. -/
def Resumes (ended : Stack → Prop) (k : Continuation) (outcome : Outcome) : Prop :=
  k = b.base ∧ (∀ s, outcome = .ok s → ended s) ∨ b.Calls k

/-- While a body runs: its thread is at the body itself or at something that it has called. The body
succeeds only with a stack that its code has ended with. -/
def custody (ended : Stack → Prop) : Custody where
  control
    | .rest => True
    | .run env code _ k => b.Runs env code k
    | .resume k outcome => b.Resumes ended k outcome
  task
    | .resume k outcome => b.Resumes ended k outcome
    | .activate _ _ _ _ _ k => b.Calls k
    | .wakeReceiver _ (.resume _ _ k) | .wakeWaiter (.resume _ _ k) _ => b.Calls k
    | _ => False
  waker
    | .resume _ _ k => b.Calls k
    | .report _ => False
  wakes := by
    rintro (_ | _) h value
    · exact h
    · exact h.elim
  receives := by
    rintro (_ | _) h m
    · exact h
    · exact h.elim
  resumes h _ := .inr h

variable {b}

theorem Calls.thread? {k : Continuation} (h : b.Calls k) : k.thread? = b.k.thread? := by
  obtain ⟨frames, code, rfl, -⟩ := h
  rfl

theorem Calls.push {k : Continuation} (h : b.Calls k) {frame : Frame}
    (hf : ∀ env rest, frame = .resume env rest → env ≠ b.guard.env) : b.Calls (k.push frame) := by
  obtain ⟨frames, code, rfl, hcode, hframes⟩ := h
  refine ⟨frame :: frames, code, rfl, hcode, fun env rest hmem => ?_⟩
  rcases List.mem_cons.1 hmem with heq | hmem
  · exact hf env rest heq.symm
  · exact hframes env rest hmem

/-- The body calls someone. -/
theorem calls_base {code : Code} (h : code <:+ b.code) :
    b.Calls (b.base.push (.resume b.guard.env code)) :=
  ⟨[], code, rfl, h, fun _ _ hmem => nomatch hmem⟩

theorem not_calls_nil (sink : Sink) : ¬ b.Calls ⟨[], sink⟩ := by
  rintro ⟨frames, code, h, -⟩
  cases frames <;> cases h

/-- What has been called goes on, or the body does. -/
theorem Calls.pop {frame : Frame} {frames : List Frame} {sink : Sink}
    (h : b.Calls ⟨frame :: frames, sink⟩) :
    (∃ code, frame = .resume b.guard.env code ∧ Continuation.mk frames sink = b.base ∧
        code <:+ b.code) ∨
      b.Calls ⟨frames, sink⟩ ∧ ∀ env rest, frame = .resume env rest → env ≠ b.guard.env := by
  obtain ⟨above, code, h, hcode, hframes⟩ := h
  cases above with
  | nil =>
    cases h
    exact .inl ⟨code, rfl, rfl, hcode⟩
  | cons first above =>
    cases h
    refine .inr ⟨⟨above, code, rfl, hcode, fun env rest hmem => ?_⟩, fun env rest heq => ?_⟩
    · exact hframes env rest (List.mem_cons_of_mem _ hmem)
    · exact hframes env rest (heq ▸ List.mem_cons_self ..)

/-- What has been called goes on, if it is not code. -/
theorem Calls.pop_of_ne {frame : Frame} {frames : List Frame} {sink : Sink}
    (h : b.Calls ⟨frame :: frames, sink⟩) (hf : ∀ env rest, frame ≠ .resume env rest) :
    b.Calls ⟨frames, sink⟩ := by
  rcases h.pop with ⟨code, rfl, -⟩ | h
  · exact absurd rfl (hf _ _)
  · exact h.1

theorem Runs.rest {env : EnvId} {d : Datum BlockId} {code : Code} {k : Continuation}
    (h : b.Runs env (d :: code) k) : b.Runs env code k := by
  rcases h with ⟨henv, hk, hcode⟩ | h
  · exact .inl ⟨henv, hk, (List.suffix_cons d code).trans hcode⟩
  · exact .inr h

/-- What runs calls someone. -/
theorem Runs.calls {env : EnvId} {code : Code} {k : Continuation} (h : b.Runs env code k) :
    b.Calls (k.push (.resume env code)) := by
  rcases h with ⟨rfl, rfl, hcode⟩ | ⟨henv, hk⟩
  · exact calls_base hcode
  · refine hk.push fun env' rest heq => ?_
    cases heq
    exact henv

theorem Runs.fails {env : EnvId} {code : Code} {k : Continuation} (h : b.Runs env code k)
    (ended : Stack → Prop) (e : Error) : b.Resumes ended k (.error e) := by
  rcases h with ⟨-, rfl, -⟩ | ⟨-, hk⟩
  · exact .inl ⟨rfl, nofun⟩
  · exact .inr hk

end Body

/-! ## The work of the thread -/

section Work

variable {b : Body} {t : Thread} {w : World} {env : EnvId} {s : Stack} {k : Continuation}
  {es : List Effect} {ended : Stack → Prop}

theorem AsyncEffects.feeds (h : AsyncEffects env s k w es) (hk : b.Calls k) :
    ∀ e ∈ es, (b.custody ended).Feeds t e := by
  have two : ∀ {d e : Effect}, (b.custody ended).Feeds t d → (b.custody ended).Feeds t e →
      ∀ f ∈ [d, e], (b.custody ended).Feeds t f :=
    fun hd he => List.forall_mem_cons.2 ⟨hd, List.forall_mem_singleton.2 he⟩
  cases h with
  | resume | after | stall => exact List.forall_mem_singleton.2 fun _ => .inr hk
  | report => exact two trivial fun _ => .inr hk
  | activate | callWord => exact two trivial fun _ => hk
  | iterate => exact two trivial fun _ => hk.push nofun
  | awaitVariable | awaitProcess | receive => exact List.forall_mem_singleton.2 fun _ _ _ => hk
  | sync ht hs =>
    exact List.forall_mem_append.2
      ⟨Custody.feeds_of_isStill hs.isStill, List.forall_mem_singleton.2 fun _ => .inr hk⟩
  | swallow => simp

/-- **A step of the thread leads from the body to what it calls and back**, until the body is
over. -/
theorem Does.inside {c c' : Control} (h : Does w c es c') (hc : (b.custody ended).control c) :
    (∀ e ∈ es, (b.custody fun s => ended s ∨ c = .run b.guard.env [] s b.base).Feeds t e) ∧
        (b.custody fun s => ended s ∨ c = .run b.guard.env [] s b.base).control c' ∨
      ∃ outcome, c = .resume b.base outcome ∧ ∀ s, outcome = .ok s → ended s := by
  have still : ∀ {g : Custody}, (∀ e ∈ es, e.isStill = true) → ∀ e ∈ es, g.Feeds t e :=
    fun he => Custody.feeds_of_isStill he
  cases h with
  | @finish env s k =>
    refine .inl ⟨List.forall_mem_singleton.2 fun _ => ?_, trivial⟩
    rcases hc with ⟨rfl, rfl, -⟩ | ⟨-, hk⟩
    · refine .inl ⟨rfl, fun s' hs => .inr ?_⟩
      cases hs
      rfl
    · exact .inr hk
  | literal | value => exact .inl ⟨by simp, Body.Runs.rest hc⟩
  | block | unbound => exact .inl ⟨List.forall_mem_singleton.2 trivial, Body.Runs.rest hc⟩
  | unresolved =>
    exact .inl ⟨List.forall_mem_singleton.2 fun _ => Body.Runs.fails hc _ _, trivial⟩
  | call hv hs => exact .inl ⟨still hs.isStill, Body.Runs.rest hc⟩
  | fail hv hs =>
    exact .inl ⟨List.forall_mem_append.2 ⟨Custody.feeds_of_isStill hs.isStill,
      List.forall_mem_singleton.2 fun _ => Body.Runs.fails hc _ _⟩, trivial⟩
  | takeOver hv ha => exact .inl ⟨ha.feeds (Body.Runs.rest hc).calls, trivial⟩
  | fillSlot | finishProcess =>
    rcases hc with ⟨hk, -⟩ | hk
    · cases hk
    · exact absurd hk (Body.not_calls_nil _)
  | goOn =>
    rcases hc with ⟨hk, -⟩ | hk
    · cases hk
    · rcases hk.pop with ⟨code, heq, hbase, hcode⟩ | ⟨hk, henv⟩
      · cases heq
        exact .inl ⟨by simp, .inl ⟨rfl, hbase, hcode⟩⟩
      · exact .inl ⟨by simp, .inr ⟨henv _ _ rfl, hk⟩⟩
  | skip =>
    rcases hc with ⟨hk, -⟩ | hk
    · cases hk
    · rcases hk.pop with ⟨code, heq, hbase, hcode⟩ | ⟨hk, -⟩
      · exact .inl ⟨by simp, .inl ⟨hbase, nofun⟩⟩
      · exact .inl ⟨by simp, .inr hk⟩
  | leave | harvest =>
    rcases hc with ⟨hk, hended⟩ | hk
    · exact .inr ⟨_, congrArg (Control.resume · _) hk, hended⟩
    · exact .inl ⟨List.forall_mem_singleton.2 trivial, .inr (hk.pop_of_ne nofun)⟩
  | enough =>
    rcases hc with ⟨hk, -⟩ | hk
    · cases hk
    · exact .inl ⟨List.forall_mem_singleton.2 fun _ => .inr (hk.pop_of_ne nofun), trivial⟩
  | again =>
    rcases hc with ⟨hk, -⟩ | hk
    · cases hk
    · exact .inl ⟨List.forall_mem_cons.2 ⟨trivial, List.forall_mem_singleton.2 fun _ =>
        (hk.pop_of_ne nofun).push nofun⟩, trivial⟩
  | giveUp =>
    rcases hc with ⟨hk, -⟩ | hk
    · cases hk
    · exact .inl ⟨by simp, .inr (hk.pop_of_ne nofun)⟩

/-- A turn of the thread begins at the body or at what it has called. -/
theorem Begins.inside {task : Task} {c : Control} (h : Begins w task es c)
    (hg : b.guard.env.index < w.forest.handles.size) (ht : (b.custody ended).task task) :
    (∀ e ∈ es, (b.custody ended).Feeds t e) ∧ (b.custody ended).control c := by
  cases h with
  | resume => exact ⟨by simp, ht⟩
  | @activate captured own block exit s k =>
    refine ⟨List.forall_mem_singleton.2 trivial, .inr ⟨fun henv => ?_, Body.Calls.push ht nofun⟩⟩
    have hnew : ⟨w.forest.handles.size⟩ = b.guard.env := henv
    rw [← hnew] at hg
    exact Nat.lt_irrefl _ hg
  | start => exact ht.elim
  | receive => exact ⟨List.forall_mem_singleton.2 fun _ => ht, .inr ht⟩
  | refuse => exact ⟨List.forall_mem_singleton.2 fun _ => ht, trivial⟩
  | wake => exact ⟨List.forall_mem_singleton.2 trivial, .inr ht⟩
  | pass => exact ⟨List.forall_mem_singleton.2 trivial, trivial⟩

end Work

/-! ## From the beginning of a body to its end -/

/-- Environments stay. -/
theorem World.handles_replay (w : World) (es : List Effect) :
    w.forest.handles.size ≤ (w.replay es).forest.handles.size :=
  replay_induct (I := fun v => w.forest.handles.size ≤ v.forest.handles.size) le_rfl
    fun v e _ hv => hv.trans (v.alters_apply e).handles

namespace Body

/-- The code of the body has come to an end with a stack. -/
def Ends (b : Body) (ts : List Transition) (s : Stack) : Prop :=
  ∃ x ∈ ts, x.before.control = .run b.guard.env [] s b.base

/-- A thread is in the body, or in what it has called. -/
structure Inside (b : Body) (t : Thread) (ts : List Transition) (m : Moment) : Prop where
  keeps : (b.custody (b.Ends ts)).Keeps t m
  env : b.guard.env.index < m.world.forest.handles.size

/-- The body of a block that is about to begin. -/
def opening (w : World) (block : Block) (exit : Exit) (k : Continuation) : Body :=
  ⟨⟨⟨w.forest.handles.size⟩, ⟨w.forest.scopes.size⟩⟩, block.code, exit, k⟩

variable {b : Body} {t : Thread} {ts : List Transition} {m m' : Moment} {es : List Event}

theorem ends_snoc (b : Body) (ts : List Transition) (x : Transition) :
    b.Ends (ts ++ [x]) =
      fun s => b.Ends ts s ∨ x.before.control = .run b.guard.env [] s b.base := by
  funext s
  simp only [Ends, List.mem_append, List.mem_singleton, or_and_right, exists_or, exists_eq_left]

theorem Ends.snoc {s : Stack} (h : b.Ends ts s) (x : Transition) : b.Ends (ts ++ [x]) s := by
  rw [ends_snoc]
  exact .inl h

theorem Resumes.mono {p q : Stack → Prop} (hpq : ∀ s, p s → q s) {k : Continuation}
    {outcome : Outcome} (h : b.Resumes p k outcome) : b.Resumes q k outcome :=
  h.imp_left fun h => ⟨h.1, fun s hs => hpq s (h.2 s hs)⟩

theorem keeps_mono {p q : Stack → Prop} (hpq : ∀ s, p s → q s) (h : (b.custody p).Keeps t m) :
    (b.custody q).Keeps t m where
  present := h.present
  cells := by
    refine h.cells.imp (fun _ _ hv => hv) (fun task hk ht => ?_) fun _ waker hk => hk
    have hk := hk ht
    cases task with
    | resume k outcome => exact Resumes.mono hpq hk
    | wakeReceiver m waker => cases waker <;> exact hk
    | wakeWaiter waker value => cases waker <;> exact hk
    | _ => exact hk
  control hc := by
    have hk := h.control hc
    generalize m.control = c at hk
    cases c with
    | resume k outcome => exact Resumes.mono hpq hk
    | _ => exact hk

/-- **The body begins** when the turn of its task does. -/
theorem Inside.begins {captured : Bindings Value} {own : Option (Name × Value)} {block : Block}
    {exit : Exit} {s : Stack} {k : Continuation}
    (h : m.Turns (.activate captured own block exit s k) es m') (ht : t.Exists m.world)
    (hheld : (m.world.apply .beginTurn).held t = 0) (ts : List Transition) :
    (opening m.world block exit k).Inside t ts m' ∧
      m'.control = .run (opening m.world block exit k).guard.env block.code s
        (opening m.world block exit k).base := by
  cases h with
  | @begins w c roots rest es hr hb =>
    have hcells : Custody.Holds _ t (w.apply .beginTurn) :=
      Custody.of_held (g := (opening w block exit k).custody ((opening w block exit k).Ends ts)) hheld
    cases hb
    have hbase : k.push (.exit exit ((w.apply .beginTurn).openActivation captured own).2.2) =
        (opening w block exit k).base := by
      rw [World.guard_openActivation]
      rfl
    refine ⟨⟨⟨ht.mono (w.grows_replay _), ?_, fun _ => ?_⟩, ?_⟩, congrArg _ hbase⟩
    · exact hcells.replay (ht.mono (w.grows_apply .beginTurn)) (List.forall_mem_singleton.2 trivial)
    · exact .inl ⟨rfl, hbase, List.suffix_rfl⟩
    · have hsize := (w.apply .beginTurn).size_handles_openActivation captured own
      exact Nat.lt_of_lt_of_eq (Nat.lt_succ_self _) hsize.symm

/-- **A step inside of a body stays there**, or the body is over and its scope is left. -/
theorem Inside.step (h : b.Inside t ts m) (hs : m.Steps es m') (hm : Leads .sound .dawn m) :
    b.Inside t (ts ++ [⟨m, es, m'⟩]) m' ∨
      ∃ outcome, m.control = .resume b.base outcome ∧ (∀ s, outcome = .ok s → b.Ends ts s) ∧
        m'.world = (m.world.exitScope b.exit b.guard outcome).1 ∧
        m'.control = .resume b.k (m.world.exitScope b.exit b.guard outcome).2 := by
  obtain ⟨fs, hrun⟩ := hm
  have hsound := hrun.sound Policy.sound_sound Moment.sound_dawn
  have hbal := hrun.balanced fun _ _ hs => hs
  have henv : b.guard.env.index < m'.world.forest.handles.size := by
    rw [hs.next.world_eq]
    exact h.env.trans_le (m.world.handles_replay _)
  have hpresent : t.Exists m'.world := by
    rw [hs.next.world_eq]
    exact h.keeps.present.mono (m.world.grows_replay _)
  cases hs.takes t with
  | other hs hp =>
    exact .inl ⟨keeps_mono (fun s hs => hs.snoc _) (h.keeps.other hs hsound hp).1, henv⟩
  | @work w c c' roots es hc hd hexact =>
    rcases hd.inside (h.keeps.control hc) with ⟨hfeeds, hcontrol⟩ | ⟨outcome, rfl, hended⟩
    · refine .inl ⟨?_, henv⟩
      rw [ends_snoc]
      exact ⟨hpresent, (Custody.of_held (hbal.held_eq_zero hc)).replay h.keeps.present hfeeds,
        fun _ => hcontrol⟩
    · have hadvance : w.advance (.resume b.base outcome) =
          ((w.exitScope b.exit b.guard outcome).1,
            .resume b.k (w.exitScope b.exit b.guard outcome).2) := rfl
      rw [Control.focus, hadvance, Prod.mk.injEq] at hexact
      obtain ⟨hworld, hfocus⟩ := hexact
      refine .inr ⟨outcome, rfl, hended, hworld.symm, ?_⟩
      exact @Control.eq_of_focus _ (.resume _ _) hfocus.symm
  | @turn _ _ _ task htask hturn =>
    cases hturn with
    | @begins w c roots rest es hr hb =>
      have hmem : task ∈ w.scheduler.ready := by rw [hr]; exact List.mem_cons_self ..
      obtain ⟨hfeeds, hcontrol⟩ := hb.inside h.env (h.keeps.cells.ready task hmem htask)
      have hheld : (w.apply .beginTurn).held t = 0 := hbal.held_beginTurn hr htask
      refine .inl ⟨keeps_mono (fun s hs => hs.snoc _) ⟨hpresent, ?_, fun _ => hcontrol⟩, henv⟩
      exact (Custody.of_held hheld).replay (h.keeps.present.mono (w.grows_apply .beginTurn)) hfeeds

/-! ## What is not inside of a body -/

theorem Calls.length_lt {k : Continuation} (h : b.Calls k) : b.k.frames.length + 1 < k.frames.length := by
  obtain ⟨frames, code, rfl, -⟩ := h
  simp only [base, Continuation.push, List.length_append, List.length_cons]
  omega

/-- What is no longer than the way out of a body is not resumed inside of it. -/
theorem Inside.ne_resume (h : b.Inside t ts m) {k : Continuation} (hk : k.thread? = some t)
    (hlen : k.frames.length ≤ b.k.frames.length) (outcome : Outcome) :
    m.control ≠ .resume k outcome := by
  intro hc
  have hresumes := h.keeps.control (by rw [hc]; exact hk)
  rw [hc] at hresumes
  rcases hresumes with ⟨rfl, -⟩ | hcalls
  · exact absurd hlen (by simp [base, Continuation.push])
  · exact absurd hcalls.length_lt (by omega)

/-- No block is run inside of a body with a continuation that is no longer than the way out. -/
theorem Inside.not_turns (h : b.Inside t ts m) {k : Continuation} (hk : k.thread? = some t)
    (hlen : k.frames.length ≤ b.k.frames.length) {captured : Bindings Value}
    {own : Option (Name × Value)} {block : Block} {exit : Exit} {s : Stack} :
    ¬ m.Turns (.activate captured own block exit s k) es m' := by
  intro hturn
  have hcalls : b.Calls k := h.keeps.cells.ready _ hturn.mem_ready hk
  exact absurd hcalls.length_lt (by omega)

end Body

end Catena
