import Catena.Proofs.Machine.Bodies
import Catena.Proofs.Machine.Defining

/-!
# What a vocabulary holds

The word `vocab` runs a block and makes a vocabulary of what it has defined. The vocabulary is taken
from the scope that the environment of the body stands on when the body is over, which may be many
turns after it has begun. That scope is the frame that was made for the body, and only the body
itself writes there. So step by step, the frame holds what the body has defined, and nothing else
(`Collects.step`): neither what it has taken from its snapshot, nor what others have defined that it
has called (`vocab_harvests`).
-/

namespace Catena

/-- What a step defines in an environment. -/
def Transition.defines (x : Transition) (env : EnvId) : Bindings Value :=
  match x.before.control with
  | .run env' code s _ => if env' = env then x.before.world.defines env code s else .empty
  | _ => .empty

namespace Transition

variable {x : Transition} {env : EnvId}

theorem defines_of_run {code : Code} {s : Stack} {k : Continuation}
    (hc : x.before.control = .run env code s k) :
    x.defines env = x.before.world.defines env code s := by
  simp [defines, hc]

theorem defines_of_not_run (h : ∀ code s k, x.before.control ≠ .run env code s k) :
    x.defines env = .empty := by
  unfold defines
  cases hc : x.before.control with
  | run env' code s k =>
    refine if_neg fun henv => h code s k ?_
    rw [hc, henv]
  | _ => rfl

end Transition

/-- The last definition that a name gets in an environment in the course of some steps. -/
def lastDefinition (env : EnvId) (ts : List Transition) (name : Name) : Option Value :=
  ts.reverse.findSome? fun x => (x.defines env).get? name

theorem lastDefinition_snoc (env : EnvId) (ts : List Transition) (x : Transition) (name : Name) :
    lastDefinition env (ts ++ [x]) name =
      ((x.defines env).get? name).or (lastDefinition env ts name) := by
  simp only [lastDefinition, List.reverse_append, List.reverse_singleton, List.singleton_append,
    List.findSome?_cons]
  cases (x.defines env).get? name <;> rfl

/-- The frame of an activation binds what has been defined in its environment in the course of some
steps, and nothing else. -/
structure Collects (a : Activation) (ts : List Transition) (m : Moment) : Prop where
  roster : ∃ r, m.Scoped r ∧ a ∈ r.activations
  bindings : ∀ name, (m.world.forest.scopes.get a.frame.index).bindings.get? name =
    lastDefinition a.env ts name

section Frame

variable {a : Activation} {ts : List Transition} {m m' : Moment} {es : List Event}

theorem World.frame_openActivation (w : World) (captured : Bindings Value)
    (own : Option (Name × Value)) :
    ((w.openActivation captured own).1.forest.scopes.get (w.forest.scopes.size + 1)).bindings =
      .empty := by
  have hsize : (w.forest.addEnv ⟨captured, none⟩).1.scopes.size = w.forest.scopes.size + 1 :=
    Table.size_push _ _
  have hnew : ∀ f : Forest Value, f.scopes.size = w.forest.scopes.size + 1 → ∀ env,
      ((f.enter env).scopes.get (w.forest.scopes.size + 1)).bindings = .empty := by
    intro f hf env
    rw [← hf]
    exact congrArg Scope.bindings (Table.get_push_size _ _)
  cases own with
  | none => exact hnew _ hsize _
  | some entry => exact hnew _ ((Forest.size_scopes_define ..).trans hsize) _

/-- The body of a block begins with an empty frame. -/
theorem Collects.begins {r : Roster} {captured : Bindings Value} {own : Option (Name × Value)}
    {block : Block} {exit : Exit} {s : Stack} {k : Continuation}
    (h : m.Turns (.activate captured own block exit s k) es m') (hr : m.Scoped r)
    (hs : m'.Scoped (Roster.replay m.world r es)) :
    Collects (.ofBody m.world k.thread? block) [] m' := by
  cases h with
  | @begins w c roots rest es hready hb =>
    cases hb
    refine ⟨⟨_, hs, List.mem_append_right _ (List.mem_singleton.2 rfl)⟩, fun name => ?_⟩
    have hframe := (w.apply .beginTurn).frame_openActivation captured own
    exact congrArg (·.get? name) hframe

/-- The activation of an environment is the only one. -/
theorem Roster.Charts.eq_of_env {r : Roster} {f : Forest Value} (h : r.Charts f) {a b : Activation}
    (ha : a ∈ r.activations) (hb : b ∈ r.activations) (henv : b.env = a.env) : b = a := by
  have hfind := h.find_of_mem hb
  rw [henv, h.find_of_mem ha] at hfind
  exact (Option.some.inj hfind).symm

/-- An activation that is being run stands on its frame, and its own thread runs it. -/
theorem Collects.atWork {r : Roster} (hr : m.Scoped r) (ha : a ∈ r.activations) {code : Code}
    {s : Stack} {k : Continuation} (hc : m.control = .run a.env code s k) :
    m.world.forest.current a.env = a.frame ∧ r.Runs k.thread? a code := by
  obtain ⟨b, hb, ⟨code', s', k', hc', hruns, hcurrent⟩, henv⟩ := hr.atWork hc
  cases hr.tidy.charts.eq_of_env ha hb henv
  rw [hc] at hc'
  cases hc'
  exact ⟨hcurrent, hruns⟩

/-- **What the body of an activation defines is added to its frame**, and nothing else is. -/
theorem Collects.step (h : Collects a ts m) (hs : m.Steps es m') (hm : Leads .sound .dawn m) :
    Collects a (ts ++ [⟨m, es, m'⟩]) m' := by
  obtain ⟨fs, hrun⟩ := hm
  obtain ⟨r, hr, ha⟩ := h.roster
  have hsound := hrun.sound Policy.sound_sound Moment.sound_dawn
  have hbal := hrun.balanced fun _ _ hs => hs
  have hframe := (hr.tidy.charts.stands a ha).frame_lt
  refine ⟨⟨_, hs.next.scoped hsound hbal hr, Roster.mem_replay ha _ _⟩, fun name => ?_⟩
  rw [lastDefinition_snoc, ← h.bindings]
  by_cases hrunning : ∃ code s k, m.control = .run a.env code s k
  · obtain ⟨code, s, k, hc⟩ := hrunning
    obtain ⟨hcurrent, -⟩ := Collects.atWork hr ha hc
    cases hs with
    | between hrest => rw [hrest] at hc; cases hc
    | @work w c c' roots es hd hexact =>
      subst hc
      have hgains := gains_advance w a.env code s k (by rw [hcurrent]; exact hframe)
      have hworld : (w.advance (.run a.env code s (some k))).1 = w.replay es :=
        congrArg Prod.fst hexact
      rw [hcurrent, hworld] at hgains
      rw [Transition.defines_of_run rfl]
      exact hgains name
  · have hnone : Transition.defines ⟨m, es, m'⟩ a.env = .empty :=
      Transition.defines_of_not_run fun code s k hc => hrunning ⟨code, s, k, hc⟩
    have hkeeps : m'.world.forest.scopes.get? a.frame.index =
        m.world.forest.scopes.get? a.frame.index := by
      by_contra hne
      obtain ⟨b, hb, hwork, hframe⟩ := hr.writes hs.next hframe hne
      have heq := hr.tidy.charts.eq_of_mem_scopes ha hb (List.mem_cons_self ..)
        (hframe ▸ List.mem_cons_self ..)
      subst heq
      obtain ⟨code, s, k, hc, -⟩ := hwork
      exact hrunning ⟨code, s, k, hc⟩
    rw [hnone, Table.get, hkeeps]
    rfl

end Frame

/-! ## From the call to the return -/

/-- The steps that are taken in the environment of a body are its own: they run its code, and not
what it has called. -/
def Body.Owns (b : Body) (ts : List Transition) : Prop :=
  ∀ x ∈ ts, ∀ code s k, x.before.control = .run b.guard.env code s k →
    k = b.base ∧ code <:+ b.code

/-- A vocabulary is being made. -/
inductive Making (t : Thread) (block : Block) (s : Stack) (k : Continuation) :
    List Transition → Moment → Prop
  /-- The body waits for its turn. -/
  | waits {ts : List Transition} {m : Moment} {captured : Bindings Value}
      (hq : m.Queued t (.activate captured none block .harvest s k) ts) : Making t block s k ts m
  /-- The body has begun, and its frame holds what it has defined since then. -/
  | runs {before during : List Transition} {start : Transition} {m : Moment}
      {captured : Bindings Value} {b : Body}
      (hs : Moment.Turns (.activate captured none block .harvest s k) start.before start.events
        start.after)
      (hb : b = .opening start.before.world block .harvest k) (hi : b.Inside t during m)
      (hc : Collects (.ofBody start.before.world (some t) block) during m) (ho : b.Owns during) :
      Making t block s k (before ++ start :: during) m

/-- A vocabulary has been made of what a body has defined since it has begun, and lies on the stack
that the body has ended with. -/
inductive Made (block : Block) (s : Stack) (k : Continuation) :
    List Transition → World → Stack → Prop
  | intro {before during : List Transition} {start : Transition} {w : World} {b : Body}
      {captured : Bindings Value} {final : Stack} {v : VocabularyId}
      (hs : Moment.Turns (.activate captured none block .harvest s k) start.before start.events
        start.after)
      (hb : b = .opening start.before.world block .harvest k) (ho : b.Owns during)
      (he : b.Ends during final)
      (hv : ∀ name, (w.vocabulary v).get? name = lastDefinition b.guard.env during name) :
      Made block s k (before ++ start :: during) w (final.push (.vocabulary v))

section Making

variable {t : Thread} {block : Block} {s : Stack} {k : Continuation} {ts : List Transition}
  {m m' : Moment} {es : List Event}

/-- What is run in the environment of a body is run by its thread, and so it is its own code. -/
theorem Body.Inside.owns {w : World} {b : Body} {exit : Exit} (h : b.Inside t ts m)
    (hc : Collects (.ofBody w (some t) block) ts m) (hb : b = .opening w block exit k) {code : Code}
    {s' : Stack} {k' : Continuation} (hrun : m.control = .run b.guard.env code s' k') :
    k' = b.base ∧ code <:+ b.code := by
  obtain ⟨r, hr, ha⟩ := hc.roster
  have henv : b.guard.env = (Activation.ofBody w (some t) block).env := by rw [hb]; rfl
  obtain ⟨-, hthread, -⟩ := Collects.atWork hr ha (henv ▸ hrun)
  have hruns := h.keeps.control (by rw [hrun]; exact hthread)
  rw [hrun] at hruns
  rcases hruns with ⟨-, hbase, hcode⟩ | ⟨hne, -⟩
  · exact ⟨hbase, hcode⟩
  · exact absurd rfl hne

/-- The scope that the definitions are taken from is the frame of the body. -/
theorem current_of_base {r : Roster} (hr : m.Scoped r) {a : Activation} (ha : a ∈ r.activations)
    {b : Body} (henv : b.guard.env = a.env) {outcome : Outcome}
    (hc : m.control = .resume b.base outcome) : m.world.forest.current a.env = a.frame := by
  have hfit := hr.control
  rw [hc] at hfit
  obtain ⟨env, ⟨hguard, c, hf, -, -, hcurrent⟩, -⟩ := hfit
  have hmem := List.mem_of_getElem? hf
  have hc' := hr.tidy.charts.env env c hf
  rw [← hguard, henv] at hc' hcurrent
  rw [hr.tidy.charts.eq_of_env ha hmem hc'] at hcurrent
  exact hcurrent

/-- When the body is over, its definitions become the vocabulary. -/
theorem Made.of_exit {before during : List Transition} {start : Transition}
    {captured : Bindings Value} {b : Body} {outcome : Outcome} {u : Stack}
    (hs : Moment.Turns (.activate captured none block .harvest s k) start.before start.events
      start.after)
    (hb : b = .opening start.before.world block .harvest k)
    (hc : Collects (.ofBody start.before.world (some t) block) during m) (ho : b.Owns during)
    (hcontrol : m.control = .resume b.base outcome)
    (hended : ∀ s, outcome = .ok s → b.Ends during s)
    (hexit : (m.world.exitScope b.exit b.guard outcome).2 = .ok u) :
    Made block s k (before ++ start :: during) (m.world.exitScope b.exit b.guard outcome).1 u := by
  obtain ⟨r, hr, ha⟩ := hc.roster
  have hcurrent := current_of_base hr ha (by rw [hb]; rfl) hcontrol
  subst hb
  cases outcome with
  | error e => cases hexit
  | ok final =>
    cases hexit
    refine .intro hs rfl ho (hended final rfl) fun name => ?_
    refine Eq.trans ?_ (hc.bindings name)
    refine (congrArg (Bindings.get? · name) (Table.get_push_size m.world.vocabularies _)).trans ?_
    exact congrArg (fun x => (m.world.forest.scopes.get x.index).bindings.get? name) hcurrent

theorem Making.step (h : Making t block s k ts m) (ht : k.thread? = some t) (hs : m.Steps es m')
    (hm : Leads .sound .dawn m) :
    Making t block s k (ts ++ [⟨m, es, m'⟩]) m' ∨
      ∃ outcome, m'.control = .resume k outcome ∧
        ∀ u, outcome = .ok u → Made block s k ts m'.world u := by
  cases h with
  | @waits ts m captured hq =>
    rcases hq.step ht hs hm with ⟨hq, -, -⟩ | ⟨hturn, hheld⟩
    · exact .inl (.waits hq)
    · obtain ⟨hinside, hcontrol⟩ := Body.Inside.begins hturn hq.keeps.present hheld []
      obtain ⟨fs, hrun⟩ := hm
      have hscoped := hrun.scoped
      have hcollects := Collects.begins hturn hscoped
        (hs.next.scoped (hrun.sound Policy.sound_sound Moment.sound_dawn)
          (hrun.balanced fun _ _ hs => hs) hscoped)
      rw [ht] at hcollects
      have howns : (Body.opening m.world block .harvest k).Owns [] := fun _ hx => by cases hx
      have hruns : Making t block s k (ts ++ Transition.mk m es m' :: []) m' :=
        .runs hturn rfl hinside hcollects howns
      exact .inl hruns
  | @runs before during start m captured b hturn hb hi hc ho =>
    rcases hi.step hs hm with hi' | ⟨outcome, hcontrol, hended, hworld, hcontrol'⟩
    · rw [List.append_assoc, List.cons_append]
      refine .inl (.runs hturn hb hi' (hc.step hs hm) (List.forall_mem_append.2 ⟨ho, ?_⟩))
      exact List.forall_mem_singleton.2 fun _ _ _ hrun => hi.owns hc hb hrun
    · have hk : b.k = k := by rw [hb]; rfl
      rw [hk] at hcontrol'
      refine .inr ⟨_, hcontrol', fun u hu => ?_⟩
      rw [hworld]
      exact .of_exit hturn hb hc ho hcontrol hended hu

/-- Before its caller goes on, a vocabulary is being made. -/
theorem Making.ne_resume (h : Making t block s k ts m) (ht : k.thread? = some t)
    (outcome : Outcome) : m.control ≠ .resume k outcome := by
  cases h with
  | waits hq =>
    intro hc
    exact hq.keeps.control (by rw [hc]; exact ht)
  | runs hs hb hi => exact hi.ne_resume ht (by rw [hb]; exact le_rfl) outcome

theorem Making.course {m₁ : Moment} (h : Making t block s k [] m₁) (ht : k.thread? = some t)
    (hm : Leads .sound .dawn m₁) (hts : Course m₁ ts m)
    (hopen : ∀ y ∈ ts, ∀ o, y.after.control ≠ .resume k o) : Making t block s k ts m := by
  induction hts with
  | refl => exact h
  | @step m m' ts es hts hs ih =>
    have hmaking := ih fun y hy => hopen y (List.mem_append_left _ hy)
    rcases hmaking.step ht hs (hm.trans hts.leads) with hnext | ⟨outcome, hcontrol, -⟩
    · exact hnext
    · exact absurd hcontrol (hopen _ (List.mem_append_right _ (List.mem_singleton.2 rfl)) outcome)

end Making

/-- **A vocabulary is exactly what its body has defined.** When `vocab` is called with a block, then
in whatever course, with whatever interruptions, if its caller goes on with a stack, the body of the
block has begun in an environment of its own, on the stack below the block. On top of the stack that
its code has ended with lies a vocabulary, and a name is bound there to the last definition that it
got while the body's own code was run in this environment, or not at all. -/
theorem vocab_harvests {es fs gs : List Event} {m m₁ m' m'' : Moment} {ts : List Transition}
    (h : Run .sound .dawn es m) {env : EnvId} {name : Name} {code body : Code} {id : BlockId}
    {below : Stack} {k : Continuation}
    (hc : m.control = .run env (.word name :: code) (below.push (.block id body)) k)
    {p : Primitive} (hp : m.world.lookup env name = some (.primitive p))
    (hb : p.behaviour = .control .vocab) (hcall : m.Steps fs m₁) (hts : Course m₁ ts m')
    (hopen : ∀ y ∈ ts, ∀ o, y.after.control ≠ .resume (k.push (.resume env code)) o)
    (hs : m'.Steps gs m'') {u : Stack}
    (hreturn : m''.control = .resume (k.push (.resume env code)) (.ok u)) :
    Made ⟨id, body⟩ below (k.push (.resume env code)) ts m''.world u := by
  have hm : Leads .sound .dawn m := ⟨es, h⟩
  obtain ⟨t, ht, hexists, hheld⟩ := h.exists_thread hc
  have hm₁ := hm.trans (.of_next hcall.next)
  have hstart : Making t ⟨id, body⟩ below (k.push (.resume env code)) [] m₁ := by
    rw [hcall.eq_of_control hc hp hb]
    exact .waits (.of_activate hheld hexists env ⟨id, body⟩ none .harvest below _ m.roots [])
  have hmaking := hstart.course ht hm₁ hts hopen
  rcases hmaking.step ht hs (hm₁.trans hts.leads) with hnext | ⟨outcome, hcontrol, hmade⟩
  · exact absurd hreturn (hnext.ne_resume ht _)
  · cases hreturn.symm.trans hcontrol
    exact hmade u rfl

/-- A program whose block defines a name, waits for a turn, and defines it anew as a name that it
has captured; and it runs a block that defines a third. While it waits, a process defines the
first. -/
def gathering : Program :=
  [.symbol "base", .symbol "mode", .word "def",
    .block () [.symbol "other", .symbol "size", .word "def"], .word "go", .word "drop",
    .symbol "below",
    .block () [.symbol "small", .symbol "size", .word "def", .word "yield", .word "mode",
      .symbol "size", .word "def",
      .block () [.symbol "deep", .symbol "hidden", .word "def"], .word "do", .symbol "done"],
    .word "vocab", .word "clear"]

/-- The code of its block when it has been loaded. -/
def gatheringBody : Code :=
  [.symbol "small", .symbol "size", .word "def", .word "yield", .word "mode", .symbol "size",
    .word "def", .block ⟨2⟩ [.symbol "deep", .symbol "hidden", .word "def"], .word "do",
    .symbol "done"]

/-- The vocabulary that `gathering` makes: what the body has defined last, but neither what it has
captured nor what others have defined. -/
theorem vocab_harvests_gathering :
    ∃ (es fs gs : List Event) (m m₁ m' m'' : Moment) (ts : List Transition) (k : Continuation),
      Run .sound .dawn es m ∧
      m.control = .run ⟨0⟩ [.word "vocab", .word "clear"]
        ⟨[.block ⟨1⟩ gatheringBody, .symbol "below"], none⟩ k ∧
      m.Steps fs m₁ ∧ Course m₁ ts m' ∧ m'.Steps gs m'' ∧
      m''.control = .resume (k.push (.resume ⟨0⟩ [.word "clear"]))
        (.ok ⟨[.vocabulary ⟨0⟩, .symbol "done", .symbol "below"], none⟩) ∧
      Made ⟨⟨1⟩, gatheringBody⟩ ⟨[.symbol "below"], none⟩
        (k.push (.resume ⟨0⟩ [.word "clear"])) ts m''.world
        ⟨[.vocabulary ⟨0⟩, .symbol "done", .symbol "below"], none⟩ ∧
      m''.world.vocabulary ⟨0⟩ = Bindings.empty.insert "size" (.symbol "base") := by
  have hnew : Evaluated (fun w s => s.Sound w) World.fresh [⟨⟨0⟩, {}⟩] := .fresh {}
  generalize hq : Interpreter.point ⟨⟨0⟩, {}⟩ gathering .empty World.fresh 0 8 = q
  obtain ⟨hf, hvocab⟩ : q.2 = .run ⟨0⟩ [.word "vocab", .word "clear"]
      ⟨[.block ⟨1⟩ gatheringBody, .symbol "below"], none⟩ (some (.deliver (.slot 0))) ∧
      q.1.lookup ⟨0⟩ "vocab" = some (.primitive ⟨47, "vocab", .control .vocab⟩) := by
    rw [← hq]
    exact ⟨by cbv, by cbv⟩
  obtain ⟨hlast, hmade⟩ : (World.stride^[32] q).2 = .resume ⟨[.resume ⟨0⟩ [.word "clear"]], .slot 0⟩
      (.ok ⟨[.vocabulary ⟨0⟩, .symbol "done", .symbol "below"], none⟩) ∧
      (World.stride^[32] q).1.vocabulary ⟨0⟩ = Bindings.empty.insert "size" (.symbol "base") := by
    rw [← hq]
    exact ⟨by cbv, by cbv⟩
  have hopen : ∀ m < 30, (World.stride^[m + 2] q).2.height? ≠ some 1 := by
    rw [← hq]
    decide +kernel
  obtain ⟨es, fs, m₁, ts, m', gs, hrun, hstep, hts, hnever, -, hback⟩ :=
    hnew.exists_course (List.mem_singleton.2 rfl) (.empty _) hq hf hvocab rfl 30 hopen hlast
  exact ⟨es, fs, gs, _, m₁, m', _, ts, _, hrun, rfl, hstep, hts, hback, rfl,
    vocab_harvests hrun rfl hvocab rfl hstep hts hnever hback rfl, hmade⟩

end Catena
