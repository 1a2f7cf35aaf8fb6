import Catena.Proofs.Machine.Steps

/-!
# Worlds that look alike

A step of a turn looks at little of the world: at the environments and snapshots, at the contents of
cells, at the clock. It does not look at who waits where, at the queue, at the counters or at what
has been reported. So in two worlds that look alike (`World.Alike`), the machine takes the same step:
the same effects happen on both sides, and it goes on with the same focus (`together_advance`). The
one exception is a word that nothing binds, whose meaning depends on how strict the world is.

The effects of a step are also more special than those that an arbitrary run allows
(`Effect.OfStep`): no timer is set for the past, nothing is queued for the embedding program, and no
report looks like that of an unbound word.
-/

namespace Catena

/-- What is reported about a word that nothing binds. -/
def unresolvedReport (name : Name) : String := "unresolved word `" ++ name ++ "`"

/-- A longer text begins with the same character. -/
theorem head?_append_of_head? {text : String} {c : Char} (h : text.toList.head? = some c)
    (rest : String) : (text ++ rest).toList.head? = some c := by
  rw [String.toList_append, List.head?_append, h]
  rfl

/-- A text that begins otherwise is no such report. -/
theorem ne_unresolvedReport {text : String} {c : Char} (h : text.toList.head? = some c)
    (hc : c ≠ 'u') (name : Name) : text ≠ unresolvedReport name := by
  rintro rfl
  have hu : (unresolvedReport name).toList.head? = some 'u' :=
    head?_append_of_head? (head?_append_of_head? (by decide) name) _
  rw [hu] at h
  exact hc (Option.some.inj h).symm

/-- Whether a task belongs to the embedding program. -/
def Task.isScript : Task → Bool
  | .script _ => true
  | _ => false

/-- What is reported about a run that nobody waits for. -/
def detachedReport (e : Error) : String := "detached run failed: " ++ e.message

/-- What is reported about a message that an object does not understand. -/
def sendReport (message : Name) : String := "send: object does not understand `" ++ message ++ "`"

/-- What a step of a turn can do when the clock stands at `clock`. -/
def Effect.OfStep (clock : Nat) : Effect → Prop
  | .report text => (∃ e, text = detachedReport e) ∨ ∃ message, text = sendReport message
  | .schedule due task => clock ≤ due ∧ ∃ k s, task = .resume k (.ok s)
  | .later task => task.isScript = false
  | e => e.isDeed = true

/-- The reports of steps are told by how they begin. -/
theorem Effect.OfStep.head? {clock : Nat} {text : String} (h : (Effect.report text).OfStep clock) :
    text.toList.head? = some 'd' ∨ text.toList.head? = some 's' := by
  rcases h with ⟨e, rfl⟩ | ⟨message, rfl⟩
  · exact .inl (head?_append_of_head? (by decide) _)
  · exact .inr (head?_append_of_head? (head?_append_of_head? (by decide) _) _)

theorem Effect.OfStep.ne_unresolvedReport {clock : Nat} {text : String}
    (h : (Effect.report text).OfStep clock) (name : Name) : text ≠ unresolvedReport name := by
  rcases h.head? with hd | hs
  · exact Catena.ne_unresolvedReport hd (by decide) name
  · exact Catena.ne_unresolvedReport hs (by decide) name

theorem Effect.OfStep.isDeed {clock : Nat} {e : Effect} (h : e.OfStep clock) : e.isDeed = true := by
  cases e with
  | report | schedule | later => rfl
  | _ => exact h

/-- Whether an effect queues a task of the embedding program. -/
def Effect.queuesScript : Effect → Bool
  | .later task | .schedule _ task => task.isScript
  | _ => false

theorem Effect.OfStep.queuesScript {clock : Nat} {e : Effect} (h : e.OfStep clock) :
    e.queuesScript = false := by
  cases e with
  | later task => exact h
  | schedule due task =>
    obtain ⟨-, k, s, rfl⟩ := h
    rfl
  | _ => rfl

namespace World

/-- The second world looks to every step like the first. -/
structure Alike (w v : World) : Prop where
  forest : v.forest = w.forest
  captures : v.captures = w.captures
  vocabularies : v.vocabularies = w.vocabularies
  objects : v.objects = w.objects
  processCount : v.processes.size = w.processes.size
  variableCount : v.dataflows.size = w.dataflows.size
  mailbox (p : ProcessId) : (v.process p).mailbox = (w.process p).mailbox
  state (p : ProcessId) : (v.process p).state = (w.process p).state
  name (x : VariableId) : (v.dataflow x).name = (w.dataflow x).name
  value (x : VariableId) : (v.dataflow x).value = (w.dataflow x).value
  queue (m : MailboxId) : (v.mailbox m).queue = (w.mailbox m).queue
  clock : v.scheduler.clock = w.scheduler.clock

theorem Alike.refl (w : World) : w.Alike w :=
  ⟨rfl, rfl, rfl, rfl, rfl, rfl, fun _ => rfl, fun _ => rfl, fun _ => rfl, fun _ => rfl,
    fun _ => rfl, rfl⟩

/-- The same effects happen to two worlds. -/
inductive Alongside (w v : World) : World → World → Prop
  | effects (es : List Effect) (h : ∀ e ∈ es, e.OfStep w.scheduler.clock) :
      Alongside w v (w.replay es) (v.replay es)

/-- Two worlds go on together: the same effects happen, or the embedding program is told the same. -/
inductive Together (w v : World) : World → World → Prop
  | effects {w' v' : World} (h : Alongside w v w' v') : Together w v w' v'
  | told (tag : String) (value : Value) :
      Together w v (w.addEntry (.woken tag (w.view value))) (v.addEntry (.woken tag (v.view value)))
  | resumed (tag : String) (outcome : Outcome) :
      Together w v (w.addEntry (.resumed tag (outcome.map w.viewStack)))
        (v.addEntry (.resumed tag (outcome.map v.viewStack)))

variable {w v : World}

namespace Alongside

theorem refl : Alongside w v w v := .effects [] fun _ he => nomatch he

theorem one {e : Effect} (h : e.OfStep w.scheduler.clock) :
    Alongside w v (w.apply e) (v.apply e) := .effects [e] (List.forall_mem_singleton.2 h)

theorem resumeLater (k : Continuation) (outcome : Outcome) :
    Alongside w v (w.resumeLater k outcome) (v.resumeLater k outcome) :=
  .one (e := .later (.resume k outcome)) rfl

/-- One more effect afterwards. -/
theorem after {w' v' : World} (h : Alongside w v w' v') {e : Effect}
    (he : e.OfStep w.scheduler.clock) : Alongside w v (w'.apply e) (v'.apply e) := by
  obtain ⟨es, hes⟩ := h
  have happ : ∀ u : World, (u.replay es).apply e = u.replay (es ++ [e]) := fun u => by
    rw [replay_append]
    rfl
  rw [happ, happ]
  exact .effects _ (List.forall_mem_append.2 ⟨hes, List.forall_mem_singleton.2 he⟩)

end Alongside

theorem ofStep_detached (e : Error) (clock : Nat) :
    (Effect.report (detachedReport e)).OfStep clock := .inl ⟨e, rfl⟩

/-! ## What is seen -/

namespace Alike

theorem lookup (h : w.Alike v) (env : EnvId) (name : Name) :
    v.lookup env name = w.lookup env name := by
  unfold World.lookup
  rw [h.forest]

theorem snapshot (h : w.Alike v) (env : EnvId) (block : Block) :
    (v.instantiate env block).2 = (w.instantiate env block).2 := by
  have hl : v.lookup env = w.lookup env := funext (h.lookup env)
  unfold instantiate captured? capture
  rw [h.captures, hl]
  split <;> rfl

theorem answer? (h : w.Alike v) (o : ObjectId) (message : Name) :
    v.answer? o message = w.answer? o message := by
  unfold World.answer? object vocabulary
  rw [h.objects, h.vocabularies]

theorem displayWithin (h : w.Alike v) (fuel : Nat) (x : Value) :
    v.displayWithin fuel x = w.displayWithin fuel x := by
  have hvocabulary : ∀ n, v.vocabulary n = w.vocabulary n := fun n => by
    unfold vocabulary
    rw [h.vocabularies]
  have hobject : ∀ o, v.object o = w.object o := fun o => by
    unfold object
    rw [h.objects]
  induction fuel generalizing x with
  | zero => cases x <;> simp only [World.displayWithin, hvocabulary, hobject, h.queue, h.name]
  | succ fuel ih =>
    cases x with
    | dataflow y =>
      simp only [World.displayWithin, h.value, h.name]
      cases (w.dataflow y).value with
      | some value => simp only [ih]
      | none => rfl
    | _ => simp only [World.displayWithin, hvocabulary, hobject, h.queue]

theorem display (h : w.Alike v) (x : Value) : v.display x = w.display x := by
  unfold World.display
  rw [h.variableCount, h.displayWithin]

theorem deadline? (h : w.Alike v) (delay : Nat) :
    v.scheduler.deadline? delay = w.scheduler.deadline? delay := by
  unfold Scheduler.deadline?
  rw [h.clock]

end Alike

theorem le_of_deadline? {s : Scheduler Task} {delay due : Nat} (h : s.deadline? delay = some due) :
    s.clock ≤ due := by
  unfold Scheduler.deadline? at h
  dsimp only at h
  split at h
  · cases h
    exact Nat.le_add_right _ _
  · cases h

end World

open World (Alike Alongside Together)

/-! ## Synchronous words -/

/-- The same result on both sides, and the worlds have gone on together. -/
structure Concurs {α : Type} (w v : World) (r r' : Except Error α × World) : Prop where
  result : r'.1 = r.1
  worlds : Alongside w v r.2 r'.2

section Actions

variable {α β : Type} {w v : World}

theorem Concurs.give (r : Except Error α) : Concurs w v (r, w) (r, v) := ⟨rfl, .refl⟩

theorem Concurs.operand {r r' : Except Error α} {f g : α → Action β} (hr : r' = r)
    (hf : ∀ a, Concurs w v ((f a).run w) ((g a).run v)) :
    Concurs w v ((liftM r >>= f : Action β).run w) ((liftM r' >>= g : Action β).run v) := by
  subst hr
  cases r' with
  | ok a => exact hf a
  | error e => exact .give _

theorem Concurs.look {f : World → Action β} (hf : Concurs w v ((f w).run w) ((f v).run v)) :
    Concurs w v ((MonadState.get >>= f : Action β).run w)
      ((MonadState.get >>= f : Action β).run v) := hf

theorem Concurs.update {f : World → World} {r : β} (hf : Alongside w v (f w) (f v)) :
    Concurs w v ((do modify f; return r : Action β).run w)
      ((do modify f; return r : Action β).run v) := ⟨rfl, hf⟩

theorem Concurs.make {f : World → World × α} {r : α → β} (hr : (f v).2 = (f w).2)
    (hf : Alongside w v (f w).1 (f v).1) :
    Concurs w v ((do return r (← modifyGet fun w => (f w).swap) : Action β).run w)
      ((do return r (← modifyGet fun w => (f w).swap) : Action β).run v) :=
  ⟨congrArg (fun a => Except.ok (r a)) hr, hf⟩

end Actions

section Words

variable {w v : World}

/-- A snapshot is the same on both sides, and so is what is done with it. -/
theorem World.Alike.snapshot_then (h : w.Alike v) (env : EnvId) (block : Block)
    {f : Bindings Value → Effect} (hf : ∀ b, (f b).OfStep w.scheduler.clock) :
    Alongside w v ((w.instantiate env block).1.apply (f (w.instantiate env block).2))
      ((v.instantiate env block).1.apply (f (v.instantiate env block).2)) := by
  rw [h.snapshot env block]
  exact (Alongside.one (e := .snapshot env block) rfl).after (hf _)

theorem spawn_snd (w : World) (env : EnvId) (block : Block) (parent : Option ProcessId) :
    (w.spawn env block parent).2 = ⟨w.processes.size⟩ := by
  rw [World.spawn_eq]
  exact congrArg ProcessId.mk (congrArg Table.size (w.processes_instantiate env block))

theorem StateWord.concurs_apply (word : StateWord) (env : EnvId) (s : Stack) (h : w.Alike v) :
    Concurs w v ((word.apply env s).run w) ((word.apply env s).run v) := by
  cases word with
  | define =>
    refine .operand rfl fun name => .operand rfl ?_
    rintro ⟨x, -, t⟩
    exact .update (.one (e := .define env name x) rfl)
  | defun =>
    refine .operand rfl fun name => .operand rfl fun block => .operand rfl fun t => .update ?_
    exact h.snapshot_then env block (f := fun _ => .defineWord env name (.defined block))
      fun _ => rfl
  | use =>
    refine .operand rfl fun n => .operand rfl fun t => .update ?_
    exact .one (e := .adopt env n) rfl
  | new =>
    refine .operand rfl fun n => .operand rfl fun t => .make (f := (·.newObject n)) ?_ ?_
    · exact congrArg (fun objects => ObjectId.mk objects.size) h.objects
    · exact .one (e := .newObject n) rfl
  | get =>
    refine .operand rfl fun key => .look (.operand rfl fun x => .operand ?_ fun found => ?_)
    · cases x with
      | object o => exact congrArg Except.ok (h.answer? o key)
      | vocabulary n =>
        exact congrArg (fun table => Except.ok ((table.get n.index).get? key)) h.vocabularies
      | _ => rfl
    · exact .operand rfl fun t => .give _
  | put =>
    refine .operand rfl fun key => .operand rfl fun o => .operand rfl ?_
    rintro ⟨x, -, -, t⟩
    exact .update (.one (e := .setProperty o key x) rfl)
  | go =>
    refine .operand rfl fun block => .operand rfl fun t => ?_
    refine .make (f := (·.spawn env block s.owner)) ?_ ?_
    · rw [spawn_snd, spawn_snd, h.processCount]
    · exact h.snapshot_then env block (f := (.spawn · block s.owner)) fun _ => rfl
  | isDone =>
    refine .operand rfl fun p => .operand rfl fun t => .look ?_
    rw [h.state p]
    exact .give _
  | post =>
    refine .look (.operand rfl fun x => .operand ?_ fun m => .operand rfl ?_)
    · cases x with
      | process p => exact congrArg Except.ok (h.mailbox p)
      | _ => rfl
    · rintro ⟨message, -, t⟩
      exact .update (.one (e := .deliver m message) rfl)
  | mailbox =>
    simp only [apply]
    cases s.owner with
    | none => exact .give _
    | some p =>
      refine .look ?_
      rw [h.mailbox p]
      exact .give _
  | dataflow =>
    refine .operand rfl fun name => .operand rfl fun t => .make (f := (·.newVariable name)) ?_ ?_
    · exact congrArg VariableId.mk h.variableCount
    · exact .one (e := .newVariable name) rfl
  | bind =>
    refine .operand rfl fun x => .operand rfl ?_
    rintro ⟨value, -, t⟩
    exact .update (.one (e := .bind x value) rfl)
  | isBound =>
    refine .operand rfl fun x => .operand rfl fun t => .look ?_
    rw [h.value x]
    exact .give _
  | print =>
    refine .operand rfl ?_
    rintro ⟨x, t⟩
    refine .update ?_
    simp only [h.display]
    exact .one (e := .print _) rfl
  | render =>
    refine .operand rfl ?_
    rintro ⟨x, t⟩
    refine .look ?_
    rw [h.display x]
    exact .give _

/-- **A synchronous word does the same in both worlds.** -/
theorem concurs_sync {p : Primitive} {send : World → EnvId → Stack → Continuation → World}
    {action : EnvId → Stack → Action Stack} (hp : p.callWith send = .sync action) (env : EnvId)
    (s : Stack) (h : w.Alike v) :
    Concurs w v ((action env s).run w) ((action env s).run v) := by
  obtain ⟨serial, name, behaviour⟩ := p
  cases behaviour with
  | pure word =>
    cases hp
    exact .give (word.apply s)
  | state word =>
    cases hp
    exact word.concurs_apply env s h
  | foreign word =>
    cases hp
    exact .give (word.apply s)
  | control word => cases word <;> cases hp
  | defined block => cases hp
  | foreignControl word => cases hp

/-! ## Words that take over control -/

theorem World.Alongside.operands {α : Type} (r : Except Error α) {k : Continuation}
    {next next' : α → World} (hf : ∀ a, Alongside w v (next a) (next' a)) :
    Alongside w v (w.withOperands k r next) (v.withOperands k r next') := by
  cases r with
  | ok a => exact hf a
  | error e => exact .resumeLater k _

theorem World.Alongside.startAwait (op : String) (s : Stack) (k : Continuation) :
    Alongside w v (ControlWord.startAwait op w s k) (ControlWord.startAwait op v s k) := by
  refine .operands _ ?_
  rintro ⟨target, t⟩
  cases target with
  | process p => exact .one (e := .awaitProcess p t k) rfl
  | dataflow x => exact .one (e := .awaitVariable x t k) rfl
  | _ => exact .resumeLater k _

namespace World.Alike

variable {env : EnvId} {s : Stack} {k : Continuation}

theorem activate (h : w.Alike v) (env : EnvId) (block : Block) (own : Option (Name × Value))
    (exit : Exit) (s : Stack) (k : Continuation) :
    Alongside w v (w.activate env block own exit s k) (v.activate env block own exit s k) :=
  h.snapshot_then env block (f := fun b => .later (.activate b own block exit s k)) fun _ => rfl

theorem repeatBlock (h : w.Alike v) (env : EnvId) (block : Block) (n : Nat) (s : Stack)
    (k : Continuation) :
    Alongside w v (w.repeatBlock env block n s k) (v.repeatBlock env block n s k) := by
  cases n with
  | zero => exact .resumeLater k _
  | succ n => exact h.activate env block none .leave s _

theorem resumeAfter (h : w.Alike v) (delay : Nat) (s : Stack) (k : Continuation) :
    Alongside w v (w.resumeAfter delay s k) (v.resumeAfter delay s k) := by
  unfold World.resumeAfter
  rw [h.deadline? delay]
  cases hd : w.scheduler.deadline? delay with
  | none => exact .resumeLater k _
  | some due =>
    exact .one (e := .schedule due (.resume k (.ok s))) ⟨World.le_of_deadline? hd, k, s, rfl⟩

theorem startPlain (h : w.Alike v) (word : ControlWord) (env : EnvId) (s : Stack)
    (k : Continuation) : Alongside w v (word.startPlain w env s k) (word.startPlain v env s k) := by
  cases word with
  | run => exact .operands _ fun (block, t) => h.activate env block none .leave t k
  | when =>
    refine .operands _ ?_
    rintro ⟨condition, block, t⟩
    cases condition with
    | true => exact h.activate env block none .leave t k
    | false => exact .resumeLater k _
  | choose => exact .operands _ fun (block, t) => h.activate env block none .leave t k
  | iterate => exact .operands _ fun (block, n, t) => h.repeatBlock env block n t k
  | vocab => exact .operands _ fun (block, t) => h.activate env block none .harvest t k
  | await => exact .startAwait _ s k
  | receive => exact .one (e := .receive s k) rfl
  | yield => exact .resumeLater k _
  | after => exact .operands _ fun (delay, t) => h.resumeAfter delay t k
  | send => exact .resumeLater k _

/-- Every word that takes over does the same in both worlds, if `send` does. -/
theorem callWith (h : w.Alike v) {p : Primitive}
    {send start : World → EnvId → Stack → Continuation → World}
    (hp : p.callWith send = .async start)
    (hsend : Alongside w v (send w env s k) (send v env s k)) :
    Alongside w v (start w env s k) (start v env s k) := by
  obtain ⟨serial, name, behaviour⟩ := p
  cases behaviour with
  | control word =>
    cases word with
    | send =>
      cases hp
      exact hsend
    | _ =>
      cases hp
      exact h.startPlain _ env s k
  | defined block =>
    cases hp
    exact h.activate env block _ .leave s k
  | foreignControl word =>
    cases hp
    cases word with
    | pauses => exact .resumeLater k _
    | swallows => exact .refl
    | stalls => exact .resumeLater k _
  | _ => cases hp

theorem startSend (h : w.Alike v) (env : EnvId) (s : Stack) (k : Continuation) :
    Alongside w v (ControlWord.startSend w env s k) (ControlWord.startSend v env s k) := by
  refine .operands _ ?_
  rintro ⟨o, message, t⟩
  dsimp only
  rw [h.answer? o message]
  cases w.answer? o message with
  | none =>
    have hreport : (Effect.report (sendReport message)).OfStep w.scheduler.clock :=
      .inr ⟨message, rfl⟩
    exact (Alongside.one hreport).after (e := .later (.resume k (.ok s))) rfl
  | some x =>
    cases x with
    | primitive p =>
      dsimp only
      cases hc : p.callWith (ControlWord.startPlain .send) with
      | async start => exact h.callWith hc (h.startPlain .send env _ k)
      | sync action =>
        obtain ⟨hresult, hworlds⟩ := concurs_sync hc env (t.push (.object o)) h
        have hlater := hworlds.after
          (e := .later (.resume k ((action env (t.push (.object o))).run w).1)) rfl
        show Alongside w v _ (World.resumeLater ((action env (t.push (.object o))).run v).2 k
          ((action env (t.push (.object o))).run v).1)
        rw [hresult]
        exact hlater
    | datum d =>
      cases d with
      | block id code => exact h.activate env ⟨id, code⟩ none .leave _ k
      | _ => exact .resumeLater k _
    | _ => exact .resumeLater k _

/-- **A word that takes over does the same in both worlds.** -/
theorem call (h : w.Alike v) {p : Primitive}
    {start : World → EnvId → Stack → Continuation → World} (hp : p.call = .async start)
    (env : EnvId) (s : Stack) (k : Continuation) :
    Alongside w v (start w env s k) (start v env s k) :=
  h.callWith hp (h.startSend env s k)

end World.Alike

end Words

/-! ## Steps -/

/-- The focus is at a word that nothing binds. -/
inductive Focus.Unresolved (w : World) : Focus → Prop
  | word {env : EnvId} {name : Name} (rest : Code) (s : Stack) (k : Option Continuation)
      (h : w.lookup env name = none) : Unresolved w (.run env (.word name :: rest) s k)

namespace World

variable {w v : World}

/-- What a word that nothing binds amounts to in a lax world. -/
theorem advance_of_lax {env : EnvId} {name : Name} (rest : Code) (s : Stack)
    (k : Option Continuation) (h : w.lookup env name = none) (hs : w.strict = false) :
    w.advance (.run env (.word name :: rest) s k) =
      (w.report (unresolvedReport name), .run env rest (s.push .nil) k) := by
  simp only [advance, advanceCode, decode, resolve, h, hs, Bool.false_eq_true, if_false]
  rfl

/-- What a word that nothing binds amounts to in a strict world. -/
theorem advance_of_strict {env : EnvId} {name : Name} (rest : Code) (s : Stack)
    (k : Option Continuation) (h : w.lookup env name = none) (hs : w.strict = true) :
    w.advance (.run env (.word name :: rest) s k) =
      (w.failTo (.unresolvedWord name) k, .done) := by
  simp only [advance, advanceCode, decode, resolve, h, hs, if_true]

theorem Alongside.failTo {w' v' : World} (h : Alongside w v w' v') (e : Error)
    (k : Option Continuation) : Alongside w v (w'.failTo e k) (v'.failTo e k) := by
  cases k with
  | some k => exact h.after (e := .later (.resume k (.error e))) rfl
  | none => exact h.after (ofStep_detached e _)

/-- A bound word does the same in both worlds. -/
theorem Alike.advanceWord (h : w.Alike v) {env : EnvId} {name : Name} {x : Value}
    (hx : w.lookup env name = some x) (rest : Code) (s : Stack) (k : Option Continuation) :
    (v.advanceCode env (.word name) rest s k).2 = (w.advanceCode env (.word name) rest s k).2 ∧
      Alongside w v (w.advanceCode env (.word name) rest s k).1
        (v.advanceCode env (.word name) rest s k).1 := by
  have hv : v.lookup env name = some x := (h.lookup env name).trans hx
  simp only [advanceCode, decode, resolve, hx, hv]
  cases x with
  | primitive p =>
    dsimp only
    cases hc : p.call with
    | async start => exact ⟨rfl, h.call hc env s _⟩
    | sync action =>
      have hcall := concurs_sync hc env s h
      dsimp only
      generalize (action env s).run w = r at hcall
      generalize (action env s).run v = r' at hcall
      obtain ⟨outcome, u⟩ := r
      obtain ⟨outcome', u'⟩ := r'
      obtain ⟨rfl, hworlds⟩ := hcall
      cases outcome' with
      | ok t => exact ⟨rfl, hworlds⟩
      | error e => exact ⟨rfl, hworlds.failTo e k⟩
  | _ => exact ⟨rfl, .refl⟩

/-- Leaving a scope is the same in both worlds. -/
theorem Alike.exitScope (h : w.Alike v) (kind : Exit) (guard : Guard) (outcome : Outcome) :
    (v.exitScope kind guard outcome).2 = (w.exitScope kind guard outcome).2 ∧
      Alongside w v (w.exitScope kind guard outcome).1 (v.exitScope kind guard outcome).1 := by
  cases kind with
  | leave => exact ⟨rfl, .one (e := .restore guard) rfl⟩
  | harvest =>
    cases outcome with
    | error e => exact ⟨rfl, .one (e := .restore guard) rfl⟩
    | ok s =>
      refine ⟨?_, .one (e := .harvest guard) rfl⟩
      exact congrArg (fun table => Except.ok (s.push (.vocabulary ⟨table.size⟩))) h.vocabularies

/-- **In worlds that look alike the machine takes the same step**, except at a word that nothing
binds. -/
theorem together_advance (h : w.Alike v) {f : Focus} (hf : ¬f.Unresolved w) :
    (v.advance f).2 = (w.advance f).2 ∧ Together w v (w.advance f).1 (v.advance f).1 := by
  cases f with
  | done => exact ⟨rfl, .effects .refl⟩
  | tell tag value => exact ⟨rfl, .told tag value⟩
  | run env code s k =>
    cases code with
    | nil =>
      cases k with
      | some k => exact ⟨rfl, .effects (.resumeLater k _)⟩
      | none => exact ⟨rfl, .effects .refl⟩
    | cons d rest =>
      cases d with
      | word name =>
        cases hx : w.lookup env name with
        | none => exact absurd (.word rest s k hx) hf
        | some x =>
          obtain ⟨hfocus, hworlds⟩ := h.advanceWord hx rest s k
          exact ⟨hfocus, .effects hworlds⟩
      | block id body => exact ⟨rfl, .effects (.one (e := .snapshot env ⟨id, body⟩) rfl)⟩
      | _ => exact ⟨rfl, .effects .refl⟩
  | resume k outcome =>
    obtain ⟨frames, sink⟩ := k
    cases frames with
    | nil =>
      cases sink with
      | slot index => exact ⟨rfl, .effects (.one (e := .fillSlot index outcome) rfl)⟩
      | finish p => exact ⟨rfl, .effects (.one (e := .finish p outcome) rfl)⟩
      | report tag => exact ⟨rfl, .resumed tag outcome⟩
      | detached env code =>
        cases outcome with
        | ok s => exact ⟨rfl, .effects .refl⟩
        | error e => exact ⟨rfl, .effects (.one (ofStep_detached e _))⟩
    | cons frame frames =>
      cases frame with
      | resume env code => cases outcome <;> exact ⟨rfl, .effects .refl⟩
      | exit kind guard =>
        obtain ⟨houtcome, hworlds⟩ := h.exitScope kind guard outcome
        exact ⟨congrArg (Focus.resume ⟨frames, sink⟩) houtcome, .effects hworlds⟩
      | again env block n =>
        cases outcome with
        | ok s => exact ⟨rfl, .effects (h.repeatBlock env block n s _)⟩
        | error e => exact ⟨rfl, .effects .refl⟩

/-! ## What a step leaves behind -/

/-- No task of the embedding program is queued. -/
structure Scriptless (w : World) : Prop where
  ready : ∀ task ∈ w.scheduler.ready, task.isScript = false
  timers : ∀ timer ∈ w.scheduler.timers, timer.task.isScript = false

theorem scriptless_iff (w : World) :
    w.Scriptless ↔ Holders (fun _ _ => True) (·.isScript = false) (fun _ _ => True) w :=
  ⟨fun h => .of_mem h.ready h.timers (fun _ _ _ => trivial) fun _ _ _ => trivial,
    fun h => ⟨h.ready, h.timers⟩⟩

theorem Scriptless.apply (h : w.Scriptless) {e : Effect} (he : e.queuesScript = false) :
    (w.apply e).Scriptless := by
  refine (scriptless_iff _).2 (((scriptless_iff _).1 h).apply ?_ ?_)
  · exact ⟨fun _ _ _ => rfl, fun _ _ _ _ => rfl, fun _ => rfl⟩
  · cases e with
    | later | schedule => exact he
    | spawn => exact rfl
    | awaitVariable | awaitProcess => exact ⟨fun _ _ => rfl, trivial⟩
    | receive => exact ⟨fun _ _ _ _ => rfl, fun _ _ => rfl, fun _ _ => trivial⟩
    | _ => exact trivial

theorem Scriptless.together (h : w.Scriptless) {w' v' : World} (ht : Together w v w' v') :
    w'.Scriptless := by
  cases ht with
  | told | resumed => exact ⟨h.ready, h.timers⟩
  | effects hes =>
    obtain ⟨es, hes⟩ := hes
    generalize w.scheduler.clock = clock at hes
    induction es generalizing w with
    | nil => exact h
    | cons e es ih =>
      obtain ⟨he, hes⟩ := List.forall_mem_cons.1 hes
      exact ih (h.apply he.queuesScript) hes

theorem Scriptless.advance (h : w.Scriptless) (f : Focus) : (w.advance f).1.Scriptless := by
  by_cases hf : f.Unresolved w
  · obtain ⟨rest, s, k, hl⟩ := hf
    cases hs : w.strict with
    | false =>
      rw [advance_of_lax rest s k hl hs]
      exact ⟨h.ready, h.timers⟩
    | true =>
      rw [advance_of_strict rest s k hl hs]
      exact h.together (v := w) (.effects (Alongside.refl.failTo _ k))
  · exact h.together (together_advance (.refl w) hf).2

theorem Scriptless.embark (h : w.Scriptless) {task : Task} (ht : task.isScript = false) :
    (w.embark task).1.Scriptless := by
  cases task with
  | resume k outcome => exact h
  | activate captured own block exit s k => exact h.apply (e := .enter captured own block) rfl
  | start p code s => exact h.apply (e := .markRunning p) rfl
  | wakeReceiver m waker =>
    cases waker with
    | resume epoch s k => exact h.apply (e := .wakeReceiver m (.resume epoch s k)) rfl
    | report tag =>
      rw [World.embark]
      cases (w.mailbox m).take? with
      | some taken => exact ⟨h.ready, h.timers⟩
      | none => exact h.apply (e := .wakeReceiver m (.report tag)) rfl
  | wakeWaiter waker value => cases waker <;> exact h
  | script commands => cases ht

/-- What every step of the machine keeps holds wherever it comes to. -/
theorem Reaches.induct {I : World → Prop} (hstep : ∀ u f, I u → I (u.advance f).1)
    {p q : World × Focus} (hr : Reaches p q) (h : I p.1) : I q.1 := by
  obtain ⟨n, rfl⟩ := hr
  induction n with
  | zero => exact h
  | succ n ih =>
    rw [Function.iterate_succ_apply']
    exact hstep _ _ ih

theorem Scriptless.reaches {p q : World × Focus} (h : p.1.Scriptless) (hr : Reaches p q) :
    q.1.Scriptless := hr.induct (fun _ f hu => hu.advance f) h

theorem Scriptless.turn (h : w.Scriptless) {task : Task} {rest : List Task}
    (hr : w.scheduler.ready = task :: rest) : (w.turn task rest).Scriptless := by
  obtain ⟨ht, hrest⟩ := List.forall_mem_cons.1 (hr ▸ h.ready)
  have hbegun : (w.mapScheduler (·.beginTurn rest)).Scriptless := ⟨hrest, h.timers⟩
  have hend := (hbegun.embark ht).reaches (reaches_perform _ task)
  exact ⟨hend.ready, hend.timers⟩

theorem Scriptless.tick (h : w.Scriptless) : w.tick.Scriptless :=
  tick_induct h (fun _ _ _ hv => hv.apply rfl) fun _ hv => hv.apply rfl

theorem Scriptless.proceed (h : w.Scriptless) : w.proceed.Scriptless := by
  cases hr : w.scheduler.ready with
  | nil => rwa [proceed_of_nil hr]
  | cons task rest =>
    rw [proceed_of_cons hr]
    exact (h.turn hr).tick

end World

end Catena
