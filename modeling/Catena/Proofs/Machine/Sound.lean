import Catena.Proofs.Machine.Definitions
import Catena.Proofs.Machine.Holders
import Catena.Proofs.Machine.Moment

/-!
# Sound worlds

In the worlds that evaluations lead to, every reference points to a process or a variable that has
been made, every word is built in or defined in the language, and every continuation is the rest of
a thread that exists. `Sound r w` says this of all values that `w` holds, with `r` as the world that
references point into; `r` grows while `w` changes. One lemma says what an effect keeps
(`Sound.apply`), one says that the steps of a run have sound effects (`Does.sound`), and together
they say that every moment of a run is sound (`Run.sound`).
-/

namespace Catena

/-! ## Sound data -/

/-- A value that refers to nothing that is not there. -/
def Value.Sound (r : World) : Value → Prop
  | .primitive p => p.behaviour.isNative = true
  | .process p => p.index < r.processes.size
  | .dataflow v => v.index < r.dataflows.size
  | _ => True

/-- A process that owns a stack exists. -/
def World.OwnerExists (r : World) (owner : Option ProcessId) : Prop :=
  ∀ p, owner = some p → p.index < r.processes.size

/-- A stack of sound values. -/
structure Stack.Sound (r : World) (s : Stack) : Prop where
  owner : r.OwnerExists s.owner
  items : ∀ v ∈ s.items, v.Sound r

theorem Stack.Sound.empty (r : World) : Stack.empty.Sound r :=
  ⟨fun _ hp => (nomatch hp), fun _ hv => (nomatch hv)⟩

/-- A thread that has begun. -/
def Thread.Exists (r : World) : Thread → Prop
  | .main slot => slot < r.slots.size
  | .process p => p.index < r.processes.size

/-- The rest of a thread that exists. -/
def Continuation.Sound (r : World) (k : Continuation) : Prop :=
  ∃ t, k.thread? = some t ∧ t.Exists r

/-- A sound stack, or a failure of the program. -/
def World.Fits (r : World) : Outcome → Prop
  | .ok s => s.Sound r
  | .error e => e.ofProgram = true

/-- A thread that waits in a cell. -/
def Waker.Sound (r : World) : Waker → Prop
  | .resume _ s k => s.Sound r ∧ k.Sound r
  | .report _ => False

/-- One who waits in a mailbox does so for the process that owns its stack. -/
def Waker.IsFor (m : MailboxId) : Waker → Prop
  | .resume _ s _ => s.owner = some ⟨m.index⟩
  | .report _ => False

/-- A thread that waits in a cell where it may. -/
def Cell.Holds (r : World) : Cell → Waker → Prop
  | .mailbox m, waker => waker.Sound r ∧ waker.IsFor m
  | _, waker => waker.Sound r

/-- A task that goes on with a thread. -/
def Task.Sound (r : World) : Task → Prop
  | .resume k outcome => k.Sound r ∧ r.Fits outcome
  | .activate captured own _ _ s k =>
    captured.All (Value.Sound r) ∧ (∀ name v, own = some (name, v) → v.Sound r) ∧ s.Sound r ∧
      k.Sound r
  | .start p _ s => p.index < r.processes.size ∧ s.Sound r
  | .wakeReceiver m waker => waker.Sound r ∧ waker.IsFor m
  | .wakeWaiter waker value => waker.Sound r ∧ value.Sound r
  | .script _ => False

/-- What goes on inside a turn. -/
def Control.Sound (r : World) : Control → Prop
  | .rest => True
  | .run _ _ s k => s.Sound r ∧ k.Sound r
  | .resume k outcome => k.Sound r ∧ r.Fits outcome

/-- What an effect brings into the world. -/
def Effect.Sound (r : World) : Effect → Prop
  | .define _ _ v | .setProperty _ _ v | .deliver _ v | .bind _ v => v.Sound r
  | .defineWord _ _ behaviour => behaviour.isNative = true
  | .spawn captured _ parent => captured.All (Value.Sound r) ∧ r.OwnerExists parent
  | .later task | .schedule _ task => task.Sound r
  | .awaitVariable v s k => v.index < r.dataflows.size ∧ s.Sound r ∧ k.Sound r
  | .awaitProcess p s k => p.index < r.processes.size ∧ s.Sound r ∧ k.Sound r
  | .receive s k => s.Sound r ∧ k.Sound r
  | .fillSlot index outcome => index < r.slots.size ∧ r.Fits outcome
  | .finish p outcome => p.index < r.processes.size ∧ r.Fits outcome
  | .enter captured own _ =>
    captured.All (Value.Sound r) ∧ ∀ name v, own = some (name, v) → v.Sound r
  | .wakeWaiter waker => waker.Sound r
  | .wakeReceiver m waker => waker.Sound r ∧ waker.IsFor m
  | _ => True

/-- All that is defined in a world is sound. -/
structure World.SoundDefinitions (r w : World) : Prop where
  forest : w.forest.All (Value.Sound r)
  captures : w.captures.All fun _ captured => ∀ b, captured = some b → b.All (Value.Sound r)
  vocabularies : w.vocabularies.All fun _ b => b.All (Value.Sound r)
  objects : w.objects.All fun _ object => object.properties.All (Value.Sound r)

/-- All that a world holds is sound. -/
structure World.Sound (r w : World) : Prop extends r.SoundDefinitions w where
  cells : Holders (fun _ => Value.Sound r) (Task.Sound r) (Cell.Holds r) w
  outcomes : w.slots.All fun _ slot => ∀ outcome, slot = some outcome → r.Fits outcome
  matched : w.Matched

/-! ## References stay good -/

/-- Everything that exists in `r` exists in `r'`. -/
structure World.Grows (r r' : World) : Prop where
  processes : r.processes.size ≤ r'.processes.size
  dataflows : r.dataflows.size ≤ r'.dataflows.size
  slots : r.slots.size ≤ r'.slots.size

section Mono

variable {r r' : World} (h : r.Grows r')

include h

theorem Value.Sound.mono {v : Value} (hv : v.Sound r) : v.Sound r' := by
  cases v with
  | process p => exact Nat.lt_of_lt_of_le hv h.processes
  | dataflow v => exact Nat.lt_of_lt_of_le hv h.dataflows
  | primitive p => exact hv
  | _ => exact trivial

theorem World.OwnerExists.mono {owner : Option ProcessId} (ho : r.OwnerExists owner) :
    r'.OwnerExists owner := fun p hp => Nat.lt_of_lt_of_le (ho p hp) h.processes

theorem Stack.Sound.mono {s : Stack} (hs : s.Sound r) : s.Sound r' :=
  ⟨hs.owner.mono h, fun v hv => (hs.items v hv).mono h⟩

theorem Thread.Exists.mono {t : Thread} (ht : t.Exists r) : t.Exists r' := by
  cases t with
  | main slot => exact Nat.lt_of_lt_of_le ht h.slots
  | process p => exact Nat.lt_of_lt_of_le ht h.processes

theorem Continuation.Sound.mono {k : Continuation} (hk : k.Sound r) : k.Sound r' := by
  obtain ⟨t, hk, ht⟩ := hk
  exact ⟨t, hk, ht.mono h⟩

theorem World.Fits.mono {outcome : Outcome} (ho : r.Fits outcome) : r'.Fits outcome := by
  cases outcome with
  | ok s => exact Stack.Sound.mono h ho
  | error e => exact ho

theorem Waker.Sound.mono {waker : Waker} (hw : waker.Sound r) : waker.Sound r' := by
  cases waker with
  | resume epoch s k => exact ⟨hw.1.mono h, hw.2.mono h⟩
  | report tag => exact hw

theorem Cell.Holds.mono {c : Cell} {waker : Waker} (hk : c.Holds r waker) : c.Holds r' waker := by
  cases c with
  | mailbox m => exact ⟨hk.1.mono h, hk.2⟩
  | _ => exact Waker.Sound.mono h hk

theorem Bindings.All.mono {b : Bindings Value} (hb : b.All (Value.Sound r)) :
    b.All (Value.Sound r') := hb.imp fun _ hv => hv.mono h

theorem Task.Sound.mono {task : Task} (ht : task.Sound r) : task.Sound r' := by
  cases task with
  | resume k outcome => exact ⟨ht.1.mono h, ht.2.mono h⟩
  | activate captured own block exit s k =>
    obtain ⟨hc, ho, hs, hk⟩ := ht
    exact ⟨hc.mono h, fun name v hv => (ho name v hv).mono h, hs.mono h, hk.mono h⟩
  | start p code s => exact ⟨Nat.lt_of_lt_of_le ht.1 h.processes, ht.2.mono h⟩
  | wakeReceiver m waker => exact ⟨ht.1.mono h, ht.2⟩
  | wakeWaiter waker value => exact ⟨ht.1.mono h, ht.2.mono h⟩
  | script commands => exact ht

theorem Control.Sound.mono {c : Control} (hc : c.Sound r) : c.Sound r' := by
  cases c with
  | rest => exact trivial
  | run env code s k => exact ⟨hc.1.mono h, hc.2.mono h⟩
  | resume k outcome => exact ⟨hc.1.mono h, hc.2.mono h⟩

theorem Effect.Sound.mono {e : Effect} (he : e.Sound r) : e.Sound r' := by
  cases e with
  | define | setProperty | deliver | bind => exact Value.Sound.mono h he
  | spawn captured block parent => exact ⟨he.1.mono h, he.2.mono h⟩
  | later | schedule => exact Task.Sound.mono h he
  | awaitVariable v s k =>
    exact ⟨Nat.lt_of_lt_of_le he.1 h.dataflows, he.2.1.mono h, he.2.2.mono h⟩
  | awaitProcess p s k =>
    exact ⟨Nat.lt_of_lt_of_le he.1 h.processes, he.2.1.mono h, he.2.2.mono h⟩
  | receive s k => exact ⟨he.1.mono h, he.2.mono h⟩
  | fillSlot index outcome => exact ⟨Nat.lt_of_lt_of_le he.1 h.slots, he.2.mono h⟩
  | finish p outcome => exact ⟨Nat.lt_of_lt_of_le he.1 h.processes, he.2.mono h⟩
  | enter captured own block =>
    exact ⟨he.1.mono h, fun name v hv => (he.2 name v hv).mono h⟩
  | wakeWaiter waker => exact Waker.Sound.mono h he
  | wakeReceiver m waker => exact ⟨he.1.mono h, he.2⟩
  | _ => exact he

theorem World.Sound.mono {w : World} (hw : r.Sound w) : r'.Sound w where
  forest := hw.forest.imp fun _ _ hs => hs.mono h
  captures := hw.captures.imp fun _ _ hc b hb => (hc b hb).mono h
  vocabularies := hw.vocabularies.imp fun _ _ hb => hb.mono h
  objects := hw.objects.imp fun _ _ hb => hb.mono h
  cells := hw.cells.imp (fun _ _ hv => hv.mono h) (fun _ ht => ht.mono h) fun _ _ hk => hk.mono h
  outcomes := hw.outcomes.imp fun _ _ hs outcome ho => (hs outcome ho).mono h
  matched := hw.matched

end Mono

namespace World

theorem Grows.of_sameCells {w w' : World} (h : w.SameCells w') : w.Grows w' where
  processes := (congrArg Table.size h.processes).ge
  dataflows := (congrArg Table.size h.dataflows).ge
  slots := (congrArg Table.size h.slots).ge

theorem Grows.of_queues {w w' : World} {ts : List Task} (h : w.Queues ts w') : w.Grows w' where
  processes := (congrArg Table.size h.processes).ge
  dataflows := (congrArg Table.size h.dataflows).ge
  slots := (congrArg Table.size h.slots).ge

theorem Grows.refl (w : World) : w.Grows w := .of_sameCells (.refl w)

theorem Grows.trans {w w' w'' : World} (h : w.Grows w') (h' : w'.Grows w'') : w.Grows w'' :=
  ⟨h.processes.trans h'.processes, h.dataflows.trans h'.dataflows, h.slots.trans h'.slots⟩

theorem grows_modifyProcess (w : World) (p : ProcessId) (f : Process → Process) :
    w.Grows (w.modifyProcess p f) := ⟨(Table.size_modify _ _ _).ge, le_rfl, le_rfl⟩

theorem grows_modifyVariable (w : World) (v : VariableId) (f : Variable → Variable) :
    w.Grows (w.modifyVariable v f) := ⟨le_rfl, (Table.size_modify _ _ _).ge, le_rfl⟩

theorem grows_setMailbox (w : World) (m : MailboxId) (mailbox : Mailbox) :
    w.Grows (w.setMailbox m mailbox) := ⟨le_rfl, le_rfl, le_rfl⟩

theorem grows_apply (w : World) (e : Effect) : w.Grows (w.apply e) := by
  by_cases hquiet : e.isQuiet = true
  · exact .of_sameCells (w.sameCells_apply hquiet)
  by_cases htouch : e.touches = true
  · cases w.touches_apply htouch with
    | queue hw => exact .of_queues hw
    | dataflow _ hw => exact (w.grows_modifyVariable _ _).trans (.of_queues hw)
    | process _ _ hw => exact (w.grows_modifyProcess _ _).trans (.of_queues hw)
    | mailbox _ hw => exact (w.grows_setMailbox _ _).trans (.of_queues hw)
  cases e with
  | spawn captured block parent => exact ⟨(Table.size_lt_size_push _ _).le, le_rfl, le_rfl⟩
  | newVariable name => exact ⟨le_rfl, (Table.size_lt_size_push _ _).le, le_rfl⟩
  | fillSlot index outcome => exact ⟨le_rfl, le_rfl, (Table.size_set _ _ _).ge⟩
  | launch strict program => exact ⟨le_rfl, le_rfl, (Table.size_lt_size_push _ _).le⟩
  | schedule | beginTurn | settle | discard => exact ⟨le_rfl, le_rfl, le_rfl⟩
  | _ => first | exact absurd rfl hquiet | exact absurd rfl htouch

/-! ## What effects keep -/

theorem Sound.empty (r : World) : r.Sound {} where
  forest := Table.All.empty
  captures := .empty
  vocabularies := .empty
  objects := .empty
  cells := .empty
  outcomes := .empty
  matched := ⟨rfl, .empty⟩

namespace SoundDefinitions

variable {r w : World}

theorem all (h : r.SoundDefinitions w) : w.Definitions (Value.Sound r) :=
  ⟨h.forest, h.captures, h.vocabularies, h.objects⟩

theorem lookup (h : r.SoundDefinitions w) {env : EnvId} {name : Name} {v : Value}
    (hv : w.lookup env name = some v) : v.Sound r := h.all.lookup hv

theorem vocabulary (h : r.SoundDefinitions w) (v : VocabularyId) :
    (w.vocabulary v).All (Value.Sound r) := h.all.vocabulary v

theorem answer (h : r.SoundDefinitions w) {o : ObjectId} {key : Name} {v : Value}
    (hv : w.answer? o key = some v) : v.Sound r := h.all.answer hv

theorem captured (h : r.SoundDefinitions w) (env : EnvId) (block : Block) :
    (w.instantiate env block).2.All (Value.Sound r) := h.all.captured env block

/-- Effects that bring in sound definitions keep them sound. -/
theorem apply {e : Effect} (h : r.SoundDefinitions w) (he : e.Sound r) :
    r.SoundDefinitions (w.apply e) := by
  have hd : e.Defines (Value.Sound r) := by
    cases e with
    | define | setProperty | enter => exact he
    | defineWord env name behaviour => exact fun _ => he
    | spawn captured block parent => exact he.1
    | install => exact fun p hp => p.behaviour.isNative_of_isBuiltin hp
    | _ => exact trivial
  have ha := h.all.apply hd
  exact ⟨ha.forest, ha.captures, ha.vocabularies, ha.objects⟩

end SoundDefinitions

/-- What a process leaves is sound. -/
theorem Fits.resultOf {r : World} {outcome : Outcome} (h : r.Fits outcome) :
    (resultOf outcome).Sound r := by
  cases outcome with
  | error e => exact trivial
  | ok s =>
    simp only [World.resultOf, Stack.top?]
    cases hs : s.items with
    | nil => exact trivial
    | cons v rest => exact Stack.Sound.items h v (by simp [hs])

theorem Fits.push {r : World} {s : Stack} (h : s.Sound r) {v : Value} (hv : v.Sound r) :
    r.Fits (.ok (s.push v)) := by
  refine ⟨h.owner, fun u hu => ?_⟩
  rcases List.mem_cons.1 hu with rfl | hu
  · exact hv
  · exact h.items u hu

/-- What a cell releases is sound. -/
theorem passes_sound (r w : World) :
    Passes (fun _ => Value.Sound r) (Task.Sound r) (Cell.Holds r) w where
  waiter hk _ hv := ⟨hk, hv⟩
  joiner _ hk _ hv := ⟨hk.2, .push hk.1 hv⟩
  receiver hk := hk

theorem sound_firstStack {r : World} {p : ProcessId} (h : p.index < r.processes.size)
    {parent : Option ProcessId} (hp : r.OwnerExists parent) : (firstStack parent p).Sound r := by
  have hown : (Stack.ownedBy p).Sound r :=
    ⟨fun q hq => by cases hq; exact h, fun v hv => by cases hv⟩
  cases parent with
  | none => exact Fits.push (Fits.push hown (v := .nil) trivial) (v := .process p) h
  | some parent =>
    exact Fits.push (Fits.push hown (v := .process parent) (hp parent rfl)) (v := .process p) h

/-- An effect that brings sound things in brings them to cells. -/
theorem brings_sound {w : World} {e : Effect} (he : e.Sound w) (hm : w.Matched) :
    e.Brings (fun _ => Value.Sound (w.apply e)) (Task.Sound (w.apply e)) (Cell.Holds (w.apply e)) w := by
  have he' := he.mono (w.grows_apply e)
  cases e with
  | spawn captured block parent =>
    have hself : w.processes.size < (w.apply (.spawn captured block parent)).processes.size := by
      exact Table.size_lt_size_push _ _
    exact ⟨hself, sound_firstStack hself he'.2⟩
  | awaitVariable | awaitProcess => exact ⟨fun value hv => ⟨he'.2.2, .push he'.2.1 hv⟩, he'.2⟩
  | receive s k =>
    refine ⟨fun _ value _ hv => ⟨he'.2, .push he'.1 hv⟩, fun e hf => ⟨he'.2, hf⟩, fun p hp => ⟨he', ?_⟩⟩
    rw [hm.mailbox (he.1.owner p hp)]
    exact hp
  | finish p outcome => exact he'.2.resultOf
  | later | schedule | deliver | bind | wakeReceiver => exact he'
  | _ => exact trivial

/-- Outcomes that are delivered are sound. -/
theorem Sound.outcomes_apply {r w : World} {e : Effect} (h : r.Sound w) (he : e.Sound r) :
    (w.apply e).slots.All fun _ slot => ∀ outcome, slot = some outcome → r.Fits outcome := by
  by_cases hkeep : e.keepsSlots = true
  · rw [w.slots_apply hkeep]
    exact h.outcomes
  cases e with
  | fillSlot index outcome =>
    refine h.outcomes.set fun _ ho => ?_
    cases ho
    exact he.2
  | launch strict program => exact h.outcomes.push fun _ ho => by cases ho
  | _ => exact absurd rfl hkeep

/-- **Effects that bring in sound things keep a world sound.** -/
theorem Sound.apply {w : World} {e : Effect} (h : w.Sound w) (he : e.Sound w) :
    (w.apply e).Sound (w.apply e) := by
  have hg := h.mono (w.grows_apply e)
  exact ⟨hg.toSoundDefinitions.apply (he.mono (w.grows_apply e)),
    hg.cells.apply (passes_sound _ _) (brings_sound he h.matched),
    hg.outcomes_apply (he.mono (w.grows_apply e)), h.matched.apply e⟩

/-- A message that is handed out is sound. -/
theorem Sound.offer {r w : World} (h : r.Sound w) {m : MailboxId} {epoch : Nat} {waker : Waker}
    {message : Value} (ho : (w.offer m epoch waker).2 = some message) : message.Sound r := by
  obtain ⟨⟨rest, ht⟩, -⟩ := take?_of_offer ho
  exact (h.cells.take ht).1

/-- Every one of a sequence of effects brings sound things into the world it happens to. -/
def Admits (w : World) : List Effect → Prop
  | [] => True
  | e :: es => e.Sound w ∧ (w.apply e).Admits es

theorem admits_append {w : World} {es fs : List Effect} (h : w.Admits es)
    (h' : (w.replay es).Admits fs) : w.Admits (es ++ fs) := by
  induction es generalizing w with
  | nil => exact h'
  | cons e es ih => exact ⟨h.1, ih h.2 h'⟩

/-- What is sound before stays so while effects happen. -/
theorem admits_of_forall {w : World} {es : List Effect} (h : ∀ e ∈ es, e.Sound w) :
    w.Admits es := by
  induction es generalizing w with
  | nil => exact trivial
  | cons e es ih =>
    obtain ⟨he, hes⟩ := List.forall_mem_cons.1 h
    exact ⟨he, ih fun e' he' => (hes e' he').mono (w.grows_apply e)⟩

theorem grows_replay (w : World) (es : List Effect) : w.Grows (w.replay es) :=
  replay_induct (.refl w) fun v e _ hv => hv.trans (v.grows_apply e)

theorem Sound.replay {w : World} {es : List Effect} (h : w.Sound w) (he : w.Admits es) :
    (w.replay es).Sound (w.replay es) := by
  induction es generalizing w with
  | nil => exact h
  | cons e es ih => exact ih (h.apply he.1) he.2

/-! ## What words bring in -/

variable {w : World} {s t : Stack}

theorem Yields.sound {v : Value} (hv : w.Yields s v) (h : w.Sound w) (hs : s.Sound w) :
    v.Sound w := by
  cases hv with
  | kept hm => exact hs.items v hm
  | plain hd => exact trivial
  | self ho => exact hs.owner _ ho
  | mailbox ho => exact trivial
  | property ha => exact h.answer ha
  | binding hb => exact h.vocabulary _ _ _ hb

theorem Derives.sound (ht : w.Derives s t) (h : w.Sound w) (hs : s.Sound w) : t.Sound w :=
  ⟨ht.owner ▸ hs.owner, fun v hv => (ht.items v hv).sound h hs⟩

theorem Concludes.fits {outcome : Outcome} (hc : w.Concludes s outcome) (h : w.Sound w)
    (hs : s.Sound w) : w.Fits outcome := by
  cases outcome with
  | ok t => exact Derives.sound hc h hs
  | error e => exact hc

theorem Callable.isNative {env : EnvId} {p : Primitive} (hp : w.Callable env p) (h : w.Sound w) :
    p.behaviour.isNative = true := by
  cases hp with
  | bound hv => exact h.lookup hv
  | found ha => exact h.answer ha

end World

variable {w : World} {env : EnvId} {s : Stack}

theorem SyncEffects.sound {es : List Effect} {outcome : Outcome}
    (he : SyncEffects env s w es outcome) (h : w.Sound w) (hs : s.Sound w) :
    w.Admits es ∧ (w.replay es).Fits outcome := by
  have keep : ∀ {t} (es : List Effect), w.Derives s t → (w.replay es).Fits (.ok t) :=
    fun es ht => Stack.Sound.mono (w.grows_replay es) (ht.sound h hs)
  cases he with
  | fail he => exact ⟨trivial, he⟩
  | compute ht => exact ⟨trivial, keep [] ht⟩
  | print line ht => exact ⟨⟨trivial, trivial⟩, keep _ ht⟩
  | define name hv ht => exact ⟨⟨hs.items _ hv, trivial⟩, keep _ ht⟩
  | defun name hb ht => exact ⟨⟨trivial, rfl, trivial⟩, keep _ ht⟩
  | adopt hv ht => exact ⟨⟨trivial, trivial⟩, keep _ ht⟩
  | newObject hv ht => exact ⟨⟨trivial, trivial⟩, World.Fits.push (keep _ ht) trivial⟩
  | setProperty key ho hv ht => exact ⟨⟨hs.items _ hv, trivial⟩, keep _ ht⟩
  | spawn hb ht =>
    rename_i block t
    refine ⟨World.admits_of_forall ?_, World.Fits.push (keep _ ht) ?_⟩
    · simp only [List.mem_cons, List.not_mem_nil, or_false, forall_eq_or_imp, forall_eq]
      exact ⟨trivial, h.captured env block, hs.owner⟩
    · show w.processes.size < ((w.instantiate env block).1.processes.push _).size
      rw [w.processes_instantiate env block, Table.size_push]
      exact Nat.lt_succ_self _
  | deliver hm hv ht => exact ⟨⟨hs.items _ hv, trivial⟩, keep _ ht⟩
  | newVariable name ht =>
    refine ⟨⟨trivial, trivial⟩, World.Fits.push (keep _ ht) ?_⟩
    exact Table.size_lt_size_push _ _
  | bind hd hv ht => exact ⟨⟨hs.items _ hv, trivial⟩, keep _ ht⟩

theorem AsyncEffects.sound {k : Continuation} {es : List Effect} (he : AsyncEffects env s k w es)
    (h : w.Sound w) (hs : s.Sound w) (hk : k.Sound w) : w.Admits es := by
  cases he with
  | resume ho => exact ⟨⟨hk, ho.fits h hs⟩, trivial⟩
  | report message ht =>
    refine World.admits_of_forall (List.forall_mem_cons.2 ⟨trivial, List.forall_mem_singleton.2 ?_⟩)
    exact ⟨hk, ht.sound h hs⟩
  | activate exit hb ht =>
    refine World.admits_of_forall (List.forall_mem_cons.2 ⟨trivial, List.forall_mem_singleton.2 ?_⟩)
    exact ⟨h.captured env _, fun _ _ hn => (nomatch hn), ht.sound h hs, hk⟩
  | iterate n hb ht =>
    refine World.admits_of_forall (List.forall_mem_cons.2 ⟨trivial, List.forall_mem_singleton.2 ?_⟩)
    exact ⟨h.captured env _, fun _ _ hn => (nomatch hn), ht.sound h hs, hk⟩
  | callWord hp hb ht =>
    refine World.admits_of_forall (List.forall_mem_cons.2 ⟨trivial, List.forall_mem_singleton.2 ?_⟩)
    refine ⟨h.captured env _, fun name v hn => ?_, ht.sound h hs, hk⟩
    cases hn
    exact hp.isNative h
  | awaitVariable hv ht => exact ⟨⟨hv.sound h hs, ht.sound h hs, hk⟩, trivial⟩
  | awaitProcess hp ht => exact ⟨⟨hp.sound h hs, ht.sound h hs, hk⟩, trivial⟩
  | receive ht => exact ⟨⟨ht.sound h hs, hk⟩, trivial⟩
  | after due ht => exact ⟨⟨hk, ht.sound h hs⟩, trivial⟩
  | sync ht he =>
    obtain ⟨ha, hf⟩ := he.sound h (ht.sound h hs)
    exact World.admits_append ha ⟨⟨hk.mono (w.grows_replay _), hf⟩, trivial⟩
  | swallow hp hb =>
    have := hp.isNative h
    rw [hb] at this
    cases this
  | stall hp hb =>
    have := hp.isNative h
    rw [hb] at this
    cases this

/-! ## Every moment is sound -/

/-- A step of the work of a turn brings in sound things and goes on soundly. -/
theorem Does.sound {c c' : Control} {es : List Effect} (hd : Does w c es c') (h : w.Sound w)
    (hc : c.Sound w) : w.Admits es ∧ c'.Sound (w.replay es) := by
  cases hd with
  | finish => exact ⟨⟨⟨hc.2, hc.1⟩, trivial⟩, trivial⟩
  | literal hd => exact ⟨trivial, World.Fits.push hc.1 trivial, hc.2⟩
  | block =>
    refine ⟨⟨trivial, trivial⟩, ?_⟩
    exact Control.Sound.mono (World.grows_replay w [_]) (c := .run _ _ _ _)
      ⟨World.Fits.push hc.1 trivial, hc.2⟩
  | value hv => exact ⟨trivial, World.Fits.push hc.1 (h.lookup hv), hc.2⟩
  | unbound hv message =>
    refine ⟨⟨trivial, trivial⟩, ?_⟩
    exact Control.Sound.mono (World.grows_replay w [_]) (c := .run _ _ _ _)
      ⟨World.Fits.push hc.1 trivial, hc.2⟩
  | unresolved hv => exact ⟨⟨⟨hc.2, rfl⟩, trivial⟩, trivial⟩
  | call hv hs =>
    obtain ⟨ha, hf⟩ := hs.sound h hc.1
    exact ⟨ha, hf, hc.2.mono (w.grows_replay _)⟩
  | fail hv hs =>
    obtain ⟨ha, hf⟩ := hs.sound h hc.1
    exact ⟨World.admits_append ha ⟨⟨hc.2.mono (w.grows_replay _), hf⟩, trivial⟩, trivial⟩
  | takeOver hv ha => exact ⟨ha.sound h hc.1 hc.2, trivial⟩
  | fillSlot =>
    obtain ⟨⟨t, ht, hex⟩, hf⟩ := hc
    cases ht
    exact ⟨⟨⟨hex, hf⟩, trivial⟩, trivial⟩
  | finishProcess =>
    obtain ⟨⟨t, ht, hex⟩, hf⟩ := hc
    cases ht
    exact ⟨⟨⟨hex, hf⟩, trivial⟩, trivial⟩
  | goOn => exact ⟨trivial, hc.2, hc.1⟩
  | skip => exact ⟨trivial, hc.1, hc.2⟩
  | leave =>
    exact ⟨⟨trivial, trivial⟩, Control.Sound.mono (World.grows_replay w [_]) (c := .resume _ _) hc⟩
  | harvest =>
    refine ⟨⟨trivial, trivial⟩, ?_⟩
    exact Control.Sound.mono (World.grows_replay w [_]) (c := .resume _ _)
      ⟨hc.1, World.Fits.push hc.2 trivial⟩
  | enough => exact ⟨⟨hc, trivial⟩, trivial⟩
  | again =>
    refine ⟨World.admits_of_forall ?_, trivial⟩
    refine List.forall_mem_cons.2 ⟨trivial, List.forall_mem_singleton.2 ?_⟩
    exact ⟨h.captured _ _, fun _ _ hn => (nomatch hn), hc.2, hc.1⟩
  | giveUp => exact ⟨trivial, hc⟩

/-- A turn begins soundly. -/
theorem Begins.sound {task : Task} {c : Control} {es : List Effect} (hb : Begins w task es c)
    (h : w.Sound w) (ht : task.Sound w) : w.Admits es ∧ c.Sound (w.replay es) := by
  cases hb with
  | resume => exact ⟨trivial, ht⟩
  | activate =>
    obtain ⟨hcap, hown, hs, hk⟩ := ht
    refine ⟨⟨⟨hcap, hown⟩, trivial⟩, ?_⟩
    exact Control.Sound.mono (World.grows_replay w [_]) (c := .run _ _ _ _) ⟨hs, hk⟩
  | start =>
    refine ⟨⟨trivial, trivial⟩, ?_⟩
    exact Control.Sound.mono (World.grows_replay w [_]) (c := .run _ _ _ _) ⟨ht.2, _, rfl, ht.1⟩
  | receive ho =>
    refine ⟨⟨ht, trivial⟩, ?_⟩
    exact Control.Sound.mono (World.grows_replay w [_]) (c := .resume _ _)
      ⟨ht.1.2, World.Fits.push ht.1.1 (h.offer ho)⟩
  | refuse ho => exact ⟨⟨ht, trivial⟩, trivial⟩
  | wake ha => exact ⟨⟨ht.1, trivial⟩, ht.1.2, World.Fits.push ht.1.1 ht.2⟩
  | pass ha => exact ⟨⟨ht.1, trivial⟩, trivial⟩

/-- What is going on is sound, and so is the world. -/
structure Moment.Sound (m : Moment) : Prop where
  world : m.world.Sound m.world
  control : m.control.Sound m.world

/-- A policy that lets only sound things in. -/
structure Policy.Sound (policy : Policy) : Prop where
  allows : ∀ w e, policy.allows e → e.Sound w
  starts : ∀ w s, policy.starts w s → s.Sound w

/-- **A step brings in sound things and leads to a sound moment.** -/
theorem Next.sound {policy : Policy} (hp : policy.Sound) {m m' : Moment} {es : List Event}
    (hn : Next policy m es m') (h : m.Sound) : m.world.Admits (effectsOf es) ∧ m'.Sound := by
  cases hn with
  | work hd =>
    obtain ⟨ha, hc⟩ := hd.sound h.world h.control
    rw [effectsOf_map]
    exact ⟨ha, h.world.replay ha, hc⟩
  | turn hr hb =>
    rename_i w c roots task rest es
    have hw : (w.apply .beginTurn).Sound (w.apply .beginTurn) := h.world.apply trivial
    have ht : task.Sound (w.apply .beginTurn) :=
      (h.world.cells.ready task (by rw [hr]; simp)).mono (w.grows_apply _)
    obtain ⟨ha, hc⟩ := hb.sound hw ht
    rw [effectsOf_map]
    exact ⟨⟨trivial, ha⟩, hw.replay ha, hc⟩
  | evaluate strict program henv hs =>
    rename_i w roots env stack
    have hg := w.grows_apply (.launch strict program)
    refine ⟨⟨trivial, trivial⟩, h.world.apply (e := .launch strict program) trivial,
      (hp.starts w stack hs).mono hg, .main w.slots.size, rfl, ?_⟩
    exact Table.size_lt_size_push _ _
  | install =>
    exact ⟨⟨trivial, trivial⟩, h.world.apply (e := .install) trivial, trivial⟩
  | outside he =>
    rename_i w c roots e
    exact ⟨⟨hp.allows w e he, trivial⟩, h.world.apply (hp.allows w e he),
      h.control.mono (w.grows_apply e)⟩

theorem Run.sound {policy : Policy} (hp : policy.Sound) {m m' : Moment} {es : List Event}
    (hr : Run policy m es m') (h : m.Sound) : m'.Sound :=
  hr.induct (I := Moment.Sound) (fun h hn => (hn.sound hp h).2) h

/-- The moment before anything has happened. -/
def Moment.dawn : Moment := ⟨{}, .rest, []⟩

theorem Moment.sound_dawn : dawn.Sound := ⟨.empty _, trivial⟩

/-- The first interpreter is made. -/
theorem Next.install_fresh {policy : Policy} :
    Next policy .dawn [⟨none, .install⟩] ⟨.fresh, .rest, [⟨0⟩]⟩ := by
  have h : Next policy ⟨{}, .rest, []⟩ _ _ := .install
  rwa [World.newBuiltinRoot_empty] at h

end Catena
