import Catena.Proofs.Machine.Estates
import Catena.Proofs.Machine.Evaluations
import Mathlib

/-!
# Snapshots are taken when a block is pushed

A block literal takes its snapshot when the program that it is written in pushes it, and the
snapshot never changes. Everything that a program computes with comes from stacks that have been
pushed to, so a value is never a name that is still to be looked up, and a block that is a value has
its snapshot (`Value.Settled`). This holds of all values that a world holds (`World.Settled`): those
on the stacks of its tasks and of those who wait in cells, and those in scopes, snapshots,
vocabularies, objects, mailboxes, variables, results and outcomes. One lemma says what an effect
keeps (`World.Settled.apply`), and one what the steps of a run bring in (`Does.settled`).

A word that runs a block therefore finds the snapshot already taken, and the environment that the
word is called in does not matter.
-/

namespace Catena

/-! ## Settled data -/

/-- Every block written in some code has been loaded. -/
def World.Loaded (r : World) (code : Code) : Prop :=
  ∀ id ∈ Datum.blocksOf code, id.index < r.captures.size

/-- A block that has its snapshot. -/
structure Block.Settled (r : World) (block : Block) : Prop where
  taken : (r.captured? block.id).isSome = true
  loaded : r.Loaded block.code

/-- A value that is no name, and that has its snapshot if it is a block or runs one. -/
def Value.Settled (r : World) : Value → Prop
  | .datum (.word _) => False
  | .block id body => Block.Settled r ⟨id, body⟩
  | .primitive p => ∀ block, p.behaviour = .defined block → block.Settled r
  | _ => True

theorem Datum.settled_of_isPlain {d : Datum BlockId} (h : d.isPlain = true) (r : World) :
    (Value.datum d).Settled r := by
  cases d with
  | word | block => cases h
  | _ => exact trivial

/-- A stack of settled values. -/
def Stack.Settled (r : World) (s : Stack) : Prop := ∀ v ∈ s.items, v.Settled r

/-- A frame that goes on with code that has been loaded, or with a block that has its snapshot. -/
def Frame.Settled (r : World) : Frame → Prop
  | .resume _ code => r.Loaded code
  | .again _ block _ => block.Settled r
  | .exit _ _ => True

/-- A continuation of settled frames. -/
def Continuation.Settled (r : World) (k : Continuation) : Prop :=
  ∀ frame ∈ k.frames, frame.Settled r

/-- A settled stack, or a failure. -/
def World.Accepts (r : World) : Outcome → Prop
  | .ok s => s.Settled r
  | .error _ => True

/-- One who waits on a settled stack. -/
def Waker.Settled (r : World) : Waker → Prop
  | .resume _ s k => s.Settled r ∧ k.Settled r
  | .report _ => True

/-- A task that goes on with settled values. -/
def Task.Settled (r : World) : Task → Prop
  | .resume k outcome => k.Settled r ∧ r.Accepts outcome
  | .activate captured own block _ s k =>
    captured.All (Value.Settled r) ∧ (∀ name v, own = some (name, v) → v.Settled r) ∧
      r.Loaded block.code ∧ s.Settled r ∧ k.Settled r
  | .start _ code s => r.Loaded code ∧ s.Settled r
  | .wakeReceiver _ waker => waker.Settled r
  | .wakeWaiter waker value => waker.Settled r ∧ value.Settled r
  | .script _ => True

/-- What goes on inside a turn. -/
def Control.Settled (r : World) : Control → Prop
  | .rest => True
  | .run _ code s k => r.Loaded code ∧ s.Settled r ∧ k.Settled r
  | .resume k outcome => k.Settled r ∧ r.Accepts outcome

/-- What an effect brings into the world. -/
def Effect.Settled (r : World) : Effect → Prop
  | .define _ _ v | .setProperty _ _ v | .deliver _ v | .bind _ v => v.Settled r
  | .defineWord _ _ behaviour => ∀ block, behaviour = .defined block → block.Settled r
  | .spawn captured block _ => captured.All (Value.Settled r) ∧ r.Loaded block.code
  | .later task | .schedule _ task => task.Settled r
  | .awaitVariable _ s k | .awaitProcess _ s k | .receive s k => s.Settled r ∧ k.Settled r
  | .fillSlot _ outcome | .finish _ outcome => r.Accepts outcome
  | .enter captured own _ =>
    captured.All (Value.Settled r) ∧ ∀ name v, own = some (name, v) → v.Settled r
  | .wakeReceiver _ waker => waker.Settled r
  | _ => True

/-- All that a world holds is settled. -/
structure World.Settled (r w : World) : Prop extends w.Definitions (Value.Settled r) where
  cells : Holders (fun _ => Value.Settled r) (Task.Settled r) (fun _ => Waker.Settled r) w
  outcomes : w.slots.All fun _ slot => ∀ outcome, slot = some outcome → r.Accepts outcome

/-! ## Snapshots stay -/

/-- `r'` has every snapshot that `r` has. -/
structure World.Remembers (r r' : World) : Prop where
  loaded : r.captures.size ≤ r'.captures.size
  taken : ∀ id b, r.captured? id = some b → r'.captured? id = some b

section Mono

variable {r r' : World} (h : r.Remembers r')

include h

theorem World.Loaded.mono {code : Code} (hc : r.Loaded code) : r'.Loaded code :=
  fun id hid => Nat.lt_of_lt_of_le (hc id hid) h.loaded

theorem Block.Settled.mono {block : Block} (hb : block.Settled r) : block.Settled r' := by
  obtain ⟨b, hcap⟩ := Option.isSome_iff_exists.1 hb.taken
  exact ⟨Option.isSome_iff_exists.2 ⟨b, h.taken _ b hcap⟩, hb.loaded.mono h⟩

theorem Value.Settled.mono {v : Value} (hv : v.Settled r) : v.Settled r' := by
  cases v with
  | datum d =>
    cases d with
    | word name => exact hv
    | block id body => exact Block.Settled.mono h hv
    | _ => exact trivial
  | primitive p => exact fun block hb => (hv block hb).mono h
  | _ => exact trivial

theorem Stack.Settled.mono {s : Stack} (hs : s.Settled r) : s.Settled r' :=
  fun v hv => (hs v hv).mono h

theorem Frame.Settled.mono {frame : Frame} (hf : frame.Settled r) : frame.Settled r' := by
  cases frame with
  | resume env code => exact World.Loaded.mono h hf
  | again env block n => exact Block.Settled.mono h hf
  | exit kind guard => exact trivial

theorem Continuation.Settled.mono {k : Continuation} (hk : k.Settled r) : k.Settled r' :=
  fun frame hf => (hk frame hf).mono h

theorem World.Accepts.mono {outcome : Outcome} (ho : r.Accepts outcome) : r'.Accepts outcome := by
  cases outcome with
  | ok s => exact Stack.Settled.mono h ho
  | error e => exact trivial

theorem Waker.Settled.mono {waker : Waker} (hw : waker.Settled r) : waker.Settled r' := by
  cases waker with
  | resume epoch s k => exact ⟨hw.1.mono h, hw.2.mono h⟩
  | report tag => exact trivial

theorem Bindings.All.settled_mono {b : Bindings Value} (hb : b.All (Value.Settled r)) :
    b.All (Value.Settled r') := hb.imp fun _ hv => hv.mono h

theorem Task.Settled.mono {task : Task} (ht : task.Settled r) : task.Settled r' := by
  cases task with
  | resume k outcome => exact ⟨ht.1.mono h, ht.2.mono h⟩
  | activate captured own block exit s k =>
    obtain ⟨hc, ho, hl, hs, hk⟩ := ht
    exact ⟨hc.settled_mono h, fun name v hv => (ho name v hv).mono h, hl.mono h, hs.mono h,
      hk.mono h⟩
  | start p code s => exact ⟨ht.1.mono h, ht.2.mono h⟩
  | wakeReceiver m waker => exact Waker.Settled.mono h ht
  | wakeWaiter waker value => exact ⟨ht.1.mono h, ht.2.mono h⟩
  | script commands => exact trivial

theorem Control.Settled.mono {c : Control} (hc : c.Settled r) : c.Settled r' := by
  cases c with
  | rest => exact trivial
  | run env code s k => exact ⟨hc.1.mono h, hc.2.1.mono h, hc.2.2.mono h⟩
  | resume k outcome => exact ⟨hc.1.mono h, hc.2.mono h⟩

theorem Effect.Settled.mono {e : Effect} (he : e.Settled r) : e.Settled r' := by
  cases e with
  | define | setProperty | deliver | bind => exact Value.Settled.mono h he
  | defineWord env name behaviour => exact fun block hb => (he block hb).mono h
  | spawn captured block parent => exact ⟨he.1.settled_mono h, he.2.mono h⟩
  | later | schedule => exact Task.Settled.mono h he
  | awaitVariable | awaitProcess | receive => exact ⟨he.1.mono h, he.2.mono h⟩
  | fillSlot | finish => exact World.Accepts.mono h he
  | enter captured own block =>
    exact ⟨he.1.settled_mono h, fun name v hv => (he.2 name v hv).mono h⟩
  | wakeReceiver m waker => exact Waker.Settled.mono h he
  | _ => exact trivial

theorem World.Settled.mono {w : World} (hw : r.Settled w) : r'.Settled w where
  toDefinitions := hw.toDefinitions.imp fun _ hv => hv.mono h
  cells := hw.cells.imp (fun _ _ hv => hv.mono h) (fun _ ht => ht.mono h) fun _ _ hk => hk.mono h
  outcomes := hw.outcomes.imp fun _ _ hs outcome ho => (hs outcome ho).mono h

end Mono

namespace World

theorem Remembers.of_eq {w w' : World} (h : w'.captures = w.captures) : w.Remembers w' :=
  ⟨(congrArg Table.size h).ge, fun id b hb => by rw [captured?, h]; exact hb⟩

theorem Remembers.refl (w : World) : w.Remembers w := .of_eq rfl

theorem Remembers.trans {w w' w'' : World} (h : w.Remembers w') (h' : w'.Remembers w'') :
    w.Remembers w'' :=
  ⟨h.loaded.trans h'.loaded, fun id b hb => h'.taken id b (h.taken id b hb)⟩

/-- The snapshot that a block has is the one that it keeps. -/
theorem instantiate_of_captured? {w : World} {block : Block} {b : Bindings Value}
    (h : w.captured? block.id = some b) (env : EnvId) : w.instantiate env block = (w, b) := by
  simp only [instantiate, h]

theorem snd_instantiate_of_none {w : World} {block : Block} (h : w.captured? block.id = none)
    (env : EnvId) : (w.instantiate env block).2 = w.capture env block.code := by
  simp only [instantiate, h]

theorem size_captures_instantiate (w : World) (env : EnvId) (block : Block) :
    (w.instantiate env block).1.captures.size = w.captures.size := by
  unfold instantiate
  cases w.captured? block.id with
  | some b => rfl
  | none => exact Table.size_set _ _ _

/-- Asking for the snapshot of a block takes no other one. -/
theorem captured?_instantiate_of_ne (w : World) (env : EnvId) {block : Block} {id : BlockId}
    (h : id ≠ block.id) : (w.instantiate env block).1.captured? id = w.captured? id := by
  unfold instantiate
  cases hc : w.captured? block.id with
  | some b => rfl
  | none =>
    have hne : block.id.index ≠ id.index := by
      intro heq
      exact h (by cases id; exact congrArg BlockId.mk heq.symm)
    exact Table.get_set_of_ne _ _ hne

theorem remembers_instantiate (w : World) (env : EnvId) (block : Block) :
    w.Remembers (w.instantiate env block).1 := by
  refine ⟨(w.size_captures_instantiate env block).ge, fun id b hb => ?_⟩
  by_cases hid : id = block.id
  · subst hid
    rw [instantiate_of_captured? hb]
    exact hb
  · exact (w.captured?_instantiate_of_ne env hid).trans hb

/-- A block that is there has a snapshot once it has been asked for. -/
theorem captured?_instantiate {w : World} {block : Block}
    (h : block.id.index < w.captures.size) (env : EnvId) :
    (w.instantiate env block).1.captured? block.id = some (w.instantiate env block).2 := by
  unfold instantiate
  cases hc : w.captured? block.id with
  | some b => exact hc
  | none => exact Table.get_set_self _ h

theorem remembers_apply (w : World) (e : Effect) : w.Remembers (w.apply e) := by
  by_cases hkeep : e.keepsDefinitions = true
  · exact .of_eq (w.sameDefinitions_apply hkeep).captures
  cases e with
  | snapshot env block => exact w.remembers_instantiate env block
  | enter captured own block => cases own <;> exact .of_eq rfl
  | install =>
    exact .of_eq (newBuiltinRoot_induct (I := fun v => v.captures = w.captures) rfl
      fun _ _ _ _ hv => hv)
  | launch strict program =>
    refine ⟨?_, fun id b hb => ?_⟩
    · exact (Nat.le_add_right _ _).trans (Table.size_grow _ _ _).ge
    · have hlt : id.index < w.captures.size := by
        by_contra hge
        rw [captured?, Table.get_of_size_le (by omega)] at hb
        cases hb
      show (w.captures.grow _ none).get id.index = some b
      rw [Table.get, Table.get?_grow, if_pos hlt]
      exact hb
  | define | defineWord | adopt | newObject | setProperty | spawn | restore | harvest =>
    exact .of_eq rfl
  | _ => exact absurd rfl hkeep

theorem remembers_replay (w : World) (es : List Effect) : w.Remembers (w.replay es) :=
  replay_induct (.refl w) fun v e _ hv => hv.trans (v.remembers_apply e)

/-! ## What effects keep -/

theorem Settled.empty (r : World) : r.Settled {} where
  toDefinitions := .empty
  cells := .empty
  outcomes := .empty

theorem defines_settled {r : World} {e : Effect} (he : e.Settled r) :
    e.Defines (Value.Settled r) := by
  cases e with
  | define | setProperty | enter => exact he
  | defineWord env name behaviour => exact fun _ => he
  | spawn captured block parent => exact he.1
  | install =>
    intro p hp block hb
    rw [hb] at hp
    cases hp
  | _ => exact trivial

theorem Accepts.push {r : World} {s : Stack} (hs : s.Settled r) {v : Value} (hv : v.Settled r) :
    r.Accepts (.ok (s.push v)) := List.forall_mem_cons.2 ⟨hv, hs⟩

theorem Accepts.resultOf {r : World} {outcome : Outcome} (h : r.Accepts outcome) :
    (resultOf outcome).Settled r := by
  cases outcome with
  | error e => exact trivial
  | ok s =>
    simp only [World.resultOf, Stack.top?]
    cases hs : s.items with
    | nil => exact trivial
    | cons v rest => exact h v (by simp [hs])

theorem settled_firstStack (r : World) (parent : Option ProcessId) (p : ProcessId) :
    (firstStack parent p).Settled r := by
  cases parent <;> simp [firstStack, Stack.Settled, Stack.push, Stack.ownedBy, Value.Settled]

/-- What a cell releases is settled. -/
theorem passes_settled (r w : World) :
    Passes (fun _ => Value.Settled r) (Task.Settled r) (fun _ => Waker.Settled r) w where
  waiter hk _ hv := ⟨hk, hv⟩
  joiner _ hk _ hv := ⟨hk.2, .push hk.1 hv⟩
  receiver hk := hk

theorem brings_settled {r w : World} {e : Effect} (he : e.Settled r) :
    e.Brings (fun _ => Value.Settled r) (Task.Settled r) (fun _ => Waker.Settled r) w := by
  cases e with
  | spawn captured block parent => exact ⟨he.2, settled_firstStack r _ _⟩
  | awaitVariable | awaitProcess => exact ⟨fun value hv => ⟨he.2, .push he.1 hv⟩, he⟩
  | receive s k =>
    exact ⟨fun _ value _ hv => ⟨he.2, .push he.1 hv⟩, fun e _ => ⟨he.2, trivial⟩, fun _ _ => he⟩
  | finish p outcome => exact Accepts.resultOf he
  | later | schedule | deliver | bind | wakeReceiver => exact he
  | _ => exact trivial

theorem Settled.outcomes_apply {r w : World} {e : Effect} (h : r.Settled w) (he : e.Settled r) :
    (w.apply e).slots.All fun _ slot => ∀ outcome, slot = some outcome → r.Accepts outcome := by
  by_cases hkeep : e.keepsSlots = true
  · rw [w.slots_apply hkeep]
    exact h.outcomes
  cases e with
  | fillSlot index outcome =>
    refine h.outcomes.set fun _ ho => ?_
    cases ho
    exact he
  | launch strict program => exact h.outcomes.push fun _ ho => by cases ho
  | _ => exact absurd rfl hkeep

/-- **Effects that bring in settled things keep a world settled.** -/
theorem Settled.apply {w : World} {e : Effect} (h : w.Settled w) (he : e.Settled w) :
    (w.apply e).Settled (w.apply e) := by
  have hg := h.mono (w.remembers_apply e)
  have he' := he.mono (w.remembers_apply e)
  exact ⟨hg.toDefinitions.apply (defines_settled he'),
    hg.cells.apply (passes_settled _ _) (brings_settled he'), hg.outcomes_apply he'⟩

/-- Every one of a sequence of effects brings settled things into the world it happens to. -/
def AdmitsSettled (w : World) : List Effect → Prop
  | [] => True
  | e :: es => e.Settled w ∧ (w.apply e).AdmitsSettled es

theorem admitsSettled_append {w : World} {es fs : List Effect} (h : w.AdmitsSettled es)
    (h' : (w.replay es).AdmitsSettled fs) : w.AdmitsSettled (es ++ fs) := by
  induction es generalizing w with
  | nil => exact h'
  | cons e es ih => exact ⟨h.1, ih h.2 h'⟩

theorem admitsSettled_of_forall {w : World} {es : List Effect} (h : ∀ e ∈ es, e.Settled w) :
    w.AdmitsSettled es := by
  induction es generalizing w with
  | nil => exact trivial
  | cons e es ih =>
    obtain ⟨he, hes⟩ := List.forall_mem_cons.1 h
    exact ⟨he, ih fun e' he' => (hes e' he').mono (w.remembers_apply e)⟩

theorem Settled.replay {w : World} {es : List Effect} (h : w.Settled w) (he : w.AdmitsSettled es) :
    (w.replay es).Settled (w.replay es) := by
  induction es generalizing w with
  | nil => exact h
  | cons e es ih => exact ih (h.apply he.1) he.2

/-! ## What words bring in -/

variable {w : World} {s t : Stack}

theorem Yields.settled {v : Value} (hv : w.Yields s v) (h : w.Settled w) (hs : s.Settled w) :
    v.Settled w := by
  cases hv with
  | kept hm => exact hs v hm
  | plain hd => exact Datum.settled_of_isPlain hd w
  | self ho => exact trivial
  | mailbox ho => exact trivial
  | property ha => exact h.answer ha
  | binding hb => exact h.vocabulary _ _ _ hb

theorem Derives.settled (ht : w.Derives s t) (h : w.Settled w) (hs : s.Settled w) : t.Settled w :=
  fun v hv => (ht.items v hv).settled h hs

theorem Concludes.accepts {outcome : Outcome} (hc : w.Concludes s outcome) (h : w.Settled w)
    (hs : s.Settled w) : w.Accepts outcome := by
  cases outcome with
  | ok t => exact Derives.settled hc h hs
  | error e => exact trivial

/-- A word that can be called and runs a block has its snapshot. -/
theorem Callable.settled {env : EnvId} {p : Primitive} (hp : w.Callable env p) (h : w.Settled w)
    {block : Block} (hb : p.behaviour = .defined block) : block.Settled w := by
  cases hp with
  | bound hv => exact h.lookup hv block hb
  | found ha => exact h.answer ha block hb

end World

variable {w : World} {env : EnvId} {s : Stack}

theorem Continuation.Settled.push {k : Continuation} (hk : k.Settled w) {f : Frame}
    (hf : f.Settled w) : (k.push f).Settled w := List.forall_mem_cons.2 ⟨hf, hk⟩

theorem SyncEffects.settled {es : List Effect} {outcome : Outcome}
    (he : SyncEffects env s w es outcome) (h : w.Settled w) (hs : s.Settled w) :
    w.AdmitsSettled es ∧ (w.replay es).Accepts outcome := by
  have keep : ∀ {t} (es : List Effect), w.Derives s t → (w.replay es).Accepts (.ok t) :=
    fun es ht => Stack.Settled.mono (w.remembers_replay es) (ht.settled h hs)
  have two : ∀ {d e : Effect}, d.Settled w → e.Settled w → w.AdmitsSettled [d, e] := fun hd he =>
    World.admitsSettled_of_forall (List.forall_mem_cons.2 ⟨hd, List.forall_mem_singleton.2 he⟩)
  cases he with
  | fail he => exact ⟨trivial, trivial⟩
  | compute ht => exact ⟨trivial, keep [] ht⟩
  | print line ht => exact ⟨⟨trivial, trivial⟩, keep _ ht⟩
  | define name hv ht => exact ⟨⟨hs _ hv, trivial⟩, keep _ ht⟩
  | defun name hb ht =>
    refine ⟨two trivial fun block hd => ?_, keep _ ht⟩
    cases hd
    exact hs _ hb
  | adopt hv ht => exact ⟨⟨trivial, trivial⟩, keep _ ht⟩
  | newObject hv ht => exact ⟨⟨trivial, trivial⟩, World.Accepts.push (keep _ ht) trivial⟩
  | setProperty key ho hv ht => exact ⟨⟨hs _ hv, trivial⟩, keep _ ht⟩
  | spawn hb ht =>
    rename_i block t
    exact ⟨two trivial ⟨h.captured env block, (hs _ hb).loaded⟩,
      World.Accepts.push (keep _ ht) trivial⟩
  | deliver hm hv ht => exact ⟨⟨hs _ hv, trivial⟩, keep _ ht⟩
  | newVariable name ht => exact ⟨⟨trivial, trivial⟩, World.Accepts.push (keep _ ht) trivial⟩
  | bind hd hv ht => exact ⟨⟨hs _ hv, trivial⟩, keep _ ht⟩

theorem AsyncEffects.settled {k : Continuation} {es : List Effect}
    (he : AsyncEffects env s k w es) (h : w.Settled w) (hs : s.Settled w) (hk : k.Settled w) :
    w.AdmitsSettled es := by
  have two : ∀ {d e : Effect}, d.Settled w → e.Settled w → w.AdmitsSettled [d, e] := fun hd he =>
    World.admitsSettled_of_forall (List.forall_mem_cons.2 ⟨hd, List.forall_mem_singleton.2 he⟩)
  cases he with
  | resume ho => exact ⟨⟨hk, ho.accepts h hs⟩, trivial⟩
  | report message ht => exact two trivial ⟨hk, ht.settled h hs⟩
  | activate exit hb ht =>
    have hblock : Block.Settled w _ := hb.settled h hs
    exact two trivial
      ⟨h.captured env _, fun _ _ hn => (nomatch hn), hblock.loaded, ht.settled h hs, hk⟩
  | iterate n hb ht =>
    have hblock : Block.Settled w _ := hb.settled h hs
    exact two trivial ⟨h.captured env _, fun _ _ hn => (nomatch hn), hblock.loaded,
      ht.settled h hs, hk.push hblock⟩
  | callWord hp hb ht =>
    have hblock := hp.settled h hb
    refine two trivial ⟨h.captured env _, fun name v hn => ?_, hblock.loaded, ht.settled h hs, hk⟩
    cases hn
    exact fun _ hd => hp.settled h hd
  | awaitVariable hv ht => exact ⟨⟨ht.settled h hs, hk⟩, trivial⟩
  | awaitProcess hp ht => exact ⟨⟨ht.settled h hs, hk⟩, trivial⟩
  | receive ht => exact ⟨⟨ht.settled h hs, hk⟩, trivial⟩
  | after due ht => exact ⟨⟨hk, ht.settled h hs⟩, trivial⟩
  | sync ht he =>
    obtain ⟨ha, ho⟩ := he.settled h (ht.settled h hs)
    exact World.admitsSettled_append ha ⟨⟨hk.mono (w.remembers_replay _), ho⟩, trivial⟩
  | swallow hp hb => exact trivial
  | stall hp hb => exact ⟨⟨hk, trivial⟩, trivial⟩

/-! ## Every moment is settled -/

theorem World.loaded_cons {d : Datum BlockId} {code : Code} (h : w.Loaded (d :: code)) :
    (∀ id ∈ d.blocks, id.index < w.captures.size) ∧ w.Loaded code := by
  unfold World.Loaded at h
  simp only [Datum.blocksOf, List.forall_mem_append] at h
  exact h

/-- A step of the work of a turn brings in settled things and goes on with settled ones. -/
theorem Does.settled {c c' : Control} {es : List Effect} (hd : Does w c es c') (h : w.Settled w)
    (hc : c.Settled w) : w.AdmitsSettled es ∧ c'.Settled (w.replay es) := by
  cases hd with
  | finish => exact ⟨⟨⟨hc.2.2, hc.2.1⟩, trivial⟩, trivial⟩
  | literal hplain =>
    exact ⟨trivial, (World.loaded_cons hc.1).2,
      World.Accepts.push hc.2.1 (Datum.settled_of_isPlain hplain w), hc.2.2⟩
  | block =>
    rename_i env id body code s k
    obtain ⟨hblocks, hcode⟩ := World.loaded_cons hc.1
    simp only [Datum.blocks, List.forall_mem_cons] at hblocks
    have hkeep := w.remembers_instantiate env ⟨id, body⟩
    have htaken :=
      World.captured?_instantiate (show (⟨id, body⟩ : Block).id.index < _ from hblocks.1) env
    have hblock : Block.Settled (w.instantiate env ⟨id, body⟩).1 ⟨id, body⟩ :=
      ⟨Option.isSome_iff_exists.2 ⟨_, htaken⟩, World.Loaded.mono hkeep hblocks.2⟩
    exact ⟨⟨trivial, trivial⟩, hcode.mono hkeep, World.Accepts.push (hc.2.1.mono hkeep) hblock,
      hc.2.2.mono hkeep⟩
  | value hv =>
    exact ⟨trivial, (World.loaded_cons hc.1).2, World.Accepts.push hc.2.1 (h.lookup hv), hc.2.2⟩
  | unbound hv message =>
    have hkeep := w.remembers_replay [.report message]
    exact ⟨⟨trivial, trivial⟩, (World.loaded_cons hc.1).2.mono hkeep,
      World.Accepts.push (hc.2.1.mono hkeep) trivial, hc.2.2.mono hkeep⟩
  | unresolved hv => exact ⟨⟨⟨hc.2.2, trivial⟩, trivial⟩, trivial⟩
  | call hv hs =>
    obtain ⟨ha, ho⟩ := hs.settled h hc.2.1
    exact ⟨ha, (World.loaded_cons hc.1).2.mono (w.remembers_replay _), ho,
      hc.2.2.mono (w.remembers_replay _)⟩
  | fail hv hs =>
    obtain ⟨ha, ho⟩ := hs.settled h hc.2.1
    exact ⟨World.admitsSettled_append ha
      ⟨⟨hc.2.2.mono (w.remembers_replay _), trivial⟩, trivial⟩, trivial⟩
  | takeOver hv ha =>
    exact ⟨ha.settled h hc.2.1 (hc.2.2.push (f := .resume _ _) (World.loaded_cons hc.1).2),
      trivial⟩
  | fillSlot => exact ⟨⟨hc.2, trivial⟩, trivial⟩
  | finishProcess => exact ⟨⟨hc.2, trivial⟩, trivial⟩
  | goOn =>
    obtain ⟨hcode, hrest⟩ := List.forall_mem_cons.1 hc.1
    exact ⟨trivial, hcode, hc.2, hrest⟩
  | skip => exact ⟨trivial, (List.forall_mem_cons.1 hc.1).2, trivial⟩
  | leave =>
    rename_i kind guard frames sink outcome
    have hkeep := w.remembers_replay [.restore guard]
    exact ⟨⟨trivial, trivial⟩, Continuation.Settled.mono hkeep (List.forall_mem_cons.1 hc.1).2,
      hc.2.mono hkeep⟩
  | harvest =>
    rename_i guard frames sink s
    have hkeep := w.remembers_replay [.harvest guard]
    exact ⟨⟨trivial, trivial⟩, Continuation.Settled.mono hkeep (List.forall_mem_cons.1 hc.1).2,
      World.Accepts.push (hc.2.mono hkeep) trivial⟩
  | enough => exact ⟨⟨⟨(List.forall_mem_cons.1 hc.1).2, hc.2⟩, trivial⟩, trivial⟩
  | again =>
    obtain ⟨hblock, hrest⟩ := List.forall_mem_cons.1 hc.1
    refine ⟨World.admitsSettled_of_forall ?_, trivial⟩
    refine List.forall_mem_cons.2 ⟨trivial, List.forall_mem_singleton.2 ?_⟩
    exact ⟨h.captured _ _, fun _ _ hn => (nomatch hn), hblock.loaded, hc.2,
      List.forall_mem_cons.2 ⟨hblock, hrest⟩⟩
  | giveUp => exact ⟨trivial, (List.forall_mem_cons.1 hc.1).2, trivial⟩

/-- A turn begins with settled things. -/
theorem Begins.settled {task : Task} {c : Control} {es : List Effect} (hb : Begins w task es c)
    (h : w.Settled w) (ht : task.Settled w) : w.AdmitsSettled es ∧ c.Settled (w.replay es) := by
  cases hb with
  | resume => exact ⟨trivial, ht⟩
  | activate =>
    rename_i captured own block exit s k
    obtain ⟨hcap, hown, hcode, hs, hk⟩ := ht
    have hkeep := w.remembers_replay [.enter captured own block]
    exact ⟨⟨⟨hcap, hown⟩, trivial⟩, hcode.mono hkeep, hs.mono hkeep,
      (hk.push (f := .exit _ _) trivial).mono hkeep⟩
  | start =>
    rename_i p code s
    have hkeep := w.remembers_replay [.markRunning p]
    exact ⟨⟨trivial, trivial⟩, ht.1.mono hkeep, ht.2.mono hkeep, fun _ hf => by cases hf⟩
  | receive ho =>
    rename_i m epoch s k message
    obtain ⟨⟨rest, htake⟩, -⟩ := World.take?_of_offer ho
    have hkeep := w.remembers_replay [.wakeReceiver m (.resume epoch s k)]
    exact ⟨⟨ht, trivial⟩, ht.2.mono hkeep,
      (World.Accepts.push ht.1 (h.cells.take htake).1).mono hkeep⟩
  | refuse ho => exact ⟨⟨ht, trivial⟩, trivial⟩
  | wake ha => exact ⟨⟨trivial, trivial⟩, ht.1.2, World.Accepts.push ht.1.1 ht.2⟩
  | pass ha => exact ⟨⟨trivial, trivial⟩, trivial⟩

mutual

/-- Labels are given out in order. -/
theorem Datum.bounds_blocks_label {ι : Type} : ∀ (d : Datum ι) (n : Nat),
    n ≤ (Datum.label BlockId.mk d n).2 ∧ ∀ id ∈ (Datum.label BlockId.mk d n).1.blocks,
      n ≤ id.index ∧ id.index < (Datum.label BlockId.mk d n).2
  | .nil, _ | .bool _, _ | .number _, _ | .text _, _ | .word _, _ | .symbol _, _ => by
    simp [Datum.label, Datum.blocks]
  | .block _ body, n => by
    obtain ⟨hle, hids⟩ := Datum.bounds_blocksOf_labelAll body (n + 1)
    simp only [Datum.label, Datum.blocks, List.forall_mem_cons]
    exact ⟨by omega, ⟨le_refl n, by omega⟩, fun id hid =>
      ⟨(Nat.le_succ n).trans (hids id hid).1, (hids id hid).2⟩⟩

theorem Datum.bounds_blocksOf_labelAll {ι : Type} : ∀ (ds : List (Datum ι)) (n : Nat),
    n ≤ (Datum.labelAll BlockId.mk ds n).2 ∧
      ∀ id ∈ Datum.blocksOf (Datum.labelAll BlockId.mk ds n).1,
        n ≤ id.index ∧ id.index < (Datum.labelAll BlockId.mk ds n).2
  | [], _ => by simp [Datum.labelAll, Datum.blocksOf]
  | d :: ds, n => by
    obtain ⟨hle, hids⟩ := Datum.bounds_blocks_label d n
    obtain ⟨hle', hids'⟩ := Datum.bounds_blocksOf_labelAll ds (Datum.label BlockId.mk d n).2
    simp only [Datum.labelAll, Datum.blocksOf, List.forall_mem_append]
    exact ⟨hle.trans hle', fun id hid => ⟨(hids id hid).1, (hids id hid).2.trans_le hle'⟩,
      fun id hid => ⟨hle.trans (hids' id hid).1, (hids' id hid).2⟩⟩

end

/-- The program of an evaluation has been loaded. -/
theorem World.loaded_launch (w : World) (strict : Bool) (program : Program) :
    (w.launch strict program).Loaded (w.load program).2 := by
  obtain ⟨hle, hids⟩ := Datum.bounds_blocksOf_labelAll program w.captures.size
  intro id hid
  have hid := (hids id hid).2
  show id.index < (w.captures.grow _ none).size
  rw [Table.size_grow]
  omega

/-- What is going on is settled, and so is the world. -/
structure Moment.Settled (m : Moment) : Prop where
  world : m.world.Settled m.world
  control : m.control.Settled m.world

/-- A definition that the embedding program makes, of something that is settled in any world. -/
def Effect.IsHosted : Effect → Prop
  | .define _ _ v => ∀ w, v.Settled w
  | .defineWord _ _ behaviour => ∀ block, behaviour ≠ .defined block
  | _ => False

/-- Any number of evaluations on settled stacks, and definitions by the embedding program. -/
def Policy.hosted : Policy where
  allows e := (Policy.evaluations fun _ _ => True).allows e ∨ e.IsHosted
  starts w s := s.Settled w

/-- What happens besides the work of turns brings nothing unsettled in, and takes no snapshot. -/
theorem Policy.settled_of_hosted {e : Effect} (h : Policy.hosted.allows e) (w : World) :
    e.Settled w := by
  rcases h with h | h
  · rcases h with (rfl | rfl | rfl | ⟨elapsed, lapses, rfl⟩) | rfl | ⟨epoch, rfl⟩ <;> exact trivial
  · cases e with
    | define env name v => exact h w
    | defineWord env name behaviour => exact fun block hb => absurd hb (h block)
    | _ => exact h.elim

/-- **A step leads from settled moments to settled moments.** -/
theorem Next.settled {m m' : Moment} {es : List Event} (hn : Next .hosted m es m')
    (h : m.Settled) : m'.Settled := by
  cases hn with
  | work hd =>
    obtain ⟨ha, hc⟩ := hd.settled h.world h.control
    exact ⟨h.world.replay ha, hc⟩
  | turn hr hb =>
    rename_i w c roots task rest es
    have hw : (w.apply .beginTurn).Settled (w.apply .beginTurn) := h.world.apply trivial
    have ht : task.Settled (w.apply .beginTurn) :=
      (h.world.cells.ready task (by rw [hr]; simp)).mono (w.remembers_apply _)
    obtain ⟨ha, hc⟩ := hb.settled hw ht
    exact ⟨hw.replay ha, hc⟩
  | evaluate strict program henv hs =>
    rename_i w roots env stack
    refine ⟨h.world.apply (e := .launch strict program) trivial, w.loaded_launch strict program,
      Stack.Settled.mono (w.remembers_apply (.launch strict program)) hs, fun _ hf => by cases hf⟩
  | install => exact ⟨h.world.apply (e := .install) trivial, trivial⟩
  | outside he =>
    rename_i w c roots e
    exact ⟨h.world.apply (Policy.settled_of_hosted he w), h.control.mono (w.remembers_apply e)⟩

theorem Run.settled {m m' : Moment} {es : List Event} (h : Run .hosted m es m')
    (hm : m.Settled) : m'.Settled :=
  h.induct (I := Moment.Settled) (fun hm hn => hn.settled hm) hm

theorem Run.remembers {policy : Policy} {m m' : Moment} {es : List Event}
    (h : Run policy m es m') : m.world.Remembers m'.world := by
  rw [h.world_eq]
  exact m.world.remembers_replay _

/-! ## When snapshots are taken -/

/-- A block literal is about to be pushed. -/
def Control.Pushes (c : Control) (env : EnvId) (block : Block) : Prop :=
  ∃ code s k, c = .run env (.block block.id block.code :: code) s k

theorem SyncEffects.snapshot {es : List Effect} {outcome : Outcome}
    (he : SyncEffects env s w es outcome) (hs : s.Settled w) {env' : EnvId} {block : Block}
    (hb : .snapshot env' block ∈ es) : block.Settled w := by
  cases he with
  | defun name hmem ht | spawn hmem ht =>
    simp only [List.mem_cons, Effect.snapshot.injEq, List.not_mem_nil, or_false, reduceCtorEq] at hb
    obtain ⟨-, rfl⟩ := hb
    exact hs _ hmem
  | _ => simp at hb

theorem AsyncEffects.snapshot {k : Continuation} {es : List Effect}
    (he : AsyncEffects env s k w es) (h : w.Settled w) (hs : s.Settled w) {env' : EnvId}
    {block : Block} (hb : .snapshot env' block ∈ es) : block.Settled w := by
  cases he with
  | activate exit hy ht | iterate n hy ht =>
    simp only [List.mem_cons, Effect.snapshot.injEq, List.not_mem_nil, or_false, reduceCtorEq] at hb
    obtain ⟨-, rfl⟩ := hb
    exact hy.settled h hs
  | callWord hp hd ht =>
    simp only [List.mem_cons, Effect.snapshot.injEq, List.not_mem_nil, or_false, reduceCtorEq] at hb
    obtain ⟨-, rfl⟩ := hb
    exact hp.settled h hd
  | sync ht he =>
    simp only [List.mem_append, List.mem_cons, List.not_mem_nil, or_false, reduceCtorEq] at hb
    exact he.snapshot (ht.settled h hs) hb
  | _ => simp at hb

/-- The work of a turn asks for the snapshot of a block when it pushes the block, or else the
snapshot has been taken. -/
theorem Does.snapshot {c c' : Control} {es : List Effect} (hd : Does w c es c') (h : w.Settled w)
    (hc : c.Settled w) :
    (∃ env block, c.Pushes env block ∧ es = [.snapshot env block]) ∨
      ∀ env block, .snapshot env block ∈ es → block.Settled w := by
  cases hd with
  | block => exact .inl ⟨_, ⟨_, _⟩, ⟨_, _, _, rfl⟩, rfl⟩
  | call hv hs => exact .inr fun env block hb => hs.snapshot hc.2.1 hb
  | fail hv hs =>
    refine .inr fun env block hb => ?_
    simp only [List.mem_append, List.mem_cons, List.not_mem_nil, or_false, reduceCtorEq] at hb
    exact hs.snapshot hc.2.1 hb
  | takeOver hv ha => exact .inr fun env block hb => ha.snapshot h hc.2.1 hb
  | again =>
    refine .inr fun env block hb => ?_
    simp only [List.mem_cons, Effect.snapshot.injEq, List.not_mem_nil, or_false, reduceCtorEq] at hb
    obtain ⟨-, rfl⟩ := hb
    exact (List.forall_mem_cons.1 hc.1).1
  | _ => exact .inr (by simp)

theorem Next.snapshot {m m' : Moment} {es : List Event} (hn : Next .hosted m es m')
    (h : m.Settled) :
    (∃ env block, m.control.Pushes env block ∧ effectsOf es = [.snapshot env block]) ∨
      ∀ env block, .snapshot env block ∈ effectsOf es → block.Settled m.world := by
  cases hn with
  | work hd =>
    rw [effectsOf_map]
    exact hd.snapshot h.world h.control
  | turn hr hb =>
    rw [effectsOf_map]
    cases hb <;> exact .inr (by simp)
  | evaluate strict program henv hs => exact .inr (by simp [effectsOf])
  | install => exact .inr (by simp [effectsOf])
  | outside he =>
    refine .inr fun env block hb => ?_
    obtain rfl := List.mem_singleton.1 hb
    rcases he with he | he
    · rcases he with (he | he | he | ⟨elapsed, lapses, he⟩) | he | ⟨epoch, he⟩ <;> cases he
    · exact he.elim

namespace World

/-- Only asking for a snapshot that has not been taken takes one. -/
theorem captured?_apply {e : Effect}
    (he : ∀ env block, e = .snapshot env block → (w.captured? block.id).isSome = true)
    (id : BlockId) : (w.apply e).captured? id = w.captured? id := by
  cases hc : w.captured? id with
  | some b => exact (w.remembers_apply e).taken id b hc
  | none =>
    by_cases hkeep : e.keepsDefinitions = true
    · rw [captured?, (w.sameDefinitions_apply hkeep).captures]
      exact hc
    cases e with
    | snapshot env block =>
      obtain ⟨b, hb⟩ := Option.isSome_iff_exists.1 (he env block rfl)
      simp only [apply, instantiate_of_captured? hb]
      exact hc
    | enter captured own block => cases own <;> exact hc
    | install =>
      rw [captured?, show (w.apply .install).captures = w.captures from
        newBuiltinRoot_induct (I := fun v => v.captures = w.captures) rfl fun _ _ _ _ hv => hv]
      exact hc
    | launch strict program =>
      show (w.captures.grow _ none).get id.index = none
      have hold : (w.captures.get? id.index).getD none = none := hc
      rw [Table.get, Table.get?_grow]
      split
      · exact hold
      · split <;> rfl
    | define | defineWord | adopt | newObject | setProperty | spawn | restore | harvest =>
      exact hc
    | _ => exact absurd rfl hkeep

theorem captured?_replay {es : List Effect}
    (he : ∀ env block, .snapshot env block ∈ es → (w.captured? block.id).isSome = true)
    (id : BlockId) : (w.replay es).captured? id = w.captured? id := by
  induction es generalizing w with
  | nil => rfl
  | cons e es ih =>
    have hfirst : (w.apply e).captured? = w.captured? :=
      funext (captured?_apply fun env block hb => he env block (by simp [hb]))
    refine (ih fun env block hb => ?_).trans (congrFun hfirst id)
    rw [hfirst]
    exact he env block (List.mem_cons_of_mem _ hb)

/-- What is taken is what the environment knows. -/
theorem captured?_instantiate_of_none {block : Block} {id : BlockId} {b : Bindings Value}
    (hnone : w.captured? id = none)
    (hsome : (w.instantiate env block).1.captured? id = some b) :
    id = block.id ∧ b = w.capture env block.code := by
  by_cases hid : id = block.id
  · subst hid
    have hlt : block.id.index < w.captures.size := by
      by_contra hge
      rw [captured?, Table.get_of_size_le (by rw [size_captures_instantiate]; omega)] at hsome
      cases hsome
    rw [captured?_instantiate hlt, snd_instantiate_of_none hnone] at hsome
    exact ⟨rfl, (Option.some.inj hsome).symm⟩
  · rw [captured?_instantiate_of_ne w env hid, hnone] at hsome
    cases hsome

end World

/-- Where the snapshot of a block comes from in a run: it was there at the start, or it was taken
when the block was pushed, in the environment of the code that it is written in. -/
inductive Taken (m₀ : Moment) (id : BlockId) (b : Bindings Value) : List Event → Moment → Prop
  | before {es : List Event} {m : Moment} (h : m₀.world.captured? id = some b) : Taken m₀ id b es m
  | pushed {m₁ m : Moment} {es fs : List Event} {env : EnvId} {body : Code}
      (h : Run .hosted m₀ es m₁) (hp : m₁.control.Pushes env ⟨id, body⟩)
      (hn : m₁.world.captured? id = none) (hb : b = m₁.world.capture env body)
      (h' : Run .hosted m₁ fs m) : Taken m₀ id b (es ++ fs) m

theorem Run.taken {m₀ m : Moment} {es : List Event} (h : Run .hosted m₀ es m) (hm : m₀.Settled)
    {id : BlockId} {b : Bindings Value} (hb : m.world.captured? id = some b) :
    Taken m₀ id b es m := by
  induction h generalizing b with
  | refl => exact .before hb
  | step hr hn ih =>
    rename_i m m' es fs
    cases hc : m.world.captured? id with
    | some old =>
      have hkeep := (Run.one hn).remembers.taken id old hc
      rw [hb] at hkeep
      cases hkeep
      cases ih hc with
      | before h => exact .before h
      | pushed h hp hnone hcapture h' =>
        rw [List.append_assoc]
        exact .pushed h hp hnone hcapture (h'.step hn)
    | none =>
      rw [hn.world_eq] at hb
      rcases hn.snapshot (hr.settled hm) with ⟨env, block, hp, he⟩ | htaken
      · rw [he] at hb
        obtain ⟨rfl, rfl⟩ := World.captured?_instantiate_of_none hc hb
        exact .pushed hr hp hc rfl (.one hn)
      · rw [World.captured?_replay (fun env block hs => (htaken env block hs).taken), hc] at hb
        cases hb

/-- **Blocks are closed where they are written.** In any run from a settled moment, every value is
settled at every moment, a snapshot that has been taken never changes, and whenever a step asks for
the snapshot of a block, the block is just being pushed or the snapshot is there: whatever the
environment, it is the one that was taken when the block was pushed. -/
theorem captured_when_pushed {m₀ m : Moment} {es : List Event} (hm : m₀.Settled)
    (h : Run .hosted m₀ es m) :
    m.Settled ∧
      (∀ fs m', Run .hosted m fs m' → ∀ id b, m.world.captured? id = some b →
        m'.world.captured? id = some b) ∧
      ∀ fs m', Next .hosted m fs m' → ∀ env block, .snapshot env block ∈ effectsOf fs →
        m.control.Pushes env block ∨
          ∃ b, (∀ env', m.world.instantiate env' block = (m.world, b)) ∧
            Taken m₀ block.id b es m := by
  have hsettled := h.settled hm
  refine ⟨hsettled, fun fs m' hr => hr.remembers.taken, fun fs m' hn env block hs => ?_⟩
  rcases hn.snapshot hsettled with ⟨env', block', hp, he⟩ | htaken
  · rw [he] at hs
    cases List.mem_singleton.1 hs
    exact .inl hp
  · obtain ⟨b, hb⟩ := Option.isSome_iff_exists.1 (htaken env block hs).taken
    exact .inr ⟨b, fun env' => World.instantiate_of_captured? hb env', h.taken hm hb⟩

/-- The embedding program binds `x`, and a program pushes `[ x ]` and is about to run it. -/
theorem captured_when_pushed_do :
    ∃ (m₀ m : Moment) (es : List Event) (env : EnvId) (id : BlockId) (b : Bindings Value),
      m₀.Settled ∧ m₀.world.lookup env "x" = some (.symbol "host") ∧ Run .hosted m₀ es m ∧
        (∃ (s : Stack) (k : Continuation),
          m.control = .run env [.word "do"] (s.push (.block id [.word "x"])) k) ∧
        (∀ env', m.world.instantiate env' ⟨id, [.word "x"]⟩ = (m.world, b)) ∧
        Taken m₀ id b es m := by
  have hnew : World.fresh.Settled World.fresh := by
    have h := (World.Settled.empty {}).apply (e := .install) trivial
    rwa [World.apply, World.newBuiltinRoot_empty] at h
  obtain ⟨w, p, hw, hx, hdo⟩ : ∃ (w : World) (p : Primitive), w.Settled w ∧
      w.lookup ⟨0⟩ "x" = some (.symbol "host") ∧ w.lookup ⟨0⟩ "do" = some (.primitive p) :=
    ⟨_, _, hnew.apply (e := .define ⟨0⟩ "x" (.symbol "host")) trivial, by cbv, by cbv⟩
  have hm : Moment.Settled ⟨w, .rest, [⟨0⟩]⟩ := ⟨hw, trivial⟩
  have hempty : Stack.empty.Settled w := fun _ hv => by cases hv
  have hlaunch : Run .hosted ⟨w, .rest, [⟨0⟩]⟩ _ _ :=
    .one (.evaluate false [.block () [.word "x"], .word "do"] (List.mem_singleton.2 rfl) hempty)
  have hrun := hlaunch.step
    (.work (@Does.block _ ⟨0⟩ ⟨w.captures.size⟩ [.word "x"] [.word "do"] _ _))
  -- Taking the snapshot and launching the program leave the environment as it is.
  have hforest : ∀ (v : World) (block : Block), (v.instantiate ⟨0⟩ block).1.forest = v.forest := by
    intro v block
    unfold World.instantiate
    split <;> rfl
  have hnext := @Next.work .hosted _ _ _ [⟨0⟩] _ (@Does.takeOver
    ((w.launch false [.block () [.word "x"], .word "do"]).replay
      [.snapshot ⟨0⟩ ⟨⟨w.captures.size⟩, [.word "x"]⟩])
    ⟨0⟩ _ _ [] _ (.deliver (.slot w.slots.size)) _
    ((congrArg (Forest.lookup · ⟨0⟩ "do") (hforest _ _)).trans hdo)
    (@AsyncEffects.activate _ _ _ _ .leave ⟨⟨w.captures.size⟩, [.word "x"]⟩ _
      (.kept (s := Stack.empty.push (.block ⟨w.captures.size⟩ [.word "x"])) (by simp [Stack.push]))
      (.refl _ _)))
  obtain ⟨-, -, hall⟩ := captured_when_pushed hm hrun
  rcases hall _ _ hnext ⟨0⟩ ⟨⟨w.captures.size⟩, [.word "x"]⟩ (by simp [effectsOf]) with hp | hb
  · obtain ⟨code, s, k, hp⟩ := hp
    cases hp
  · obtain ⟨b, hb, ht⟩ := hb
    exact ⟨_, _, _, ⟨0⟩, _, b, hm, hx, hrun, ⟨_, _, rfl⟩, hb, ht⟩

end Catena
