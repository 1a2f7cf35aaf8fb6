import Catena.Proofs.Machine.Channels

/-!
# Messages arrive somewhere

A mailbox is made with its process, and a program gets hold of one only by asking for that of the
process it runs in. So every mailbox that is a value somewhere has been made: on a stack, in a cell,
in a scope, a snapshot, a vocabulary or an object. What this is for is `Next.known`: whoever posts a
message posts it to a mailbox that exists.
-/

namespace Catena

/-! ## What is known -/

/-- Of the first `n` mailboxes, if it is a mailbox. -/
def Value.Known (n : Nat) : Value → Prop
  | .mailbox m => m.index < n
  | _ => True

/-- Every one of some values is known. -/
def AllKnown (n : Nat) (values : List Value) : Prop := ∀ v ∈ values, v.Known n

/-- What a task goes on with is known. -/
def Task.Known (n : Nat) : Task → Prop
  | .activate captured own _ _ s _ =>
    captured.All (Value.Known n) ∧ (∀ name v, own = some (name, v) → v.Known n) ∧
      AllKnown n s.items
  | task => AllKnown n task.items

/-- What an effect brings in is known, and so is the mailbox it posts to. -/
def Effect.Known (n : Nat) : Effect → Prop
  | .define _ _ v | .setProperty _ _ v | .bind _ v => v.Known n
  | .deliver m v => m.index < n ∧ v.Known n
  | .spawn captured _ _ => captured.All (Value.Known n)
  | .later task | .schedule _ task => task.Known n
  | .awaitVariable _ s _ | .awaitProcess _ s _ | .receive s _ => AllKnown n s.items
  | .finish _ outcome => AllKnown n (World.itemsOf outcome)
  | .enter captured own _ =>
    captured.All (Value.Known n) ∧ ∀ name v, own = some (name, v) → v.Known n
  | .wakeReceiver _ waker => AllKnown n waker.items
  | _ => True

/-- All that a world holds is known. -/
structure World.Known (n : Nat) (w : World) : Prop where
  definitions : w.Definitions (Value.Known n)
  cells : Holders (fun _ => Value.Known n) (Task.Known n) (fun _ waker => AllKnown n waker.items) w

section Mono

variable {n n' : Nat}

theorem Value.Known.mono (h : n ≤ n') {v : Value} (hv : v.Known n) : v.Known n' := by
  cases v with
  | mailbox m => exact Nat.lt_of_lt_of_le hv h
  | _ => exact trivial

theorem AllKnown.mono (h : n ≤ n') {values : List Value} (hv : AllKnown n values) :
    AllKnown n' values := fun v hm => (hv v hm).mono h

theorem Task.Known.mono (h : n ≤ n') {task : Task} (ht : task.Known n) : task.Known n' := by
  cases task with
  | activate captured own block exit s k =>
    obtain ⟨hcap, hown, hs⟩ := ht
    exact ⟨hcap.imp fun _ => .mono h, fun name v hn => (hown name v hn).mono h, hs.mono h⟩
  | _ => exact AllKnown.mono h ht

theorem Effect.Known.mono (h : n ≤ n') {e : Effect} (he : e.Known n) : e.Known n' := by
  cases e with
  | define | setProperty | bind => exact Value.Known.mono h he
  | deliver => exact ⟨Nat.lt_of_lt_of_le he.1 h, he.2.mono h⟩
  | spawn => exact he.imp fun _ => .mono h
  | later | schedule => exact Task.Known.mono h he
  | awaitVariable | awaitProcess | receive | finish | wakeReceiver => exact AllKnown.mono h he
  | enter => exact ⟨he.1.imp fun _ => .mono h, fun name v hn => (he.2 name v hn).mono h⟩
  | _ => exact trivial

theorem World.Known.mono (h : n ≤ n') {w : World} (hw : w.Known n) : w.Known n' where
  definitions := hw.definitions.imp fun _ => .mono h
  cells := hw.cells.imp (fun _ _ => .mono h) (fun _ => .mono h) fun _ _ => .mono h

end Mono

/-- What is known and a value more. -/
theorem AllKnown.push {n : Nat} {s : Stack} (hs : AllKnown n s.items) {v : Value} (hv : v.Known n) :
    AllKnown n (s.push v).items := List.forall_mem_cons.2 ⟨hv, hs⟩

theorem AllKnown.resultOf {n : Nat} {outcome : Outcome} (h : AllKnown n (World.itemsOf outcome)) :
    (World.resultOf outcome).Known n := by
  cases outcome with
  | error e => exact trivial
  | ok s =>
    simp only [World.resultOf, Stack.top?]
    cases hs : s.items with
    | nil => exact trivial
    | cons v rest => exact h v (by simp [World.itemsOf, hs])

/-! ## What effects keep -/

namespace World

variable {n : Nat} {w : World}

theorem Known.empty (n : Nat) : World.Known n {} := ⟨.empty, .empty⟩

theorem passes_known (n : Nat) (w : World) :
    Passes (fun _ => Value.Known n) (Task.Known n) (fun _ waker => AllKnown n waker.items) w where
  waiter hk _ hv := List.forall_mem_cons.2 ⟨hv, hk⟩
  joiner _ hk _ hv := AllKnown.push hk hv
  receiver hk := hk

theorem brings_known {e : Effect} (he : e.Known n) :
    e.Brings (fun _ => Value.Known n) (Task.Known n) (fun _ waker => AllKnown n waker.items) w := by
  cases e with
  | spawn captured block parent =>
    have hown : AllKnown n (Stack.ownedBy ⟨w.processes.size⟩).items := fun v hv => (nomatch hv)
    cases parent with
    | none => exact AllKnown.push (AllKnown.push hown (v := .nil) trivial) (v := .process _) trivial
    | some parent =>
      have habove := AllKnown.push hown (v := .process parent) trivial
      exact AllKnown.push habove (v := .process _) trivial
  | deliver => exact he.2
  | finish => exact AllKnown.resultOf he
  | awaitVariable | awaitProcess => exact ⟨fun _ hv => AllKnown.push he hv, he⟩
  | receive =>
    exact ⟨fun _ _ _ hv => AllKnown.push he hv, fun _ _ v hv => (nomatch hv), fun _ _ => he⟩
  | later | schedule | bind | wakeReceiver => exact he
  | _ => exact trivial

theorem defines_known {e : Effect} (he : e.Known n) : e.Defines (Value.Known n) := by
  cases e with
  | define | setProperty | spawn | enter => exact he
  | defineWord => exact fun _ => trivial
  | install => exact fun _ _ => trivial
  | _ => exact trivial

/-- Effects that bring in what is known keep all known. -/
theorem Known.apply (h : w.Known n) {e : Effect} (he : e.Known n) : (w.apply e).Known n :=
  ⟨h.definitions.apply (defines_known he), h.cells.apply (passes_known n w) (brings_known he)⟩

theorem Known.replay (h : w.Known n) {es : List Effect} (he : ∀ e ∈ es, e.Known n) :
    (w.replay es).Known n :=
  replay_induct h fun _ e hmem hv => hv.apply (he e hmem)

/-! ## What words come up with -/

variable {s t : Stack}

theorem Yields.known {v : Value} (hv : w.Yields s v) (hw : w.Sound w) (h : w.Known w.processes.size)
    (ho : w.OwnerExists s.owner) (hs : AllKnown w.processes.size s.items) :
    v.Known w.processes.size := by
  cases hv with
  | kept hm => exact hs v hm
  | plain hd => exact trivial
  | self ho => exact trivial
  | @mailbox p hp =>
    show (w.process p).mailbox.index < w.processes.size
    rw [hw.matched.mailbox (ho p hp)]
    exact ho p hp
  | property ha => exact h.definitions.answer ha
  | binding hb => exact h.definitions.vocabulary _ _ _ hb

theorem Derives.known (hd : w.Derives s t) (hw : w.Sound w) (h : w.Known w.processes.size)
    (ho : w.OwnerExists s.owner) (hs : AllKnown w.processes.size s.items) :
    AllKnown w.processes.size t.items :=
  fun v hv => (hd.items v hv).known hw h ho hs

theorem Concludes.known {outcome : Outcome} (hc : w.Concludes s outcome) (hw : w.Sound w)
    (h : w.Known w.processes.size) (ho : w.OwnerExists s.owner)
    (hs : AllKnown w.processes.size s.items) : AllKnown w.processes.size (itemsOf outcome) := by
  cases outcome with
  | ok t => exact Derives.known hc hw h ho hs
  | error e => exact fun v hv => (nomatch hv)

end World

section Steps

variable {w : World} {env : EnvId} {s : Stack} {k : Continuation} {es : List Effect}

theorem SyncEffects.known {outcome : Outcome} (he : SyncEffects env s w es outcome) (hw : w.Sound w)
    (h : w.Known w.processes.size) (hs : s.Sound w) (hk : AllKnown w.processes.size s.items) :
    (∀ e ∈ es, e.Known w.processes.size) ∧ AllKnown w.processes.size (World.itemsOf outcome) := by
  have rest : ∀ {t}, w.Derives s t → AllKnown w.processes.size t.items :=
    fun ht => ht.known hw h hs.owner hk
  have one : ∀ {e : Effect}, e.Known w.processes.size → ∀ f ∈ [e], f.Known w.processes.size :=
    fun he => List.forall_mem_singleton.2 he
  cases he with
  | fail hf => exact ⟨by simp, fun v hv => (nomatch hv)⟩
  | compute ht => exact ⟨by simp, rest ht⟩
  | print line ht => exact ⟨one trivial, rest ht⟩
  | define name hv ht => exact ⟨one (hk _ hv), rest ht⟩
  | defun name hb ht => exact ⟨List.forall_mem_cons.2 ⟨trivial, one trivial⟩, rest ht⟩
  | adopt hv ht => exact ⟨one trivial, rest ht⟩
  | newObject hv ht => exact ⟨one trivial, AllKnown.push (rest ht) trivial⟩
  | setProperty key ho hv ht => exact ⟨one (hk _ hv), rest ht⟩
  | @spawn block t hb ht =>
    exact ⟨List.forall_mem_cons.2 ⟨trivial, one (h.definitions.captured env block)⟩,
      AllKnown.push (rest ht) trivial⟩
  | @deliver m message t hm hv ht =>
    refine ⟨one ⟨?_, hk _ hv⟩, rest ht⟩
    rcases hm with hm | ⟨p, hp, rfl⟩
    · exact hk _ hm
    · rw [hw.matched.mailbox (hs.items _ hp)]
      exact hs.items _ hp
  | newVariable name ht => exact ⟨one trivial, AllKnown.push (rest ht) trivial⟩
  | bind hd hv ht => exact ⟨one (hk _ hv), rest ht⟩

theorem AsyncEffects.known (he : AsyncEffects env s k w es) (hw : w.Sound w)
    (h : w.Known w.processes.size) (hs : s.Sound w) (hk : AllKnown w.processes.size s.items) :
    ∀ e ∈ es, e.Known w.processes.size := by
  have rest : ∀ {t}, w.Derives s t → AllKnown w.processes.size t.items :=
    fun ht => ht.known hw h hs.owner hk
  have two : ∀ {d e : Effect}, d.Known w.processes.size → e.Known w.processes.size →
      ∀ f ∈ [d, e], f.Known w.processes.size :=
    fun hd he => List.forall_mem_cons.2 ⟨hd, List.forall_mem_singleton.2 he⟩
  cases he with
  | resume hc => exact List.forall_mem_singleton.2 (hc.known hw h hs.owner hk)
  | report message ht => exact two trivial (rest ht)
  | activate exit hb ht | iterate n hb ht =>
    exact two trivial ⟨h.definitions.captured env _, fun _ _ hn => (nomatch hn), rest ht⟩
  | callWord hp hb ht =>
    refine two trivial ⟨h.definitions.captured env _, fun name v hn => ?_, rest ht⟩
    cases hn
    exact trivial
  | awaitVariable hv ht | awaitProcess hp ht | receive ht | after due ht =>
    exact List.forall_mem_singleton.2 (rest ht)
  | sync ht he =>
    obtain ⟨hes, hout⟩ := he.known hw h (ht.sound hw hs) (rest ht)
    exact List.forall_mem_append.2 ⟨hes, List.forall_mem_singleton.2 hout⟩
  | swallow => simp
  | stall => exact List.forall_mem_singleton.2 fun v hv => (nomatch hv)

theorem Does.known {c c' : Control} (hd : Does w c es c') (hw : w.Sound w)
    (h : w.Known w.processes.size) (hc : c.Sound w) (hk : AllKnown w.processes.size c.items) :
    (∀ e ∈ es, e.Known w.processes.size) ∧ AllKnown w.processes.size c'.items := by
  have none : AllKnown w.processes.size [] := fun v hv => (nomatch hv)
  cases hd with
  | finish | enough | finishProcess => exact ⟨List.forall_mem_singleton.2 hk, none⟩
  | fillSlot => exact ⟨List.forall_mem_singleton.2 trivial, none⟩
  | literal => exact ⟨by simp, AllKnown.push hk trivial⟩
  | block | unbound => exact ⟨List.forall_mem_singleton.2 trivial, AllKnown.push hk trivial⟩
  | value hv => exact ⟨by simp, AllKnown.push hk (h.definitions.lookup hv)⟩
  | unresolved => exact ⟨List.forall_mem_singleton.2 none, none⟩
  | call hv hs => exact hs.known hw h hc.1 hk
  | fail hv hs =>
    obtain ⟨hes, hout⟩ := hs.known hw h hc.1 hk
    exact ⟨List.forall_mem_append.2 ⟨hes, List.forall_mem_singleton.2 hout⟩, none⟩
  | takeOver hv ha => exact ⟨ha.known hw h hc.1 hk, none⟩
  | goOn | skip | giveUp => exact ⟨by simp, hk⟩
  | leave => exact ⟨List.forall_mem_singleton.2 trivial, hk⟩
  | harvest => exact ⟨List.forall_mem_singleton.2 trivial, AllKnown.push hk trivial⟩
  | again =>
    refine ⟨List.forall_mem_cons.2 ⟨trivial, List.forall_mem_singleton.2 ?_⟩, none⟩
    exact ⟨h.definitions.captured _ _, fun _ _ hn => (nomatch hn), hk⟩

theorem Begins.known {n : Nat} {task : Task} {c : Control} (hb : Begins w task es c)
    (h : w.Known n) (ht : task.Known n) : (∀ e ∈ es, e.Known n) ∧ AllKnown n c.items := by
  have none : AllKnown n [] := fun v hv => (nomatch hv)
  cases hb with
  | resume => exact ⟨by simp, ht⟩
  | activate => exact ⟨List.forall_mem_singleton.2 ⟨ht.1, ht.2.1⟩, ht.2.2⟩
  | start => exact ⟨List.forall_mem_singleton.2 trivial, ht⟩
  | receive ho =>
    obtain ⟨⟨rest, htake⟩, -⟩ := World.take?_of_offer ho
    exact ⟨List.forall_mem_singleton.2 ht, AllKnown.push ht (h.cells.take htake).1⟩
  | refuse => exact ⟨List.forall_mem_singleton.2 ht, none⟩
  | wake => exact ⟨List.forall_mem_singleton.2 trivial,
      AllKnown.push (List.forall_mem_cons.1 ht).2 (List.forall_mem_cons.1 ht).1⟩
  | pass => exact ⟨List.forall_mem_singleton.2 trivial, none⟩

end Steps

/-! ## What runs keep -/

/-- All that is held and all that goes on is known. -/
structure Moment.Known (m : Moment) : Prop where
  world : m.world.Known m.world.processes.size
  control : AllKnown m.world.processes.size m.control.items

/-- Stacks of sound values, with mailboxes that exist. -/
def Stack.IsWhole (w : World) (s : Stack) : Prop :=
  s.Sound w ∧ AllKnown w.processes.size s.items

theorem Stack.isWhole_empty (w : World) : Stack.empty.IsWhole w :=
  ⟨.empty w, fun _ hv => (nomatch hv)⟩

/-- **A step brings in what is known**: no message is posted to a mailbox that is not there. -/
theorem Next.known {m m' : Moment} {es : List Event}
    (hn : Next (.evaluations fun w s => s.IsWhole w) m es m') (hs : m.Sound) (h : m.Known) :
    (∀ e ∈ effectsOf es, e.Known m.world.processes.size) ∧ m'.Known := by
  have grow : ∀ es, m.world.processes.size ≤ (m.world.replay es).processes.size :=
    fun es => (m.world.grows_replay es).processes
  cases hn with
  | work hd =>
    obtain ⟨he, hc⟩ := hd.known hs.world h.world hs.control h.control
    rw [effectsOf_map]
    exact ⟨he, (h.world.replay he).mono (grow _), hc.mono (grow _)⟩
  | turn hr hb =>
    rename_i w c roots task rest es
    have hw : (w.apply .beginTurn).Known w.processes.size := h.world.apply (e := .beginTurn) trivial
    obtain ⟨he, hc⟩ := hb.known hw (h.world.cells.ready task (by rw [hr]; simp))
    rw [effectsOf_map]
    exact ⟨List.forall_mem_cons.2 ⟨trivial, he⟩, (hw.replay he).mono (grow (.beginTurn :: es)),
      hc.mono (grow (.beginTurn :: es))⟩
  | evaluate strict program henv hst =>
    exact ⟨List.forall_mem_singleton.2 trivial, h.world.apply (e := .launch strict program) trivial,
      hst.2⟩
  | @install w roots =>
    have hw : (w.apply .install).Known w.processes.size := h.world.apply trivial
    exact ⟨List.forall_mem_singleton.2 trivial, hw.mono (w.grows_apply .install).processes,
      fun v hv => (nomatch hv)⟩
  | outside he =>
    rename_i w c roots e
    have hk : e.Known w.processes.size := by
      rcases he with (rfl | rfl | rfl | ⟨elapsed, lapses, rfl⟩) | rfl | ⟨epoch, rfl⟩ <;> exact trivial
    exact ⟨List.forall_mem_singleton.2 hk, (h.world.apply hk).mono (grow [e]),
      h.control.mono (grow [e])⟩

theorem Run.known {m : Moment} {es : List Event}
    (h : Run (.evaluations fun w s => s.IsWhole w) .dawn es m) : m.Known := by
  induction h with
  | refl => exact ⟨.empty _, fun v hv => (nomatch hv)⟩
  | step hr hn ih =>
    have hst : ∀ (w : World) (s : Stack), s.IsWhole w → s.Sound w := fun _ _ hs => hs.1
    exact (hn.known (hr.sound (Policy.evaluations_sound hst) Moment.sound_dawn) ih).2

end Catena
