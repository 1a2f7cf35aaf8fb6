import Catena.Proofs.Machine.Activations
import Catena.Proofs.Machine.Sound

/-!
# The estate of a process

A process runs the code of the block it was made from in environments of its own: the one it was
made with, and one for each time it enters the block or a block written in it. These environments
make up its estate. `Estate.after` says what becomes of it when something happens: it grows when the
process enters such a block, and what the process knows grows when it makes a definition.

No other thread can reach these environments. That is a matter of who holds which continuation, and
the invariant `Secure` says so for all continuations at once.
-/

namespace Catena

mutual

/-- The blocks written in a datum, itself included. -/
def Datum.blocks {ι : Type} : Datum ι → List ι
  | .block id body => id :: Datum.blocksOf body
  | _ => []

/-- The blocks written in some code. -/
def Datum.blocksOf {ι : Type} : List (Datum ι) → List ι
  | [] => []
  | d :: code => d.blocks ++ Datum.blocksOf code

end

/-- A block and the blocks written in it. -/
def Block.blocks (block : Block) : List BlockId := block.id :: Datum.blocksOf block.code

/-- Where a process runs the code of its block, and what it knows there. -/
structure Estate where
  /-- The block, and the blocks written in it. -/
  blocks : List BlockId := []
  region : Region := {}
  /-- The bindings of the snapshot of its block, and those it has made itself. -/
  knows : Name → Value → Prop := fun _ _ => False

namespace Estate

/-- The estate of a process that has made some bindings. -/
def learn (g : Estate) (bindings : Name → Value → Prop) : Estate :=
  { g with knows := fun name v => g.knows name v ∨ bindings name v }

/-- The estate of a new process, which knows the snapshot of its block. -/
def found (w : World) (captured : Bindings Value) (block : Block) : Estate where
  blocks := block.blocks
  region := ⟨[⟨w.forest.handles.size⟩], [⟨w.forest.scopes.size⟩]⟩
  knows name v := captured.get? name = some v

/-- The estate with the environment of a block that the process enters. -/
def enlarge (g : Estate) (w : World) (own : Option (Name × Value)) : Estate :=
  { g.learn fun name v => own = some (name, v) with
    region := ((g.region.addScope ⟨w.forest.scopes.size⟩).addEnv ⟨w.forest.handles.size⟩).addScope
      ⟨w.forest.scopes.size + 1⟩ }

/-- What becomes of the estate of a process when something happens. -/
def after (p : ProcessId) (w : World) (g : Estate) (e : Event) : Estate :=
  match e.effect with
  | .spawn captured block _ => if w.processes.size = p.index then found w captured block else g
  | .enter _ own block =>
    if e.thread = some (.process p) ∧ block.id ∈ g.blocks then g.enlarge w own else g
  | .define _ key u =>
    if e.thread = some (.process p) then g.learn fun name v => name = key ∧ v = u else g
  | .defineWord _ key behaviour =>
    if e.thread = some (.process p) then
      g.learn fun name v => name = key ∧ v = .primitive ⟨w.primitives, key, behaviour⟩
    else g
  | .adopt _ n =>
    if e.thread = some (.process p) then g.learn fun name v => (w.vocabulary n).get? name = some v
    else g
  | _ => g

/-- The estate of a process after a sequence of events. -/
def replay (p : ProcessId) (w : World) (g : Estate) : List Event → Estate
  | [] => g
  | e :: es => replay p (w.apply e.effect) (g.after p w e) es

theorem replay_append (p : ProcessId) (w : World) (g : Estate) (es fs : List Event) :
    g.replay p w (es ++ fs) = (g.replay p w es).replay p (w.replay (effectsOf es)) fs := by
  induction es generalizing w g with
  | nil => rfl
  | cons e es ih => exact ih _ _

/-! ## Who may work where -/

section Lets

variable (p : ProcessId) (g : Estate) (w : World)

/-- An environment that a thread may work in. -/
def Lets (t : Option Thread) (env : EnvId) : Prop :=
  env.index < w.forest.handles.size ∧ (env ∈ g.region.envs → t = some (.process p))

/-- A way back that stays in the estate, or outside it. -/
def LetsGuard (guard : Guard) : Prop :=
  guard.saved.index < w.forest.scopes.size ∧ guard.env.index < w.forest.handles.size ∧
    (guard.saved ∈ g.region.scopes ↔ guard.env ∈ g.region.envs)

/-- A frame of the continuation of a thread. -/
def LetsFrame (t : Option Thread) : Frame → Prop
  | .resume env _ | .again env _ _ => g.Lets p w t env
  | .exit _ guard => g.LetsGuard w guard

/-- A continuation that works where it may. -/
def LetsRest (k : Continuation) : Prop := ∀ frame ∈ k.frames, g.LetsFrame p w k.thread? frame

/-- The snapshot of a block that a thread is about to enter. -/
def LetsEnter (t : Option Thread) (captured : Bindings Value) (block : Block) : Prop :=
  t = some (.process p) → p.index < w.processes.size ∧
    (block.id ∈ g.blocks → ∀ name v, captured.get? name = some v → g.knows name v)

/-- A waker that works where it may. -/
def LetsWaker : Waker → Prop
  | .resume _ _ k => g.LetsRest p w k
  | .report _ => True

/-- A task that works where it may. -/
def LetsTask : Task → Prop
  | .resume k _ => g.LetsRest p w k
  | .activate captured _ block _ _ k =>
    g.LetsRest p w k ∧ g.LetsEnter p w k.thread? captured block
  | .wakeReceiver _ waker | .wakeWaiter waker _ => g.LetsWaker p w waker
  | .start _ _ _ | .script _ => True

/-- What may go on inside a turn. -/
def LetsControl : Control → Prop
  | .rest => True
  | .run env _ _ k => g.Lets p w k.thread? env ∧ g.LetsRest p w k
  | .resume k _ => g.LetsRest p w k

/-- What may happen. -/
def LetsEvent (e : Event) : Prop :=
  match e.effect with
  | .define env _ _ | .defineWord env _ _ | .adopt env _ => g.Lets p w e.thread env
  | .restore guard | .harvest guard => g.LetsGuard w guard
  | .enter captured _ block => g.LetsEnter p w e.thread captured block
  | .later task | .schedule _ task => g.LetsTask p w task
  | .awaitVariable _ _ k | .awaitProcess _ _ k | .receive _ k => g.LetsRest p w k
  | .wakeReceiver _ waker | .wakeWaiter waker => g.LetsWaker p w waker
  | _ => True

/-- A block of the estate has no snapshot but the process's own: it gets its first one from the
process itself, where that runs the code of its block. One that has a snapshot already when the
process is made has nothing in it that the snapshot of the whole block has not. -/
def SnapshotsOwn (e : Event) : Prop :=
  match e.effect with
  | .snapshot env block =>
    block.id ∈ g.blocks → w.captured? block.id = none →
      e.thread = some (.process p) ∧ env ∈ g.region.envs
  | .spawn captured block _ =>
    w.processes.size = p.index → ∀ id ∈ block.blocks, ∀ b, w.captured? id = some b →
      ∀ name v, b.get? name = some v → captured.get? name = some v
  | _ => True

end Lets

/-- The estate is closed, what is bound in it is known, the process has its environment there, and
all continuations work where they may. -/
structure Secure (p : ProcessId) (g : Estate) (w : World) : Prop where
  young : w.processes.size ≤ p.index → g.blocks = [] ∧ g.region = {}
  forest : w.forest.Encloses g.region g.knows
  captures : w.captures.All fun i captured => ⟨i⟩ ∈ g.blocks →
    ∀ b, captured = some b → ∀ name v, b.get? name = some v → g.knows name v
  processes : w.processes.All fun i process =>
    process.env.index < w.forest.handles.size ∧ (process.env ∈ g.region.envs ↔ i = p.index)
  cells : Holders (fun _ _ => True) (g.LetsTask p w) (fun _ => g.LetsWaker p w) w

/-! ## What estates keep -/

/-- Later, everything that was there belongs to the estate as before, and what a process knew it
still knows. -/
structure Extends (p : ProcessId) (g : Estate) (w : World) (g' : Estate) (w' : World) : Prop where
  forest : w.forest.Grows w'.forest
  processes : w.processes.size ≤ w'.processes.size
  mem_envs : ∀ env : EnvId, env.index < w.forest.handles.size →
    (env ∈ g'.region.envs ↔ env ∈ g.region.envs)
  mem_scopes : ∀ s : ScopeId, s.index < w.forest.scopes.size →
    (s ∈ g'.region.scopes ↔ s ∈ g.region.scopes)
  knows : p.index < w.processes.size →
    g'.blocks = g.blocks ∧ ∀ name v, g.knows name v → g'.knows name v

namespace Extends

variable {p : ProcessId} {g g' g'' : Estate} {w w' w'' : World}

/-- The estate stays as it is. -/
theorem of_grows (hf : w.forest.Grows w'.forest) (hp : w.processes.size ≤ w'.processes.size) :
    Extends p g w g w' :=
  ⟨hf, hp, fun _ _ => Iff.rfl, fun _ _ => Iff.rfl, fun _ => ⟨rfl, fun _ _ h => h⟩⟩

theorem trans (h : Extends p g w g' w') (h' : Extends p g' w' g'' w'') : Extends p g w g'' w'' where
  forest := h.forest.trans h'.forest
  processes := h.processes.trans h'.processes
  mem_envs env he := (h'.mem_envs env (he.trans_le h.forest.handles)).trans (h.mem_envs env he)
  mem_scopes s hs := (h'.mem_scopes s (hs.trans_le h.forest.scopes)).trans (h.mem_scopes s hs)
  knows hp := by
    obtain ⟨hb, hk⟩ := h.knows hp
    obtain ⟨hb', hk'⟩ := h'.knows (hp.trans_le h.processes)
    exact ⟨hb'.trans hb, fun name v hv => hk' name v (hk name v hv)⟩

/-- The estate keeps its blocks and its region. -/
theorem of_learn (hf : w.forest.Grows w'.forest) (hp : w.processes.size ≤ w'.processes.size)
    (bindings : Name → Value → Prop) : Extends p g w (g.learn bindings) w' :=
  ⟨hf, hp, fun _ _ => Iff.rfl, fun _ _ => Iff.rfl, fun _ => ⟨rfl, fun _ _ => .inl⟩⟩

variable (h : Extends p g w g' w')

include h

theorem lets {t : Option Thread} {env : EnvId} (he : g.Lets p w t env) : g'.Lets p w' t env :=
  ⟨he.1.trans_le h.forest.handles, fun hin => he.2 ((h.mem_envs env he.1).1 hin)⟩

theorem letsGuard {guard : Guard} (hg : g.LetsGuard w guard) : g'.LetsGuard w' guard := by
  obtain ⟨hs, he, hiff⟩ := hg
  refine ⟨hs.trans_le h.forest.scopes, he.trans_le h.forest.handles, ?_⟩
  exact (h.mem_scopes _ hs).trans (hiff.trans (h.mem_envs _ he).symm)

theorem letsFrame {t : Option Thread} {frame : Frame} (hf : g.LetsFrame p w t frame) :
    g'.LetsFrame p w' t frame := by
  cases frame with
  | resume env code => exact h.lets hf
  | exit kind guard => exact h.letsGuard hf
  | again env block remaining => exact h.lets hf

theorem letsRest {k : Continuation} (hk : g.LetsRest p w k) : g'.LetsRest p w' k :=
  fun frame hf => h.letsFrame (hk frame hf)

theorem letsEnter {t : Option Thread} {captured : Bindings Value} {block : Block}
    (he : g.LetsEnter p w t captured block) : g'.LetsEnter p w' t captured block := by
  intro ht
  obtain ⟨hp, hin⟩ := he ht
  obtain ⟨hb, hk⟩ := h.knows hp
  refine ⟨hp.trans_le h.processes, fun hmem name v hv => hk name v (hin ?_ name v hv)⟩
  rwa [← hb]

theorem letsWaker {waker : Waker} (hw : g.LetsWaker p w waker) : g'.LetsWaker p w' waker := by
  cases waker with
  | resume epoch s k => exact h.letsRest hw
  | report tag => exact trivial

theorem letsTask {task : Task} (ht : g.LetsTask p w task) : g'.LetsTask p w' task := by
  cases task with
  | resume k outcome => exact h.letsRest ht
  | activate captured own block exit s k => exact ⟨h.letsRest ht.1, h.letsEnter ht.2⟩
  | start q code s => exact trivial
  | wakeReceiver m waker => exact h.letsWaker ht
  | wakeWaiter waker value => exact h.letsWaker ht
  | script commands => exact trivial

theorem letsControl {c : Control} (hc : g.LetsControl p w c) : g'.LetsControl p w' c := by
  cases c with
  | rest => exact trivial
  | run env code s k => exact ⟨h.lets hc.1, h.letsRest hc.2⟩
  | resume k outcome => exact h.letsRest hc

theorem letsEvent {e : Event} (he : g.LetsEvent p w e) : g'.LetsEvent p w' e := by
  obtain ⟨t, e⟩ := e
  cases e with
  | define | defineWord | adopt => exact h.lets he
  | restore | harvest => exact h.letsGuard he
  | enter captured own block => exact h.letsEnter he
  | later | schedule => exact h.letsTask he
  | awaitVariable | awaitProcess | receive => exact h.letsRest he
  | wakeReceiver | wakeWaiter => exact h.letsWaker he
  | _ => exact trivial

theorem cells (hc : Holders (fun _ _ => True) (g.LetsTask p w) (fun _ => g.LetsWaker p w) w'') :
    Holders (fun _ _ => True) (g'.LetsTask p w') (fun _ => g'.LetsWaker p w') w'' :=
  hc.imp (fun _ _ hv => hv) (fun _ => h.letsTask) fun _ _ => h.letsWaker

end Extends

end Estate

namespace Estate

variable {p : ProcessId} {g : Estate} {w : World}

/-- **Whatever happens, an estate keeps what it has.** -/
theorem Secure.extends_after (h : Secure p g w) (e : Event) :
    Extends p g w (g.after p w e) (w.apply e.effect) := by
  obtain ⟨t, e⟩ := e
  have hf := (w.alters_apply e).toGrows
  have hp := (w.grows_apply e).processes
  cases e with
  | spawn captured block parent =>
    simp only [after]
    split
    · rename_i hnew
      obtain ⟨-, hregion⟩ := h.young hnew.le
      refine ⟨hf, hp, fun env henv => ?_, fun s hs => ?_, fun hlt => ?_⟩
      · rw [hregion]
        exact Forest.Encloses.mem_addEnv_iff (r := {}) henv
      · rw [hregion]
        exact Forest.Encloses.mem_addScope_iff (r := {}) hs
      · exact absurd hnew.symm hlt.ne
    · exact .of_grows hf hp
  | enter captured own block =>
    simp only [after]
    split
    · refine ⟨hf, hp, fun env henv => Forest.Encloses.mem_addEnv_iff henv, fun s hs => ?_,
        fun _ => ⟨rfl, fun _ _ => .inl⟩⟩
      have hne : s ≠ ⟨w.forest.scopes.size + 1⟩ := by
        rintro rfl
        exact absurd hs (by simp)
      exact (List.mem_cons.trans (or_iff_right hne)).trans (Forest.Encloses.mem_addScope_iff hs)
    · exact .of_grows hf hp
  | define | defineWord | adopt =>
    simp only [after]
    split
    · exact .of_learn hf hp _
    · exact .of_grows hf hp
  | _ => exact .of_grows hf hp

/-- A process that has not been made has no estate. -/
theorem Secure.young_apply (h : Secure p g w) (e : Event)
    (hp : (w.apply e.effect).processes.size ≤ p.index) :
    (g.after p w e).blocks = [] ∧ (g.after p w e).region = {} := by
  obtain ⟨t, e⟩ := e
  have hyoung := h.young ((w.grows_apply e).processes.trans hp)
  cases e with
  | spawn captured block parent =>
    have hlt : w.processes.size < p.index := by
      have hp : (w.processes.push _).size ≤ p.index := hp
      rwa [Table.size_push] at hp
    simp only [after, hlt.ne, if_false]
    exact hyoung
  | enter captured own block =>
    simp only [after, hyoung.1, List.not_mem_nil, and_false, if_false]
    exact ⟨trivial, hyoung.2⟩
  | define | defineWord | adopt =>
    simp only [after]
    split <;> exact hyoung
  | _ => exact hyoung

/-- A block body that the process enters becomes part of its estate. -/
theorem Secure.forest_enlarge (h : Secure p g w) {captured : Bindings Value}
    (hc : ∀ name v, captured.get? name = some v → g.knows name v) (own : Option (Name × Value)) :
    (w.openActivation captured own).1.forest.Encloses (g.enlarge w own).region
      (g.enlarge w own).knows := by
  have hlearn : w.forest.Encloses g.region (g.enlarge w own).knows := h.forest.imp fun _ _ => .inl
  have hseed := hlearn.addEnv_inside fun name v hv => .inl (hc name v hv)
  have hin : (⟨w.forest.handles.size⟩ : EnvId) ∈
      ((g.region.addScope ⟨w.forest.scopes.size⟩).addEnv ⟨w.forest.handles.size⟩).envs :=
    List.mem_cons_self ..
  have hsize : (w.forest.addEnv ⟨captured, none⟩).1.scopes.size = w.forest.scopes.size + 1 :=
    Table.size_push _ _
  cases own with
  | none =>
    have hentered := hseed.enter_inside hin
    rw [hsize] at hentered
    exact hentered
  | some entry =>
    have hdefined := hseed.define (hseed.envs_lt _ hin) entry.1 (a := entry.2) fun _ => .inr rfl
    have hentered := hdefined.enter_inside hin
    rw [Forest.size_scopes_define, hsize] at hentered
    exact hentered

/-- A block body that is not the process's stays outside its estate. -/
theorem Secure.forest_openActivation (h : Secure p g w) (captured : Bindings Value)
    (own : Option (Name × Value)) :
    (w.openActivation captured own).1.forest.Encloses g.region g.knows := by
  have hseed := h.forest.addEnv_outside ⟨captured, none⟩
  have hout := h.forest.new_env_notMem
  cases own with
  | none => exact hseed.enter_outside hout
  | some entry =>
    have hlt : w.forest.handles.size < (w.forest.addEnv ⟨captured, none⟩).1.handles.size :=
      Table.size_lt_size_push _ _
    have hdefined := hseed.define (e := ⟨w.forest.handles.size⟩) hlt entry.1 (a := entry.2)
      fun hin => absurd hin hout
    exact hdefined.enter_outside hout

/-- The environment of a new interpreter is outside all estates. -/
theorem Secure.forest_newBuiltinRoot (h : Secure p g w) :
    w.newBuiltinRoot.1.forest.Encloses g.region g.knows ∧
      w.newBuiltinRoot.2.index < w.newBuiltinRoot.1.forest.handles.size := by
  refine World.newBuiltinRoot_induct (w := w) (I := fun v => v.forest.Encloses g.region g.knows ∧
    w.newRoot.2.index < v.forest.handles.size) ⟨h.forest.addEnv_outside _, ?_⟩ ?_
  · exact Table.size_lt_size_push _ _
  · intro v name behaviour _ hv
    exact ⟨hv.1.define hv.2 name fun hin => absurd hin h.forest.new_env_notMem, hv.2⟩

/-- What a process makes known is bound in its estate only by itself. -/
theorem Secure.forest_learn (h : Secure p g w) (bindings : Name → Value → Prop) :
    w.forest.Encloses g.region (g.learn bindings).knows := h.forest.imp fun _ _ => .inl

/-- **Estates stay closed**, and all that is bound in one is known. -/
theorem Secure.forest_apply (h : Secure p g w) {e : Event} (he : g.LetsEvent p w e) :
    (w.apply e.effect).forest.Encloses (g.after p w e).region (g.after p w e).knows := by
  obtain ⟨t, e⟩ := e
  by_cases hkeep : e.keepsDefinitions = true
  · rw [(w.sameDefinitions_apply hkeep).forest]
    cases e with
    | define | defineWord | adopt | spawn | enter => cases hkeep
    | _ => exact h.forest
  cases e with
  | snapshot env block =>
    simp only [World.apply, World.instantiate]
    split <;> exact h.forest
  | define env name v =>
    simp only [after]
    split
    · exact (h.forest_learn _).define he.1 name fun _ => .inr ⟨rfl, rfl⟩
    · rename_i ht
      exact h.forest.define he.1 name fun hin => absurd (he.2 hin) ht
  | defineWord env name behaviour =>
    simp only [after]
    split
    · exact (h.forest_learn _).define he.1 name fun _ => .inr ⟨rfl, rfl⟩
    · rename_i ht
      exact h.forest.define he.1 name fun hin => absurd (he.2 hin) ht
  | adopt env v =>
    simp only [after]
    split
    · exact (h.forest_learn _).adopt he.1 fun _ _ _ => .inr
    · rename_i ht
      exact h.forest.adopt he.1 fun hin => absurd (he.2 hin) ht
  | newObject | setProperty | launch => exact h.forest
  | spawn captured block parent =>
    simp only [after]
    split
    · exact h.forest.clear.addEnv_inside fun _ _ hv => hv
    · exact h.forest.addEnv_outside _
  | restore guard => exact h.forest.moveTo he.1 he.2.2
  | harvest guard => exact h.forest.moveTo he.1 he.2.2
  | enter captured own block =>
    simp only [after]
    split
    · rename_i hin
      exact h.forest_enlarge ((he hin.1).2 hin.2) own
    · exact h.forest_openActivation captured own
  | install => exact h.forest_newBuiltinRoot.1
  | _ => exact absurd rfl hkeep

/-- A snapshot that is taken in an estate has only known bindings. -/
theorem Secure.capture (h : Secure p g w) {env : EnvId} (he : env ∈ g.region.envs) (code : Code) :
    ∀ name v, (w.capture env code).get? name = some v → g.knows name v := by
  intro name v hv
  exact h.forest.lookup he (World.get?_capture.1 hv).2

theorem Secure.captures_of_captured? (h : Secure p g w) {id : BlockId} (hid : id ∈ g.blocks)
    {b : Bindings Value} (hb : w.captured? id = some b) :
    ∀ name v, b.get? name = some v → g.knows name v :=
  Table.All.get_of_default (i := id.index) h.captures (fun _ _ hn => by cases hn) hid b hb

/-- The snapshot that a block of the estate is entered with. -/
theorem Secure.captured (h : Secure p g w) {t : Option Thread} {env : EnvId} {block : Block}
    (hown : g.SnapshotsOwn p w ⟨t, .snapshot env block⟩) (hb : block.id ∈ g.blocks) :
    ∀ name v, (w.instantiate env block).2.get? name = some v → g.knows name v := by
  unfold World.instantiate
  cases hc : w.captured? block.id with
  | some b => exact h.captures_of_captured? hb hc
  | none => exact h.capture (hown hb hc).2 block.code

/-- **The snapshots of the blocks of an estate stay known.** -/
theorem Secure.captures_apply (h : Secure p g w) {e : Event} (hown : g.SnapshotsOwn p w e) :
    (w.apply e.effect).captures.All fun i captured => ⟨i⟩ ∈ (g.after p w e).blocks →
      ∀ b, captured = some b → ∀ name v, b.get? name = some v → (g.after p w e).knows name v := by
  obtain ⟨t, e⟩ := e
  have learned : ∀ bindings, w.captures.All fun i captured => ⟨i⟩ ∈ g.blocks →
      ∀ b, captured = some b → ∀ name v, b.get? name = some v → (g.learn bindings).knows name v :=
    fun _ => h.captures.imp fun _ _ hc hid b hb name v hv => .inl (hc hid b hb name v hv)
  by_cases hkeep : e.keepsDefinitions = true
  · rw [(w.sameDefinitions_apply hkeep).captures]
    cases e with
    | define | defineWord | adopt | spawn | enter => cases hkeep
    | _ => exact h.captures
  cases e with
  | snapshot env block =>
    simp only [World.apply, World.instantiate]
    split
    · exact h.captures
    · rename_i hnone
      refine h.captures.set fun hid b hb => ?_
      cases hb
      exact h.capture (hown hid hnone).2 block.code
  | define | defineWord | adopt =>
    simp only [after]
    split
    · exact learned _
    · exact h.captures
  | spawn captured block parent =>
    simp only [after]
    split
    · rename_i hnew
      intro i other hget hid b hb
      exact hown hnew ⟨i⟩ hid b ((Table.get_eq_of_get? hget).trans hb)
    · exact h.captures
  | enter captured own block =>
    have hsame : (w.apply (.enter captured own block)).captures = w.captures := by
      cases own <;> rfl
    rw [hsame]
    simp only [after]
    split
    · exact learned _
    · exact h.captures
  | newObject | setProperty | restore | harvest => exact h.captures
  | launch strict program =>
    refine h.captures.grow _ fun _ _ _ hb => ?_
    cases hb
  | install =>
    have hsame : (w.apply .install).captures = w.captures :=
      World.newBuiltinRoot_induct (I := fun v => v.captures = w.captures) rfl fun _ _ _ _ hv => hv
    rw [hsame]
    exact h.captures
  | _ => exact absurd rfl hkeep

/-- **The process has its environment in its estate**, and the others have theirs outside. -/
theorem Secure.processes_apply (h : Secure p g w) (e : Event) :
    (w.apply e.effect).processes.All fun i process =>
      process.env.index < (w.apply e.effect).forest.handles.size ∧
        (process.env ∈ (g.after p w e).region.envs ↔ i = p.index) := by
  have hext := h.extends_after e
  have hold : w.processes.All fun i process =>
      process.traits.1.index < (w.apply e.effect).forest.handles.size ∧
        (process.traits.1 ∈ (g.after p w e).region.envs ↔ i = p.index) :=
    h.processes.imp fun i process hp =>
      ⟨hp.1.trans_le hext.forest.handles, (hext.mem_envs _ hp.1).trans hp.2⟩
  by_cases hspawn : e.effect.spawns = false
  · exact (w.sameTraits_apply hspawn).all (P := fun i traits =>
      traits.1.index < (w.apply e.effect).forest.handles.size ∧
        (traits.1 ∈ (g.after p w e).region.envs ↔ i = p.index)) hold
  obtain ⟨t, e⟩ := e
  cases e with
  | spawn captured block parent =>
    refine Table.All.push hold ⟨Table.size_lt_size_push _ _, ?_⟩
    simp only [after]
    split
    · rename_i hnew
      exact iff_of_true (List.mem_cons_self ..) hnew
    · rename_i hnew
      exact iff_of_false h.forest.new_env_notMem hnew
  | _ => exact absurd rfl hspawn

/-- What the cells of a world release works where it may. -/
theorem passes (p : ProcessId) (g : Estate) (r w : World) :
    Passes (fun _ _ => True) (g.LetsTask p r) (fun _ => g.LetsWaker p r) w where
  waiter hk _ _ := hk
  joiner _ hk _ _ := hk
  receiver hk := hk

theorem brings {r : World} {e : Event} (he : g.LetsEvent p r e) :
    e.effect.Brings (fun _ _ => True) (g.LetsTask p r) (fun _ => g.LetsWaker p r) w := by
  obtain ⟨t, e⟩ := e
  cases e with
  | later | schedule | wakeReceiver => exact he
  | awaitVariable | awaitProcess => exact ⟨fun _ _ => he, he⟩
  | receive s k => exact ⟨fun _ _ _ _ => he, fun _ _ => he, fun _ _ => he⟩
  | _ => exact trivial

/-- **What may happen keeps an estate secure.** -/
theorem Secure.apply (h : Secure p g w) {e : Event} (he : g.LetsEvent p w e)
    (hown : g.SnapshotsOwn p w e) : Secure p (g.after p w e) (w.apply e.effect) where
  young := h.young_apply e
  forest := h.forest_apply he
  captures := h.captures_apply hown
  processes := h.processes_apply e
  cells := by
    have hext := h.extends_after e
    exact (hext.cells h.cells).apply (passes p _ _ w) (brings (hext.letsEvent he))

end Estate

end Catena
