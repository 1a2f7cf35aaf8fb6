import Catena.Proofs.Machine.Cells
import Catena.Proofs.Machine.Moment
import Catena.Proofs.Store.Regions

/-!
# Activations

The body of a block is run in an environment that is made for it: a scope with the snapshot of the
block, and inside it an empty scope, the frame, for what the body defines. A process has its
snapshot in the frame, and an interpreter has a frame only. `Roster` lists all these activations as
they begin, with the frame, the thread and the code of each.

`World.alters_apply` says what an effect can do to scopes and environments that are there already.
So a new activation gets scopes that no other has, and keeps them (`Roster.Charts`): whatever
happens, its environment stands on its frame, or on its snapshot once the scope of the body has been
left.
-/

namespace Catena

/-! ## What effects leave alone -/

/-- The environment in whose innermost scope an effect writes. -/
def Effect.writesIn : Effect → Option EnvId
  | .define env _ _ | .defineWord env _ _ | .adopt env _ => some env
  | _ => none

/-- The environment whose handle an effect moves. -/
def Effect.moves : Effect → Option EnvId
  | .restore guard | .harvest guard => some guard.env
  | _ => none

section Alters

variable {S : ScopeId → Prop} {E : EnvId → Prop}

namespace World

theorem alters_openActivation (w : World) (captured : Bindings Value)
    (own : Option (Name × Value)) :
    w.forest.Alters S E (w.openActivation captured own).1.forest := by
  have hseed : w.forest.Alters S E (w.forest.addEnv ⟨captured, none⟩).1 := .addEnv _ _
  cases own with
  | none => exact hseed.next (.enter _ rfl)
  | some entry =>
    have hown : w.forest.Alters S E
        ((w.forest.addEnv ⟨captured, none⟩).1.define ⟨w.forest.handles.size⟩ entry.1 entry.2) :=
      hseed.next (.define _ _ _ (w.forest.current_addEnv _).symm)
    exact hown.next (.enter _ rfl)

theorem alters_newBuiltinRoot (w : World) :
    w.forest.Alters S E w.newBuiltinRoot.1.forest ∧
      w.newBuiltinRoot.1.forest.current w.newRoot.2 = ⟨w.forest.scopes.size⟩ :=
  newBuiltinRoot_induct (I := fun v => w.forest.Alters S E v.forest ∧
      v.forest.current w.newRoot.2 = ⟨w.forest.scopes.size⟩)
    ⟨.addEnv _ _, w.forest.current_addEnv _⟩
    fun _ _ _ _ hv => ⟨hv.1.next (.define _ _ _ hv.2.symm), hv.2⟩

/-- **What an effect can do to scopes and environments that are there**: write to the innermost
scope of one environment, or move the handle of one. -/
theorem alters_apply (w : World) (e : Effect) :
    w.forest.Alters (fun x => e.writesIn.map w.forest.current = some x) (e.moves = some ·)
      (w.apply e).forest := by
  by_cases hkeep : e.keepsDefinitions = true
  · rw [(w.sameDefinitions_apply hkeep).forest]
    exact .refl _
  cases e with
  | snapshot env block =>
    simp only [apply, instantiate]
    split <;> exact .refl _
  | define | defineWord => exact .define _ _ _ rfl
  | adopt => exact .adopt _ _ rfl
  | spawn captured block parent => exact .addEnv _ _
  | restore guard => exact .moveTo _ _ rfl
  | harvest guard => exact .moveTo _ _ rfl
  | enter captured own block => exact w.alters_openActivation captured own
  | newObject | setProperty | launch => exact .refl _
  | install => exact w.alters_newBuiltinRoot.1
  | _ => exact absurd rfl hkeep

/-- A scope changes only where it is the innermost one of an environment that is written in. -/
theorem scope_replay {x : ScopeId} {es : List Effect} (w : World)
    (hx : x.index < w.forest.scopes.size)
    (h : ∀ e ∈ es, ∀ env, e.writesIn = some env → env.index < w.forest.handles.size ∧
      w.forest.current env ≠ x ∧ ∀ d ∈ es, d.moves = none) :
    (w.replay es).forest.scopes.get? x.index = w.forest.scopes.get? x.index := by
  induction es generalizing w with
  | nil => rfl
  | cons e es ih =>
    have ha := w.alters_apply e
    have hone : (w.apply e).forest.scopes.get? x.index = w.forest.scopes.get? x.index := by
      refine ha.scope x hx fun hw => ?_
      obtain ⟨env, henv, hcur⟩ := Option.map_eq_some_iff.1 hw
      exact (h e (List.mem_cons_self ..) env henv).2.1 hcur
    refine (ih (w.apply e) (hx.trans_le ha.scopes) fun d hd env henv => ?_).trans hone
    obtain ⟨hlt, hne, hmoves⟩ := h d (List.mem_cons_of_mem _ hd) env henv
    refine ⟨hlt.trans_le ha.handles, ?_, fun d hd => hmoves d (List.mem_cons_of_mem _ hd)⟩
    rwa [ha.current env hlt (by simp [hmoves e (List.mem_cons_self ..)])]

end World

end Alters

/-! ## Activations -/

/-- Some code that is run in an environment made for it: the body of a block, or the programs of an
interpreter. -/
structure Activation where
  env : EnvId
  /-- The scope that was made for what the code defines. -/
  frame : ScopeId
  /-- The scope around it, with the snapshot of the block. A process has that in its frame. -/
  snapshot : Option ScopeId
  /-- The thread that runs the body. -/
  thread : Option Thread
  /-- The code of the block. An interpreter has none. -/
  body : Option Code

namespace Activation

/-- The scopes of an activation. -/
def scopes (a : Activation) : List ScopeId := a.frame :: a.snapshot.toList

/-- The body of a block begins: its snapshot gets a scope, and the frame is made in it. -/
def ofBody (w : World) (t : Option Thread) (block : Block) : Activation where
  env := ⟨w.forest.handles.size⟩
  frame := ⟨w.forest.scopes.size + 1⟩
  snapshot := some ⟨w.forest.scopes.size⟩
  thread := t
  body := some block.code

/-- A process is made. -/
def ofProcess (w : World) (block : Block) : Activation where
  env := ⟨w.forest.handles.size⟩
  frame := ⟨w.forest.scopes.size⟩
  snapshot := none
  thread := some (.process ⟨w.processes.size⟩)
  body := some block.code

/-- An interpreter is made. -/
def ofInterpreter (w : World) : Activation where
  env := ⟨w.forest.handles.size⟩
  frame := ⟨w.forest.scopes.size⟩
  snapshot := none
  thread := none
  body := none

end Activation

/-- All activations, in the order of their environments, and the programs evaluated so far, in the
order of their slots. -/
structure Roster where
  activations : List Activation := []
  programs : List Code := []

namespace Roster

variable (r : Roster)

/-- The activation that an environment was made for. -/
def find (env : EnvId) : Option Activation := r.activations[env.index]?

/-- The roster with one more activation. -/
def add (a : Activation) : Roster := { r with activations := r.activations ++ [a] }

/-- What becomes of the roster when something happens to a world. -/
def after (w : World) (e : Event) : Roster :=
  match e.effect with
  | .enter _ _ block => r.add (.ofBody w e.thread block)
  | .spawn _ block _ => r.add (.ofProcess w block)
  | .install => r.add (.ofInterpreter w)
  | .launch _ program => { r with programs := r.programs ++ [(w.load program).2] }
  | _ => r

/-- The roster after a sequence of events. -/
def replay (w : World) (r : Roster) : List Event → Roster
  | [] => r
  | e :: es => replay (w.apply e.effect) (r.after w e) es

theorem replay_append (w : World) (r : Roster) (es fs : List Event) :
    replay w r (es ++ fs) = replay (w.replay (effectsOf es)) (replay w r es) fs := by
  induction es generalizing w r with
  | nil => rfl
  | cons e es ih => exact ih _ _

/-- The code that a thread may run in the environment of an activation: the rest of its body, or the
rest of the program that the thread was launched with. -/
def Runs (t : Option Thread) (a : Activation) (code : Code) : Prop :=
  match a.body with
  | some body => t = a.thread ∧ code <:+ body
  | none => ∃ slot program, t = some (.main slot) ∧ r.programs[slot]? = some program ∧
      code <:+ program

variable {r}

theorem Runs.rest {t : Option Thread} {a : Activation} {d : Datum BlockId} {code : Code}
    (h : r.Runs t a (d :: code)) : r.Runs t a code := by
  obtain ⟨env, frame, snapshot, thread, body⟩ := a
  cases body with
  | some body => exact ⟨h.1, (List.suffix_cons d code).trans h.2⟩
  | none =>
    obtain ⟨slot, program, ht, hp, hc⟩ := h
    exact ⟨slot, program, ht, hp, (List.suffix_cons d code).trans hc⟩

theorem eq_of_find_add {env : EnvId} {a b : Activation} (h : (r.add b).find env = some a) :
    r.find env = some a ∨ a = b ∧ env = ⟨r.activations.length⟩ := by
  obtain ⟨i⟩ := env
  have h : (r.activations ++ [b])[i]? = some a := h
  rw [List.getElem?_append] at h
  split at h
  · exact .inl h
  · rename_i hle
    obtain ⟨hlt, hb⟩ := List.getElem?_eq_some_iff.1 h
    rw [List.length_singleton] at hlt
    refine .inr ⟨?_, congrArg EnvId.mk (by omega)⟩
    rw [← hb, List.getElem_singleton]

end Roster

/-! ## Where activations stand -/

/-- An activation has its scopes, one in the other, and its environment stands on one of them. -/
structure Activation.Stands (f : Forest Value) (a : Activation) : Prop where
  frame : (f.scopes.get? a.frame.index).map Scope.outer = some a.snapshot
  snapshot : ∀ s, a.snapshot = some s →
    s.index < a.frame.index ∧ (f.scopes.get? s.index).map Scope.outer = some none
  current : f.current a.env = a.frame ∨ a.snapshot = some (f.current a.env)

namespace Activation.Stands

variable {f f' : Forest Value} {a : Activation}

theorem frame_lt (h : a.Stands f) : a.frame.index < f.scopes.size := by
  obtain ⟨scope, hs, -⟩ := Option.map_eq_some_iff.1 h.frame
  exact Table.lt_of_get? hs

theorem lt_of_mem (h : a.Stands f) {x : ScopeId} (hx : x ∈ a.scopes) : x.index < f.scopes.size := by
  rcases List.mem_cons.1 hx with rfl | hx
  · exact h.frame_lt
  · exact (h.snapshot x (Option.mem_toList.1 hx)).1.trans h.frame_lt

/-- The frame is not the scope of the snapshot. -/
theorem frame_ne (h : a.Stands f) {s : ScopeId} (hs : a.snapshot = some s) : a.frame ≠ s := by
  rintro rfl
  exact Nat.lt_irrefl _ (h.snapshot _ hs).1

/-- An environment without a snapshot stands on its frame. -/
theorem current_of_none (h : a.Stands f) (hs : a.snapshot = none) : f.current a.env = a.frame := by
  rcases h.current with hc | hc
  · exact hc
  · rw [hs] at hc
    cases hc

/-- An activation keeps its place as long as its handle does, or goes back to the snapshot. -/
theorem alters (h : a.Stands f) {S : ScopeId → Prop} {E : EnvId → Prop} (ha : f.Alters S E f')
    (henv : a.env.index < f.handles.size) (hE : E a.env → a.snapshot = some (f'.current a.env)) :
    a.Stands f' where
  frame := (ha.outer _ h.frame_lt).trans h.frame
  snapshot s hs := by
    obtain ⟨hlt, ho⟩ := h.snapshot s hs
    exact ⟨hlt, (ha.outer _ (hlt.trans h.frame_lt)).trans ho⟩
  current := by
    by_cases he : E a.env
    · exact .inr (hE he)
    · rw [ha.current _ henv he]
      exact h.current

end Activation.Stands

/-- Every environment has its activation, which stands where it should, and no two activations have
a scope in common. -/
structure Roster.Charts (r : Roster) (f : Forest Value) : Prop where
  length : r.activations.length = f.handles.size
  env : ∀ env a, r.find env = some a → a.env = env
  stands : ∀ a ∈ r.activations, a.Stands f
  apart : r.activations.Pairwise fun a b => ∀ x ∈ a.scopes, x ∉ b.scopes

namespace Roster.Charts

variable {r : Roster} {f f' : Forest Value}

theorem empty : ({} : Roster).Charts .empty where
  length := rfl
  env _ _ h := by cases h
  stands _ h := by cases h
  apart := .nil

theorem lt_of_find (h : r.Charts f) {env : EnvId} {a : Activation} (hf : r.find env = some a) :
    env.index < f.handles.size := h.length ▸ (List.getElem?_eq_some_iff.1 hf).1

theorem find_of_mem (h : r.Charts f) {a : Activation} (ha : a ∈ r.activations) :
    r.find a.env = some a := by
  obtain ⟨i, hi⟩ := List.mem_iff_getElem?.1 ha
  have henv : a.env = ⟨i⟩ := h.env ⟨i⟩ a hi
  rw [henv]
  exact hi

/-- The new activation is the one of the new environment. -/
theorem find_add (h : r.Charts f) (a : Activation) :
    (r.add a).find ⟨f.handles.size⟩ = some a := by
  rw [← h.length]
  exact List.getElem?_concat_length

theorem stands_of_find (h : r.Charts f) {env : EnvId} {a : Activation} (hf : r.find env = some a) :
    a.Stands f := h.stands a (List.mem_of_getElem? hf)

/-- Nothing begins, and the handles that move go back to the snapshots. -/
theorem alters (h : r.Charts f) {S : ScopeId → Prop} {E : EnvId → Prop} (ha : f.Alters S E f')
    (hsize : f'.handles.size = f.handles.size)
    (hE : ∀ a, r.find a.env = some a → E a.env → a.snapshot = some (f'.current a.env)) :
    r.Charts f' where
  length := h.length.trans hsize.symm
  env := h.env
  stands a hmem := by
    have hf := h.find_of_mem hmem
    exact (h.stands a hmem).alters ha (h.lt_of_find hf) (hE a hf)
  apart := h.apart

/-- An activation begins in an environment and on scopes that are new. -/
theorem add (h : r.Charts f) {a : Activation} (ha : f.Alters (fun _ => False) (fun _ => False) f')
    (hsize : f'.handles.size = f.handles.size + 1) (henv : a.env = ⟨f.handles.size⟩)
    (hs : a.Stands f') (hnew : ∀ x ∈ a.scopes, f.scopes.size ≤ x.index) : (r.add a).Charts f' where
  length := by simp [Roster.add, h.length, hsize]
  env env b hb := by
    rcases eq_of_find_add hb with hb | ⟨rfl, rfl⟩
    · exact h.env env b hb
    · rw [henv, h.length]
  stands b hb := by
    rcases List.mem_append.1 hb with hb | hb
    · exact (h.stands b hb).alters ha (h.lt_of_find (h.find_of_mem hb)) False.elim
    · rw [List.mem_singleton.1 hb]
      exact hs
  apart := by
    refine List.pairwise_append.2 ⟨h.apart, List.pairwise_singleton _ _, ?_⟩
    intro b hb c hc x hx hxc
    rw [List.mem_singleton.1 hc] at hxc
    exact absurd ((h.stands b hb).lt_of_mem hx) (hnew x hxc).not_gt

end Roster.Charts

/-! ## New activations -/

/-- A new environment on a scope of its own. -/
theorem Activation.stands_addEnv (f : Forest Value) (b : Bindings Value) {t : Option Thread}
    {body : Option Code} :
    Stands (f.addEnv ⟨b, none⟩).1 ⟨⟨f.handles.size⟩, ⟨f.scopes.size⟩, none, t, body⟩ where
  frame := by
    show ((f.scopes.push _).get? f.scopes.size).map Scope.outer = _
    rw [Table.get?_push, if_pos rfl, Option.map_some]
  snapshot s hs := by cases hs
  current := .inl (f.current_addEnv _)

/-- Something is bound in an environment. -/
theorem Activation.Stands.define {f : Forest Value} {a : Activation} (h : a.Stands f)
    (henv : a.env.index < f.handles.size) (name : Name) (v : Value) :
    a.Stands (f.define a.env name v) :=
  h.alters (S := (· = f.current a.env)) (E := fun _ => False) (.define f name v rfl) henv False.elim

/-- An environment enters a scope: what was its frame is its snapshot now. -/
theorem Activation.Stands.enter {f : Forest Value} {a : Activation} (h : a.Stands f)
    (hs : a.snapshot = none) (henv : a.env.index < f.handles.size) :
    Stands (f.enter a.env) { a with frame := ⟨f.scopes.size⟩, snapshot := some a.frame } ∧
      (f.enter a.env).current a.env = ⟨f.scopes.size⟩ := by
  have hnew : (f.enter a.env).scopes = f.scopes.push ⟨.empty, some a.frame⟩ := by
    rw [← h.current_of_none hs]
    rfl
  have hcurrent : (f.enter a.env).current a.env = ⟨f.scopes.size⟩ :=
    Forest.current_moveTo_self _ _ henv
  refine ⟨⟨?_, ?_, .inl hcurrent⟩, hcurrent⟩
  · rw [hnew, Table.get?_push, if_pos rfl, Option.map_some]
  · rintro s hs'
    cases hs'
    refine ⟨h.frame_lt, ?_⟩
    rw [hnew, Table.get?_push, if_neg h.frame_lt.ne, h.frame, hs]

namespace World

/-- The body of a block begins on a frame around which there is its snapshot. -/
theorem stands_openActivation (w : World) (captured : Bindings Value)
    (own : Option (Name × Value)) (t : Option Thread) (block : Block) :
    Activation.Stands (w.openActivation captured own).1.forest (.ofBody w t block) ∧
      (w.openActivation captured own).1.forest.current ⟨w.forest.handles.size⟩ =
        ⟨w.forest.scopes.size + 1⟩ := by
  have hseed : Activation.Stands (w.forest.addEnv ⟨captured, none⟩).1
      ⟨_, _, none, t, some block.code⟩ := Activation.stands_addEnv _ _
  have hlt : w.forest.handles.size < (w.forest.addEnv ⟨captured, none⟩).1.handles.size :=
    Table.size_lt_size_push _ _
  have hsize : (w.forest.addEnv ⟨captured, none⟩).1.scopes.size = w.forest.scopes.size + 1 :=
    Table.size_push _ _
  cases own with
  | none =>
    have hentered := hseed.enter rfl hlt
    rw [hsize] at hentered
    exact hentered
  | some entry =>
    have hown := hseed.define hlt entry.1 entry.2
    have hentered := hown.enter rfl hlt
    rw [Forest.size_scopes_define, hsize] at hentered
    exact hentered

/-- The way back leads to the snapshot. -/
theorem guard_openActivation (w : World) (captured : Bindings Value)
    (own : Option (Name × Value)) :
    (w.openActivation captured own).2.2 = ⟨⟨w.forest.handles.size⟩, ⟨w.forest.scopes.size⟩⟩ := by
  have hsaved := w.forest.current_addEnv ⟨captured, none⟩
  cases own <;> exact congrArg (Guard.mk _) hsaved

theorem size_handles_openActivation (w : World) (captured : Bindings Value)
    (own : Option (Name × Value)) :
    (w.openActivation captured own).1.forest.handles.size = w.forest.handles.size + 1 := by
  have hsize := Table.size_push w.forest.handles ⟨w.forest.scopes.size⟩
  cases own <;> exact (Table.size_set _ _ _).trans hsize

/-- An interpreter begins on a frame of its own. -/
theorem stands_newBuiltinRoot (w : World) :
    Activation.Stands w.newBuiltinRoot.1.forest (.ofInterpreter w) ∧
      w.newBuiltinRoot.1.forest.handles.size = w.forest.handles.size + 1 := by
  refine newBuiltinRoot_induct (w := w) (I := fun v =>
      Activation.Stands v.forest (.ofInterpreter w) ∧
        v.forest.handles.size = w.forest.handles.size + 1)
    ⟨Activation.stands_addEnv _ _, Table.size_push _ _⟩ fun v name behaviour _ hv => ?_
  have hlt : w.forest.handles.size < v.forest.handles.size := by rw [hv.2]; exact Nat.lt_succ_self _
  exact ⟨hv.1.define hlt _ _, hv.2⟩

end World

/-- **Whatever happens, the roster charts the environments**, as long as a handle that moves goes
back to the snapshot of its activation. -/
theorem Roster.Charts.apply {r : Roster} {w : World} (h : r.Charts w.forest) (e : Event)
    (hmoves : ∀ env a, e.effect.moves = some env → r.find env = some a →
      a.snapshot = some ((w.apply e.effect).forest.current env)) :
    (r.after w e).Charts (w.apply e.effect).forest := by
  obtain ⟨t, e⟩ := e
  have hkeep : (w.apply e).forest.handles.size = w.forest.handles.size →
      r.Charts (w.apply e).forest :=
    fun hsize => h.alters (w.alters_apply e) hsize fun a ha hm => hmoves a.env a hm ha
  by_cases hdef : e.keepsDefinitions = true
  · cases e with
    | spawn | enter | launch | install => cases hdef
    | _ => exact hkeep (congrArg (·.handles.size) (w.sameDefinitions_apply hdef).forest)
  cases e with
  | snapshot env block =>
    refine hkeep ?_
    simp only [World.apply, World.instantiate]
    split <;> rfl
  | define | defineWord | adopt | newObject | setProperty => exact hkeep rfl
  | launch strict program => exact { hkeep rfl with }
  | restore guard => exact hkeep (Table.size_set _ _ _)
  | harvest guard => exact hkeep (Table.size_set _ _ _)
  | spawn captured block parent =>
    refine h.add (.addEnv _ _) (Table.size_push _ _) rfl (Activation.stands_addEnv _ _) ?_
    exact List.forall_mem_singleton.2 le_rfl
  | enter captured own block =>
    refine h.add (w.alters_openActivation captured own) (w.size_handles_openActivation captured own)
      rfl (w.stands_openActivation captured own t block).1 ?_
    exact List.forall_mem_cons.2 ⟨Nat.le_succ _, List.forall_mem_singleton.2 le_rfl⟩
  | install =>
    obtain ⟨hs, hsize⟩ := w.stands_newBuiltinRoot
    exact h.add w.alters_newBuiltinRoot.1 hsize rfl hs (List.forall_mem_singleton.2 le_rfl)
  | _ => exact absurd rfl hdef

end Catena
