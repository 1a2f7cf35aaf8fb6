import Catena.Proofs.Machine.Cells
import Catena.Proofs.Program.Occurrences

/-!
# All that is defined

Scopes, snapshots, vocabularies and objects hold values, and what words find comes from there.
`Definitions P w` says that all these values have `P`. Values move between them, but an effect only
adds what it brings itself (`Effect.Defines`), so one lemma says what effects keep
(`Definitions.apply`).
-/

namespace Catena

/-- Every value that is defined in a world has `P`. -/
structure World.Definitions (P : Value → Prop) (w : World) : Prop where
  forest : w.forest.All P
  captures : w.captures.All fun _ captured => ∀ b, captured = some b → b.All P
  vocabularies : w.vocabularies.All fun _ b => b.All P
  objects : w.objects.All fun _ object => object.properties.All P

/-- The values that an effect defines have `P`. -/
def Effect.Defines (P : Value → Prop) : Effect → Prop
  | .define _ _ v | .setProperty _ _ v => P v
  | .defineWord _ name behaviour => ∀ serial, P (.primitive ⟨serial, name, behaviour⟩)
  | .spawn captured _ _ => captured.All P
  | .enter captured own _ => captured.All P ∧ ∀ name v, own = some (name, v) → P v
  | .install => ∀ p : Primitive, p.behaviour.isBuiltin = true → P (.primitive p)
  | _ => True

/-- A snapshot has the words that occur in the code and mean something in the environment. -/
theorem World.get?_capture {w : World} {env : EnvId} {code : Code} {name : Name} {v : Value} :
    (w.capture env code).get? name = some v ↔
      (Datum.word name).OccursIn code ∧ w.lookup env name = some v := by
  rw [capture, Datum.get?_collectAll, Bindings.get?_empty, Option.none_or,
    Option.ite_none_right_eq_some]

namespace World.Definitions

variable {P Q : Value → Prop} {w : World}

theorem imp (h : w.Definitions P) (hPQ : ∀ v, P v → Q v) : w.Definitions Q where
  forest := h.forest.imp fun _ _ hs => hs.imp hPQ
  captures := h.captures.imp fun _ _ hc b hb => (hc b hb).imp hPQ
  vocabularies := h.vocabularies.imp fun _ _ hb => hb.imp hPQ
  objects := h.objects.imp fun _ _ hb => hb.imp hPQ

theorem empty : World.Definitions P {} where
  forest := Table.All.empty
  captures := .empty
  vocabularies := .empty
  objects := .empty

theorem lookup (h : w.Definitions P) {env : EnvId} {name : Name} {v : Value}
    (hv : w.lookup env name = some v) : P v := Forest.All.lookup h.forest hv

theorem capture (h : w.Definitions P) (env : EnvId) (code : Code) : (w.capture env code).All P :=
  fun _ _ hv => h.lookup (get?_capture.1 hv).2

theorem vocabulary (h : w.Definitions P) (v : VocabularyId) : (w.vocabulary v).All P :=
  Table.All.get_of_default h.vocabularies .empty

theorem answer (h : w.Definitions P) {o : ObjectId} {key : Name} {v : Value}
    (hv : w.answer? o key = some v) : P v := by
  rcases Option.or_eq_some_iff.1 hv with hv | ⟨_, hv⟩
  · exact Table.All.get_of_default (i := o.index) h.objects .empty key v hv
  · exact h.vocabulary _ key v hv

theorem captured (h : w.Definitions P) (env : EnvId) (block : Block) :
    (w.instantiate env block).2.All P := by
  unfold World.instantiate
  cases hc : w.captured? block.id with
  | some b =>
    exact Table.All.get_of_default (i := block.id.index) h.captures (fun b hb => by cases hb) b hc
  | none => exact h.capture env block.code

theorem instantiate (h : w.Definitions P) (env : EnvId) (block : Block) :
    (w.instantiate env block).1.Definitions P := by
  unfold World.instantiate
  cases hc : w.captured? block.id with
  | some b => exact h
  | none =>
    refine { h with captures := h.captures.set fun b hb => ?_ }
    cases hb
    exact h.capture env block.code

theorem defineWord (h : w.Definitions P) (env : EnvId) {name : Name} {behaviour : Behaviour}
    (hb : ∀ serial, P (.primitive ⟨serial, name, behaviour⟩)) :
    (w.defineWord env name behaviour).Definitions P :=
  { h with forest := h.forest.define env name (hb _) }

theorem newBuiltinRoot (h : w.Definitions P)
    (hb : ∀ p : Primitive, p.behaviour.isBuiltin = true → P (.primitive p)) :
    w.newBuiltinRoot.1.Definitions P := by
  have hr : w.newRoot.1.Definitions P := { h with forest := h.forest.addEnv .empty }
  exact newBuiltinRoot_induct hr fun v name behaviour hbuiltin hv =>
    hv.defineWord _ fun serial => hb ⟨serial, name, behaviour⟩ hbuiltin

/-- **Effects that define what has `P` keep `P`.** -/
theorem apply {e : Effect} (h : w.Definitions P) (he : e.Defines P) : (w.apply e).Definitions P := by
  by_cases hkeep : e.keepsDefinitions = true
  · have hd := w.sameDefinitions_apply hkeep
    exact ⟨hd.forest ▸ h.forest, hd.captures ▸ h.captures, hd.vocabularies ▸ h.vocabularies,
      hd.objects ▸ h.objects⟩
  cases e with
  | snapshot env block => exact h.instantiate env block
  | define env name v => exact { h with forest := h.forest.define env name he }
  | defineWord env name behaviour => exact h.defineWord env he
  | adopt env v => exact { h with forest := h.forest.adopt env (h.vocabulary v) }
  | newObject v => exact { h with objects := h.objects.push .empty }
  | setProperty o key v => exact { h with objects := h.objects.modify fun _ _ ho => ho.insert he }
  | spawn captured block parent => exact { h with forest := h.forest.addEnv he }
  | restore guard => exact { h with }
  | harvest guard => exact { h with vocabularies := h.vocabularies.push (h.forest.innermost _) }
  | enter captured own block =>
    have hseed : (w.newSeeded captured).1.forest.All P := h.forest.addEnv he.1
    cases own with
    | none => exact { h with forest := hseed.enter _ }
    | some entry =>
      have hown := hseed.define (w.newSeeded captured).2 entry.1 (he.2 entry.1 entry.2 rfl)
      exact { h with forest := hown.enter _ }
  | launch strict program =>
    exact { h with captures := h.captures.grow _ fun _ b hb => (nomatch hb) }
  | install => exact h.newBuiltinRoot he
  | _ => exact absurd rfl hkeep

end World.Definitions

end Catena
