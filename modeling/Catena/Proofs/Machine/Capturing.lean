import Catena.Proofs.Machine.Snapshots

/-!
# What a snapshot takes

A snapshot has the words that occur in the code of a block, those of nested blocks included, as far
as they mean something in the environment in which it is taken (`World.get?_capture`). Taking it
changes nothing but the entry of the block itself. In a program that has been loaded, no block is
written within itself, so the blocks within it are left as they are (`captures_known_words`).
-/

namespace Catena

/-! ## Blocks within blocks -/

mutual

theorem Datum.not_mem_blocksOf_label {ι : Type} {id : BlockId} {code : Code} :
    ∀ (d : Datum ι) (n : Nat), (Datum.block id code).OccursIn [(Datum.label BlockId.mk d n).1] →
      id ∉ Datum.blocksOf code
  | .nil, _ | .bool _, _ | .number _, _ | .text _, _ | .word _, _ | .symbol _, _ => by
    simp [Datum.label, Datum.occursIn_atom]
  | .block _ body, n => by
    rw [Datum.label, Datum.occursIn_block]
    rintro (h | h)
    · -- the label of a block is the first one, and those within it come after
      cases h
      intro hmem
      exact Nat.not_succ_le_self n ((Datum.bounds_blocksOf_labelAll body (n + 1)).2 _ hmem).1
    · exact Datum.not_mem_blocksOf_labelAll body (n + 1) h

/-- A block with a label of its own is not written within itself. -/
theorem Datum.not_mem_blocksOf_labelAll {ι : Type} {id : BlockId} {code : Code} :
    ∀ (ds : List (Datum ι)) (n : Nat),
      (Datum.block id code).OccursIn (Datum.labelAll BlockId.mk ds n).1 → id ∉ Datum.blocksOf code
  | [], _ => by simp [Datum.labelAll, Datum.not_occursIn_nil]
  | d :: ds, n => by
    rw [Datum.labelAll, Datum.occursIn_cons]
    rintro (h | h)
    · exact Datum.not_mem_blocksOf_label d n h
    · exact Datum.not_mem_blocksOf_labelAll ds _ h

end

/-! ## Taking a snapshot -/

/-- Asking for a snapshot leaves all as it is but the snapshots. -/
theorem World.restored_instantiate (w : World) (env : EnvId) (block : Block) :
    { (w.instantiate env block).1 with captures := w.captures } = w := by
  unfold instantiate
  cases w.captured? block.id <;> rfl

/-- **A snapshot has exactly the words that mean something.** Whatever snapshots there are already,
the one of some code binds a name just when the name occurs there as a word, in a nested block or
not, and means something in the environment, and then to what it means there. A block without a
snapshot gets this one. That changes nothing in the environments and no snapshot of a block nested
in it; and a block with a snapshot keeps it, whatever the environment. -/
theorem captures_known_words (w : World) (env : EnvId) :
    (∀ (code : Code) (name : Name) (v : Value), (w.capture env code).get? name = some v ↔
      (Datum.word name).OccursIn code ∧ w.lookup env name = some v) ∧
    (∀ block : Block, w.captured? block.id = none →
      (w.instantiate env block).2 = w.capture env block.code) ∧
    (∀ block : Block, { (w.instantiate env block).1 with captures := w.captures } = w ∧
      ∀ id ≠ block.id, (w.instantiate env block).1.captured? id = w.captured? id) ∧
    (∀ (v : World) (program : Program) (block : Block),
      (Datum.block block.id block.code).OccursIn (v.load program).2 →
        ∀ id ∈ Datum.blocksOf block.code,
          (w.instantiate env block).1.captured? id = w.captured? id) ∧
    ∀ (block : Block) (captured : Bindings Value), w.captured? block.id = some captured →
      ∀ env', w.instantiate env' block = (w, captured) := by
  refine ⟨fun code name v => World.get?_capture, fun block h => World.snd_instantiate_of_none h env,
    ?_, ?_, ?_⟩
  · intro block
    exact ⟨w.restored_instantiate env block, fun id => w.captured?_instantiate_of_ne env⟩
  · intro v program block hblock id hid
    have hself : block.id ∉ Datum.blocksOf block.code :=
      Datum.not_mem_blocksOf_labelAll program v.captures.size hblock
    exact w.captured?_instantiate_of_ne env (ne_of_mem_of_not_mem hid hself)
  · intro block captured h env'
    exact World.instantiate_of_captured? h env'

/-- The block within `[ outer [ inner deepest ] ]`. -/
def innerBlock : Block := ⟨⟨1⟩, [.word "inner", .word "deepest"]⟩

/-- The block `[ outer [ inner deepest ] ]`. -/
def outerBlock : Block := ⟨⟨0⟩, [.word "outer", .block innerBlock.id innerBlock.code]⟩

/-- A world in which `inner` means something else since the inner block got its snapshot. -/
def rebound : World :=
  let (w, env) := ({} : World).newRoot
  let w := (w.define env "outer" (.symbol "far")).define env "inner" (.symbol "old")
  let (w, _) := w.load [.block () [.word "outer", .block () [.word "inner", .word "deepest"]]]
  let (w, _) := w.instantiate env innerBlock
  let (w, _) := w.enterScope env
  w.define env "inner" (.symbol "new")

/-- The outer block gets the new meaning, and the inner one keeps the old one. -/
theorem captures_known_words_rebound :
    rebound.captured? outerBlock.id = none ∧
      (rebound.instantiate ⟨0⟩ outerBlock).2.get? "inner" = some (.symbol "new") ∧
      (rebound.instantiate ⟨0⟩ outerBlock).2.get? "deepest" = none ∧
      ∃ old, old.get? "inner" = some (.symbol "old") ∧
        rebound.captured? innerBlock.id = some old ∧
        (rebound.instantiate ⟨0⟩ outerBlock).1.captured? innerBlock.id = some old ∧
        rebound.instantiate ⟨0⟩ innerBlock = (rebound, old) := by
  obtain ⟨hexact, hfirst, -, hnested, hkept⟩ := captures_known_words rebound ⟨0⟩
  have hnone : rebound.captured? outerBlock.id = none := by cbv
  have hinner : (Datum.word "inner").OccursIn outerBlock.code :=
    .nested (List.mem_cons_of_mem _ (List.mem_singleton.2 rfl)) (.item List.mem_cons_self)
  have hnew : rebound.lookup ⟨0⟩ "inner" = some (.symbol "new") := by cbv
  have hdeepest : rebound.lookup ⟨0⟩ "deepest" = none := by cbv
  obtain ⟨old, hold, hbefore⟩ : ∃ old, rebound.captured? innerBlock.id = some old ∧
      old.get? "inner" = some (.symbol "old") := ⟨_, by cbv, by cbv⟩
  have hcode : (({} : World).load
      [.block () [.word "outer", .block () [.word "inner", .word "deepest"]]]).2 =
        [.block outerBlock.id outerBlock.code] := by cbv
  have hloaded : (Datum.block outerBlock.id outerBlock.code).OccursIn _ :=
    .item (List.mem_singleton.2 rfl)
  rw [hfirst outerBlock hnone]
  refine ⟨hnone, (hexact _ _ _).2 ⟨hinner, hnew⟩, ?_, old, hbefore, hold, ?_, hkept _ _ hold _⟩
  · rw [Option.eq_none_iff_forall_ne_some]
    intro v hv
    rw [hexact, hdeepest] at hv
    cases hv.2
  · have hwithin : innerBlock.id ∈ Datum.blocksOf outerBlock.code := by
      simp [outerBlock, Datum.blocksOf, Datum.blocks]
    rw [hnested {} _ outerBlock (hcode ▸ hloaded) _ hwithin, hold]

end Catena
