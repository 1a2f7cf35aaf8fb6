import Catena.Proofs.Machine.Awaiting

/-!
# Dataflow variables

A variable is bound by the first `bind` and never again; who waited for it before is woken by that
`bind`, and who comes later takes the value at once. Whatever happens in between, and in whatever
order, all of them get the same value once (`single_assignment`).

The waits are those of `Awaiting`. What is added here is which value it is: the first one of all that
were ever to be bound (`World.value_replay`).
-/

namespace Catena

namespace World

/-- The values that an effect is to bind a variable to, whether it is bound already or not. -/
def binds (v : VariableId) (w : World) : Effect → List Value
  | .bind x value => if x = v ∧ v.index < w.dataflows.size then [value] else []
  | _ => []

/-- An effect binds a variable only if it has no value yet. -/
theorem value_apply (w : World) (v : VariableId) (e : Effect) :
    ((w.apply e).dataflow v).value = (w.dataflow v).value.or (w.binds v e).head? := by
  by_cases hkeeps : e.keepsVariables = true
  · have hd : (w.apply e).dataflow v = w.dataflow v :=
      congrArg (·.get v.index) (w.dataflows_apply hkeeps)
    have hnone : w.binds v e = [] := by
      cases e with
      | bind => cases hkeeps
      | _ => rfl
    rw [hd, hnone, List.head?_nil, Option.or_none]
  cases e with
  | newVariable name =>
    rw [show w.binds v (.newVariable name) = [] from rfl, List.head?_nil, Option.or_none]
    exact (w.dataflow_newVariable name v).1
  | bind x value =>
    cases hx : (w.dataflow x).value with
    | some u =>
      rw [show w.apply (.bind x value) = w from bind_of_bound hx value, binds]
      split
      · rename_i hxv
        rw [← hxv.1, hx, Option.some_or]
      · rw [List.head?_nil, Option.or_none]
    | none =>
      have hd : (w.apply (.bind x value)).dataflow v =
          (w.modifyVariable x fun _ => bindTo (w.dataflow x) value).dataflow v :=
        congrArg (·.get v.index) (bind_of_unbound hx value).dataflows
      rw [hd, dataflow_modifyVariable, binds]
      split
      · rename_i hxv
        rw [← hxv.1, hx, Option.none_or]
        rfl
      · rw [List.head?_nil, Option.or_none]
  | awaitVariable x s k =>
    rw [show w.binds v (.awaitVariable x s k) = [] from rfl, List.head?_nil, Option.or_none]
    cases hx : (w.dataflow x).value with
    | some u =>
      rw [show w.apply (.awaitVariable x s k) = _ from awaitVariable_of_bound hx s k]
      rfl
    | none =>
      rw [show w.apply (.awaitVariable x s k) = _ from awaitVariable_of_unbound hx s k,
        dataflow_modifyVariable]
      split <;> rfl
  | _ => exact absurd rfl hkeeps

/-- **The first value that is bound is the value of the variable.** -/
theorem value_replay (w : World) (v : VariableId) (es : List Effect) :
    ((w.replay es).dataflow v).value = (w.dataflow v).value.or (w.gather (binds v) es).head? := by
  induction es generalizing w with
  | nil => rw [replay_nil, gather_nil, List.head?_nil, Option.or_none]
  | cons e es ih =>
    rw [replay_cons, ih, value_apply, gather, List.head?_append, Option.or_assoc]

end World

section Steps

variable {starts : World → Stack → Prop} {m m' : Moment} {es : List Event}

/-- What a step is that does nothing but `bind`: the binder goes on with the rest of its code. -/
theorem Next.of_bind {v : VariableId} {value : Value} (hn : Next (.evaluations starts) m es m')
    (he : effectsOf es = [.bind v value]) :
    ∃ env name code s t k, m.control = .run env (.word name :: code) s k ∧
      m' = ⟨m.world.bind v value, .run env code t k, m.roots⟩ := by
  cases hn with
  | @work w c c' roots fs hdoes =>
    rw [effectsOf_map] at he
    cases hdoes with
    | @call env name p code s t k _ hv hs =>
      subst he
      exact ⟨env, name, code, s, t, k, rfl, rfl⟩
    | @fail env name p code s k fs e hv hs =>
      have hlast := congrArg List.getLast? he
      simp at hlast
    | takeOver hv ha =>
      subst he
      generalize hfs : [Effect.bind v value] = fs at ha
      cases ha with
      | sync hd hs =>
        have hlast := congrArg List.getLast? hfs
        simp at hlast
      | _ => simp at hfs
    | _ => simp at he
  | turn hr hbegins =>
    rw [effectsOf_map] at he
    cases he
  | evaluate | install => simp [effectsOf] at he
  | outside hallows =>
    simp only [effectsOf, List.map_cons, List.map_nil, List.cons.injEq, and_true] at he
    subst he
    rcases hallows with (h | h | h | ⟨_, _, h⟩) | h | ⟨_, h⟩ <;> cases h

end Steps

/-! ## The law of variables -/

/-- What becomes of a variable and of those who wait for it, in every run of any number of
evaluations. -/
structure SingleAssignment (starts : World → Stack → Prop) (v : VariableId) : Prop where
  /-- The value is the first one that was to be bound. -/
  first : ∀ {es m}, Run (.evaluations starts) .dawn es m →
    (m.world.dataflow v).value = (World.gather (World.binds v) {} (effectsOf es)).head?
  /-- Nobody waits for a variable that is bound. -/
  released : ∀ {es m}, Run (.evaluations starts) .dawn es m →
    (m.world.dataflow v).value.isSome → (m.world.dataflow v).waiters = []
  /-- Binding it again changes nothing but the stack of the binder, who goes on with its code. -/
  inert : ∀ {es m fs m' value}, Run (.evaluations starts) .dawn es m →
    (m.world.dataflow v).value.isSome → m.world.apply (.bind v value) = m.world ∧
      (Next (.evaluations starts) m fs m' → effectsOf fs = [.bind v value] →
        ∃ env name code s t k, m.control = .run env (.word name :: code) s k ∧
          m' = ⟨m.world, .run env code t k, m.roots⟩)
  /-- Whoever waits for the value gets it once and in order. -/
  serves : Serves starts (.dataflow v)

/-- **A variable is assigned once, and everyone who waits for it is resumed once.** -/
theorem single_assignment {starts : World → Stack → Prop}
    (hst : ∀ w s, starts w s → s.Sound w) (v : VariableId) : SingleAssignment starts v where
  first hrun := by
    rw [hrun.world_eq, World.value_replay]
    rfl
  released hrun := by
    rw [hrun.world_eq]
    exact Table.All.get_of_default (World.Open.empty.replay _).dataflows fun hsome => by cases hsome
  inert {es m fs m' value} hrun hsome := by
    obtain ⟨u, hu⟩ := Option.isSome_iff_exists.1 hsome
    have hsame := World.bind_of_bound hu value
    refine ⟨hsame, fun hn he => ?_⟩
    obtain ⟨env, name, code, s, t, k, hcontrol, hm⟩ := hn.of_bind he
    exact ⟨env, name, code, s, t, k, hcontrol, by rw [hm, hsame]⟩
  serves := Catena.serves hst (.dataflow v)

/-- Two processes wait for a variable, which the main program then binds twice and asks for. -/
def sharing : Program :=
  [.symbol "v", .word "dfvar", .symbol "v", .word "def",
    .block () [.word "v", .word "await", .word "print"], .symbol "b", .word "def",
    .word "b", .word "go", .word "b", .word "go", .word "yield",
    .symbol "x", .word "v", .word "bind", .symbol "y", .word "v", .word "bind",
    .word "v", .word "await"]

/-- All three of them get the first value. -/
theorem single_assignment_of_sharing :
    ∃ (w : World) (i : Interpreter), Evaluated Stack.IsFree w [i] ∧
      (i.evaluate sharing .empty w).1.printed = [":x", ":x"] ∧
      (i.evaluate sharing .empty w).2 =
        .ok ⟨[.symbol "x", .process ⟨1⟩, .process ⟨0⟩], none⟩ ∧
      SingleAssignment Stack.IsFree ⟨0⟩ := by
  have h : Evaluated Stack.IsFree World.fresh [⟨⟨0⟩, { maxTurns := some 20 }⟩] := .fresh _
  exact ⟨_, _, h, by cbv, by cbv, single_assignment Stack.IsFree.sound ⟨0⟩⟩

end Catena
