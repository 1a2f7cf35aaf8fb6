import Catena.Proofs.Machine.Course
import Catena.Proofs.Machine.Scopes

/-!
# What a step defines

Three words define names: `def` and `defun` one, and `use` all those of a vocabulary. They bind them
in the innermost scope of the environment that they are called in (`World.defines`). Every other
word leaves all scopes as they are. So of what a scope binds after a step of the machine, we know
exactly what this step has added (`gains_advance`).
-/

namespace Catena

/-- What a state word defines that is called with a stack. -/
def World.definitions (w : World) (word : StateWord) (s : Stack) : Bindings Value :=
  match word with
  | .define =>
    match s.items with
    | .symbol name :: v :: _ => Bindings.empty.insert name v
    | _ => .empty
  | .defun =>
    match s.items with
    | .symbol name :: .block id body :: _ =>
      Bindings.empty.insert name (.primitive ⟨w.primitives, name, .defined ⟨id, body⟩⟩)
    | _ => .empty
  | .use =>
    match s.items with
    | .vocabulary v :: _ => w.vocabulary v
    | _ => .empty
  | _ => .empty

/-- What a word defines that is called with a stack. -/
def World.definedBy (w : World) (p : Primitive) (s : Stack) : Bindings Value :=
  match p.behaviour with
  | .state word => w.definitions word s
  | _ => .empty

/-- What the next item of some code defines. -/
def World.defines (w : World) (env : EnvId) (code : Code) (s : Stack) : Bindings Value :=
  match code with
  | .word name :: _ =>
    match w.lookup env name with
    | some (.primitive p) => w.definedBy p s
    | _ => .empty
  | _ => .empty

/-- A scope binds what it has bound, and `b` besides, which wins. -/
def Forest.Gains (x : ScopeId) (b : Bindings Value) (f f' : Forest Value) : Prop :=
  ∀ name, (f'.scopes.get x.index).bindings.get? name =
    (b.get? name).or ((f.scopes.get x.index).bindings.get? name)

/-- A scope is as it was. -/
def Forest.Keeps (x : ScopeId) (f f' : Forest Value) : Prop :=
  f'.scopes.get? x.index = f.scopes.get? x.index

namespace Forest

variable {x : ScopeId} {f f' : Forest Value}

theorem Keeps.refl (x : ScopeId) (f : Forest Value) : Keeps x f f := rfl

theorem Keeps.of_eq (h : f' = f) : Keeps x f f' := h ▸ .refl x f

theorem Keeps.gains (h : Keeps x f f') : Gains x .empty f f' := by
  intro name
  rw [Table.get, show f'.scopes.get? x.index = _ from h]
  rfl

theorem gains_define (f : Forest Value) (env : EnvId) (name : Name) (v : Value)
    (hx : (f.current env).index < f.scopes.size) :
    Gains (f.current env) (Bindings.empty.insert name v) f (f.define env name v) := by
  intro other
  rw [define, Table.get_modify_self _ hx, Bindings.get?_insert, Bindings.get?_insert]
  split_ifs <;> rfl

theorem gains_adopt (f : Forest Value) (env : EnvId) (b : Bindings Value)
    (hx : (f.current env).index < f.scopes.size) :
    Gains (f.current env) b f (f.adopt env b) := by
  intro other
  rw [adopt, Table.get_modify_self _ hx, Bindings.get?_merge]

theorem keeps_seeded (f : Forest Value) (b : Bindings Value) (hx : x.index < f.scopes.size) :
    Keeps x f (f.seeded b).1 := by
  show (f.scopes.push _).get? x.index = _
  rw [Table.get?_push, if_neg hx.ne]

end Forest

/-! ## Synchronous words -/

section Sync

variable {env : EnvId} {s : Stack} {w : World} {x : ScopeId}

/-- A word that looks at an operand first does nothing if it is missing. -/
theorem keeps_operand {α : Type} {r : Except Error α} {f : α → Action Stack}
    (h : ∀ a, Forest.Keeps x w.forest ((f a).run w).2.forest) :
    Forest.Keeps x w.forest ((liftM r >>= f : Action Stack).run w).2.forest := by
  cases r with
  | ok a => exact h a
  | error e => exact rfl

theorem keeps_look {f : World → Action Stack}
    (h : Forest.Keeps x w.forest ((f w).run w).2.forest) :
    Forest.Keeps x w.forest ((MonadState.get >>= f : Action Stack).run w).2.forest := h

theorem World.forest_instantiate (w : World) (env : EnvId) (block : Block) :
    (w.instantiate env block).1.forest = w.forest := by
  unfold instantiate
  split <;> rfl

theorem World.forest_defunction (w : World) (env : EnvId) (name : Name) (block : Block) :
    (StateWord.defunction env name block w).forest =
      w.forest.define env name (.primitive ⟨w.primitives, name, .defined block⟩) := by
  unfold StateWord.defunction instantiate
  cases w.captured? block.id <;> rfl

theorem World.forest_spawn (w : World) (env : EnvId) (block : Block) (parent : Option ProcessId) :
    (w.spawn env block parent).1.forest = (w.forest.seeded (w.instantiate env block).2).1 := by
  rw [spawn_eq]
  unfold instantiate
  cases w.captured? block.id <;> rfl

theorem World.forest_deliver (w : World) (m : MailboxId) (message : Value) :
    (w.deliver m message).forest = w.forest := by
  unfold deliver
  dsimp only
  split <;> rfl

theorem World.forest_bind (w : World) (v : VariableId) (value : Value) :
    (w.bind v value).forest = w.forest := by
  have hfold : ∀ (waiters : List Waker) (u : World),
      (waiters.foldl (fun w waker => w.later (.wakeWaiter waker value)) u).forest = u.forest := by
    intro waiters
    induction waiters with
    | nil => exact fun _ => rfl
    | cons waker waiters ih => exact fun u => ih _
  unfold bind
  split
  · exact hfold _ _
  · rfl

theorem StateWord.gains_define (env : EnvId) (s : Stack) (w : World)
    (hx : (w.forest.current env).index < w.forest.scopes.size) :
    Forest.Gains (w.forest.current env) (w.definitions .define s) w.forest
      ((define.apply env s).run w).2.forest := by
  obtain ⟨items, owner⟩ := s
  cases items with
  | nil => exact (Forest.Keeps.refl _ _).gains
  | cons first items =>
    cases first with
    | datum d =>
      cases d with
      | symbol name =>
        cases items with
        | nil => exact (Forest.Keeps.refl _ _).gains
        | cons v items => exact w.forest.gains_define env name v hx
      | _ => exact (Forest.Keeps.refl _ _).gains
    | _ => exact (Forest.Keeps.refl _ _).gains

theorem StateWord.gains_defun (env : EnvId) (s : Stack) (w : World)
    (hx : (w.forest.current env).index < w.forest.scopes.size) :
    Forest.Gains (w.forest.current env) (w.definitions .defun s) w.forest
      ((defun.apply env s).run w).2.forest := by
  obtain ⟨items, owner⟩ := s
  cases items with
  | nil => exact (Forest.Keeps.refl _ _).gains
  | cons first items =>
    cases first with
    | datum d =>
      cases d with
      | symbol name =>
        cases items with
        | nil => exact (Forest.Keeps.refl _ _).gains
        | cons second items =>
          cases second with
          | datum d =>
            cases d with
            | block id body =>
              have hforest := w.forest_defunction env name ⟨id, body⟩
              have hgains := w.forest.gains_define env name
                (.primitive ⟨w.primitives, name, .defined ⟨id, body⟩⟩) hx
              rw [← hforest] at hgains
              exact hgains
            | _ => exact (Forest.Keeps.refl _ _).gains
          | _ => exact (Forest.Keeps.refl _ _).gains
      | _ => exact (Forest.Keeps.refl _ _).gains
    | _ => exact (Forest.Keeps.refl _ _).gains

theorem StateWord.gains_use (env : EnvId) (s : Stack) (w : World)
    (hx : (w.forest.current env).index < w.forest.scopes.size) :
    Forest.Gains (w.forest.current env) (w.definitions .use s) w.forest
      ((use.apply env s).run w).2.forest := by
  obtain ⟨items, owner⟩ := s
  cases items with
  | nil => exact (Forest.Keeps.refl _ _).gains
  | cons first items =>
    cases first with
    | vocabulary v => exact w.forest.gains_adopt env (w.vocabulary v) hx
    | _ => exact (Forest.Keeps.refl _ _).gains

/-- **What a state word defines is all that it adds to the innermost scope.** -/
theorem StateWord.gains_apply (word : StateWord) (env : EnvId) (s : Stack) (w : World)
    (hx : (w.forest.current env).index < w.forest.scopes.size) :
    Forest.Gains (w.forest.current env) (w.definitions word s) w.forest
      ((word.apply env s).run w).2.forest := by
  cases word with
  | define => exact gains_define env s w hx
  | defun => exact gains_defun env s w hx
  | use => exact gains_use env s w hx
  | new =>
    refine Forest.Keeps.gains (keeps_operand fun v => keeps_operand fun rest => ?_)
    rfl
  | get =>
    refine Forest.Keeps.gains (keeps_operand fun key => keeps_look (keeps_operand fun v => ?_))
    refine keeps_operand fun found => keeps_operand fun rest => ?_
    rfl
  | put =>
    refine Forest.Keeps.gains (keeps_operand fun key => keeps_operand fun o => ?_)
    refine keeps_operand fun taken => ?_
    rfl
  | go =>
    refine Forest.Keeps.gains (keeps_operand fun block => keeps_operand fun rest => ?_)
    show Forest.Keeps _ w.forest (w.spawn env block s.owner).1.forest
    rw [w.forest_spawn]
    exact w.forest.keeps_seeded _ hx
  | isDone | dataflow | isBound =>
    refine Forest.Keeps.gains (keeps_operand fun operand => keeps_operand fun rest => ?_)
    rfl
  | post =>
    refine Forest.Keeps.gains (keeps_look (keeps_operand fun v => keeps_operand fun m => ?_))
    refine keeps_operand fun (message, _, rest) => ?_
    show Forest.Keeps _ w.forest (w.deliver m message).forest
    exact .of_eq (w.forest_deliver m message)
  | mailbox =>
    refine Forest.Keeps.gains ?_
    unfold StateWord.apply
    cases s.owner <;> rfl
  | bind =>
    refine Forest.Keeps.gains (keeps_operand fun v => keeps_operand fun (value, _, rest) => ?_)
    show Forest.Keeps _ w.forest (w.bind v value).forest
    exact .of_eq (w.forest_bind v value)
  | print | render =>
    refine Forest.Keeps.gains (keeps_operand fun taken => ?_)
    rfl

/-- A synchronous word adds to the innermost scope what it defines. -/
theorem Primitive.gains_sync {p : Primitive} {send : World → EnvId → Stack → Continuation → World}
    {action : EnvId → Stack → Action Stack} (h : p.callWith send = .sync action)
    (hx : (w.forest.current env).index < w.forest.scopes.size) :
    Forest.Gains (w.forest.current env) (w.definedBy p s) w.forest
      ((action env s).run w).2.forest := by
  obtain ⟨serial, name, behaviour⟩ := p
  cases behaviour with
  | pure word =>
    cases h
    exact (Forest.Keeps.refl _ _).gains
  | state word =>
    cases h
    exact word.gains_apply env s w hx
  | foreign word =>
    cases h
    exact (Forest.Keeps.refl _ _).gains
  | control word => cases word <;> cases h
  | defined block => cases h
  | foreignControl word => cases h

end Sync

/-! ## Words that take over -/

section Async

variable {env : EnvId} {s : Stack} {w : World} {k : Continuation} {x : ScopeId}

theorem World.withOperands_induct {α : Type} {P : World → Prop} {r : Except Error α}
    {next : α → World} (hok : ∀ a, P (next a)) (herror : ∀ e, P (w.resumeLater k (.error e))) :
    P (w.withOperands k r next) := by
  cases r with
  | ok a => exact hok a
  | error e => exact herror e

theorem keeps_withOperands {α : Type} {r : Except Error α} {next : α → World}
    (h : ∀ a, Forest.Keeps x w.forest (next a).forest) :
    Forest.Keeps x w.forest (w.withOperands k r next).forest :=
  World.withOperands_induct (P := fun v => Forest.Keeps x w.forest v.forest) h fun _ => rfl

theorem keeps_activate (block : Block) (own : Option (Name × Value)) (exit : Exit) :
    Forest.Keeps x w.forest (w.activate env block own exit s k).forest :=
  .of_eq (w.forest_instantiate env block)

theorem keeps_repeatBlock (block : Block) (n : Nat) :
    Forest.Keeps x w.forest (w.repeatBlock env block n s k).forest := by
  cases n with
  | zero => exact rfl
  | succ n => exact keeps_activate block none .leave

theorem keeps_startAwait (op : String) :
    Forest.Keeps x w.forest (ControlWord.startAwait op w s k).forest := by
  refine keeps_withOperands fun (target, rest) => ?_
  cases target with
  | process p =>
    simp only [World.awaitProcess]
    cases (w.process p).result <;> exact rfl
  | dataflow v =>
    simp only [World.awaitVariable]
    cases (w.dataflow v).value <;> exact rfl
  | _ => exact rfl

theorem keeps_receive : Forest.Keeps x w.forest (w.receive s k).forest := by
  unfold World.receive
  cases s.owner with
  | none => exact rfl
  | some p =>
    dsimp only
    split
    · exact rfl
    · split <;> exact rfl

theorem keeps_resumeAfter (delay : Nat) : Forest.Keeps x w.forest (w.resumeAfter delay s k).forest := by
  unfold World.resumeAfter
  cases w.scheduler.deadline? delay <;> exact rfl

theorem ControlWord.keeps_startPlain (word : ControlWord) :
    Forest.Keeps x w.forest (word.startPlain w env s k).forest := by
  cases word with
  | run | choose => exact keeps_withOperands fun (block, rest) => keeps_activate block none .leave
  | when =>
    refine keeps_withOperands fun (condition, block, rest) => ?_
    cases condition with
    | true => exact keeps_activate block none .leave
    | false => exact rfl
  | iterate => exact keeps_withOperands fun (block, n, rest) => keeps_repeatBlock block n
  | vocab => exact keeps_withOperands fun (block, rest) => keeps_activate block none .harvest
  | await => exact keeps_startAwait _
  | receive => exact keeps_receive
  | after => exact keeps_withOperands fun (delay, rest) => keeps_resumeAfter delay
  | yield | send => exact rfl

/-- A word that takes over is `send`, or it keeps all scopes. -/
theorem Primitive.keeps_async {p : Primitive}
    {send start : World → EnvId → Stack → Continuation → World}
    (h : p.callWith send = .async start) :
    start = send ∨ ∀ x, Forest.Keeps x w.forest (start w env s k).forest := by
  obtain ⟨serial, name, behaviour⟩ := p
  cases behaviour with
  | pure word | state word | foreign word => cases h
  | control word =>
    by_cases hw : word = .send
    · subst hw
      cases h
      exact .inl rfl
    · have hstart : start = word.startPlain := by cases word <;> cases h <;> trivial
      rw [hstart]
      exact .inr fun x => word.keeps_startPlain
  | defined block =>
    cases h
    exact .inr fun x => keeps_activate block _ .leave
  | foreignControl word =>
    cases h
    cases word <;> exact .inr fun x => rfl

/-- A word with an object on top of the stack finds no name there, and no vocabulary. -/
theorem World.definedBy_object (w : World) (p : Primitive) (s : Stack) (o : ObjectId) :
    w.definedBy p (s.push (.object o)) = .empty := by
  unfold definedBy
  cases p.behaviour with
  | state word => cases word <;> rfl
  | _ => rfl

/-- Whatever an object answers, nothing is defined. -/
theorem ControlWord.gains_startSend (hx : (w.forest.current env).index < w.forest.scopes.size) :
    Forest.Gains (w.forest.current env) .empty w.forest (startSend w env s k).forest := by
  refine World.withOperands_induct
    (P := fun v => Forest.Gains (w.forest.current env) .empty w.forest v.forest)
    (fun (o, message, rest) => ?_) fun e => (Forest.Keeps.refl _ _).gains
  dsimp only
  cases w.answer? o message with
  | none => exact (Forest.Keeps.refl _ _).gains
  | some v =>
    cases v with
    | primitive p =>
      dsimp only
      cases hc : p.callWith (startPlain .send) with
      | sync action =>
        have hgains := p.gains_sync hc (s := rest.push (.object o)) hx
        rw [World.definedBy_object] at hgains
        exact hgains
      | async start =>
        rcases p.keeps_async hc with rfl | hkeeps
        · exact (keeps_startPlain .send).gains
        · exact (hkeeps _).gains
    | datum d =>
      cases d with
      | block id code => exact (keeps_activate ⟨id, code⟩ none .leave).gains
      | _ => exact (Forest.Keeps.refl _ _).gains
    | _ => exact (Forest.Keeps.refl _ _).gains

/-- A word that takes over defines nothing. -/
theorem Primitive.gains_async {p : Primitive}
    {start : World → EnvId → Stack → Continuation → World} (h : p.call = .async start)
    (hx : (w.forest.current env).index < w.forest.scopes.size) :
    Forest.Gains (w.forest.current env) (w.definedBy p s) w.forest (start w env s k).forest := by
  have hnone : w.definedBy p s = .empty := by
    obtain ⟨serial, name, behaviour⟩ := p
    cases behaviour with
    | state word => cases h
    | _ => rfl
  rw [hnone]
  rcases p.keeps_async h with rfl | hkeeps
  · exact ControlWord.gains_startSend hx
  · exact (hkeeps _).gains

end Async

/-- **What code defines is all that its next item adds** to the innermost scope of its
environment. -/
theorem gains_advance (w : World) (env : EnvId) (code : Code) (s : Stack) (k : Continuation)
    (hx : (w.forest.current env).index < w.forest.scopes.size) :
    Forest.Gains (w.forest.current env) (w.defines env code s) w.forest
      (w.advance (.run env code s (some k))).1.forest := by
  have nothing {v : World} (h : v.forest = w.forest) :
      Forest.Gains (w.forest.current env) .empty w.forest v.forest :=
    (Forest.Keeps.of_eq h).gains
  cases code with
  | nil => exact nothing rfl
  | cons d rest =>
    cases d with
    | word name =>
      simp only [World.advance, World.advanceCode, World.decode, World.resolve, World.defines]
      cases w.lookup env name with
      | none =>
        dsimp only
        cases w.strict <;> exact nothing rfl
      | some v =>
        cases v with
        | primitive p =>
          dsimp only
          cases hc : p.call with
          | sync action =>
            have hgains := p.gains_sync (s := s) hc hx
            dsimp only
            generalize (action env s).run w = result at hgains ⊢
            obtain ⟨outcome, v⟩ := result
            cases outcome <;> exact hgains
          | async start => exact p.gains_async hc hx
        | _ => exact nothing rfl
    | block id body => exact nothing (w.forest_instantiate env ⟨id, body⟩)
    | _ => exact nothing rfl

end Catena
