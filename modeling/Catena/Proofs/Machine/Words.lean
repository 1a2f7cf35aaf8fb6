import Catena.Proofs.Machine.Effect

/-!
# What words do

Every word that a program can call does one of a few things to the world, and this module says which
(`SyncEffects`, `AsyncEffects`). A synchronous word that fails does nothing; one that succeeds makes
at most one change, and the stack it returns holds what was on the stack before, plain data, and
what it found or made (`call_sync`). A control word hands its continuation on exactly once
(`call_async`). Later modules use these two statements and never look into a word again. The
built-in words have different names, so that a fresh world binds all of them
(`World.newBuiltinRoot_empty`).
-/

namespace Catena

/-- A failure that a program can bring about; the other two say how an evaluation ended. -/
def Error.ofProgram : Error → Bool
  | .stalled | .turnLimit _ => false
  | _ => true

/-- Whether a word is built in or defined in the language. -/
def Behaviour.isNative : Behaviour → Bool
  | .foreign _ | .foreignControl _ => false
  | _ => true

/-- Whether a word is built in. -/
def Behaviour.isBuiltin : Behaviour → Bool
  | .pure _ | .state _ | .control _ => true
  | _ => false

theorem Behaviour.isNative_of_isBuiltin {behaviour : Behaviour} (h : behaviour.isBuiltin = true) :
    behaviour.isNative = true := by
  cases behaviour with
  | foreign | foreignControl => cases h
  | _ => rfl

/-- A datum that stands for itself and is no block. -/
def Datum.isPlain {ι : Type} : Datum ι → Bool
  | .word _ | .block _ _ => false
  | _ => true

namespace World

/-- The values that a word called on `s` can come up with. -/
inductive Yields (w : World) (s : Stack) : Value → Prop
  | kept {v : Value} (h : v ∈ s.items) : Yields w s v
  | plain {d : Datum BlockId} (h : d.isPlain) : Yields w s (.datum d)
  | self {p : ProcessId} (h : s.owner = some p) : Yields w s (.process p)
  | mailbox {p : ProcessId} (h : s.owner = some p) : Yields w s (.mailbox (w.process p).mailbox)
  | property {o : ObjectId} {key : Name} {v : Value} (h : w.answer? o key = some v) : Yields w s v
  | binding {n : VocabularyId} {key : Name} {v : Value} (h : (w.vocabulary n).get? key = some v) :
      Yields w s v

/-- `t` has the owner of `s`, and a word called on `s` can come up with its values. -/
structure Derives (w : World) (s t : Stack) : Prop where
  owner : t.owner = s.owner
  items : ∀ v ∈ t.items, w.Yields s v

/-- An outcome that a word called on `s` can come to. -/
def Concludes (w : World) (s : Stack) : Outcome → Prop
  | .ok t => w.Derives s t
  | .error e => e.ofProgram = true

/-- The words that can be called in an environment: those that it binds, and those that an object
answers with. -/
inductive Callable (w : World) (env : EnvId) : Primitive → Prop
  | bound {name : Name} {p : Primitive} (h : w.lookup env name = some (.primitive p)) :
      Callable w env p
  | found {o : ObjectId} {key : Name} {p : Primitive} (h : w.answer? o key = some (.primitive p)) :
      Callable w env p

variable {w : World} {s t : Stack}

theorem Derives.refl (w : World) (s : Stack) : w.Derives s s := ⟨rfl, fun _ h => .kept h⟩

theorem Yields.of_derives {v : Value} (h : w.Yields t v) (hd : w.Derives s t) : w.Yields s v := by
  cases h with
  | kept h => exact hd.items _ h
  | plain h => exact .plain h
  | self h => exact .self (hd.owner ▸ h)
  | mailbox h => exact .mailbox (hd.owner ▸ h)
  | property h => exact .property h
  | binding h => exact .binding h

theorem Derives.trans {u : Stack} (h : w.Derives s t) (h' : w.Derives t u) : w.Derives s u :=
  ⟨h'.owner.trans h.owner, fun v hv => (h'.items v hv).of_derives h⟩

theorem Derives.push {v : Value} (h : w.Derives s t) (hv : w.Yields s v) :
    w.Derives s (t.push v) := by
  refine ⟨h.owner, fun u hu => ?_⟩
  rcases List.mem_cons.1 hu with rfl | hu
  · exact hv
  · exact h.items u hu

theorem Concludes.of_derives {outcome : Outcome} (h : w.Concludes t outcome)
    (hd : w.Derives s t) : w.Concludes s outcome := by
  cases outcome with
  | ok u => exact hd.trans h
  | error e => exact h

end World

/-- `t` is `s` with some values taken off. -/
structure Stack.Part (s t : Stack) : Prop where
  owner : t.owner = s.owner
  items : ∀ v ∈ t.items, v ∈ s.items

theorem Stack.Part.derives {s t : Stack} (h : s.Part t) (w : World) : w.Derives s t :=
  ⟨h.owner, fun v hv => .kept (h.items v hv)⟩

/-! ## Operands -/

/-- A computation that fails only by the program's fault, and otherwise gives something with `P`. -/
def Gives {α : Type} (r : Except Error α) (P : α → Prop) : Prop :=
  match r with
  | .ok a => P a
  | .error e => e.ofProgram = true

theorem Gives.bind {α β : Type} {r : Except Error α} {f : α → Except Error β} {P : α → Prop}
    {Q : β → Prop} (h : Gives r P) (hf : ∀ a, P a → Gives (f a) Q) : Gives (r >>= f) Q := by
  cases r with
  | ok a => exact hf a h
  | error e => exact h

namespace Stack

variable (s : Stack) (op : String)

theorem gives_peek (n : Nat) : Gives (s.peek op n) (· ∈ s.items) := by
  unfold peek
  cases h : s.items[n]? with
  | some v => exact List.mem_of_getElem? h
  | none => exact rfl

theorem gives_dropTop (n : Nat) : Gives (s.dropTop op n) s.Part := by
  unfold dropTop need
  split
  · exact rfl
  · exact ⟨rfl, fun v hv => List.mem_of_mem_drop hv⟩

theorem gives_pop : Gives (s.pop op) fun (v, t) => v ∈ s.items ∧ s.Part t := by
  unfold pop
  cases h : s.items with
  | nil => exact rfl
  | cons v rest => exact ⟨by simp, rfl, fun u hu => by simp [h, hu]⟩

theorem gives_takeTwo :
    Gives (s.takeTwo op) fun (a, b, t) => a ∈ s.items ∧ b ∈ s.items ∧ s.Part t := by
  unfold takeTwo
  split
  · rename_i b a rest h
    exact ⟨by simp [h], by simp [h], rfl, fun u hu => by simp only [h]; simp [hu]⟩
  · exact rfl

theorem gives_takeThree :
    Gives (s.takeThree op) fun (a, b, c, t) =>
      a ∈ s.items ∧ b ∈ s.items ∧ c ∈ s.items ∧ s.Part t := by
  unfold takeThree
  split
  · rename_i c b a rest h
    exact ⟨by simp [h], by simp [h], by simp [h], rfl, fun u hu => by simp only [h]; simp [hu]⟩
  · exact rfl

/-- An operand of a kind is the value found, or the value found is of another kind. -/
theorem gives_of_peek {α : Type} {n : Nat} {select : Value → Except Error α} {back : α → Value}
    (h : ∀ v, Gives (select v) fun a => v = back a) :
    Gives (s.peek op n >>= select) fun a => back a ∈ s.items := by
  refine (s.gives_peek op n).bind fun v hv => ?_
  have hg := h v
  cases hr : select v with
  | ok a =>
    rw [hr] at hg
    have hback : v = back a := hg
    show back a ∈ s.items
    rw [← hback]
    exact hv
  | error e => rw [hr] at hg; exact hg

theorem gives_peekNumber (n : Nat) : Gives (s.peekNumber op n) fun x => .number x ∈ s.items := by
  refine s.gives_of_peek op fun v => ?_
  split <;> exact rfl

theorem gives_peekBlock (n : Nat) :
    Gives (s.peekBlock op n) fun b => .block b.id b.code ∈ s.items := by
  refine s.gives_of_peek op fun v => ?_
  split <;> exact rfl

theorem gives_peekSymbol (n : Nat) :
    Gives (s.peekSymbol op n) fun name => .symbol name ∈ s.items := by
  refine s.gives_of_peek op fun v => ?_
  split <;> exact rfl

theorem gives_peekVocabulary (n : Nat) :
    Gives (s.peekVocabulary op n) fun v => .vocabulary v ∈ s.items := by
  refine s.gives_of_peek op fun v => ?_
  split <;> exact rfl

theorem gives_peekObject (n : Nat) : Gives (s.peekObject op n) fun o => .object o ∈ s.items := by
  refine s.gives_of_peek op fun v => ?_
  split <;> exact rfl

theorem gives_peekProcess (n : Nat) : Gives (s.peekProcess op n) fun p => .process p ∈ s.items := by
  refine s.gives_of_peek op fun v => ?_
  split <;> exact rfl

theorem gives_peekDataflow (n : Nat) :
    Gives (s.peekDataflow op n) fun v => .dataflow v ∈ s.items := by
  refine s.gives_of_peek op fun v => ?_
  split <;> exact rfl

end Stack

/-! ## Synchronous words -/

/-- The effects of a synchronous word that is called in `env` on `s`, and what it returns. -/
inductive SyncEffects (env : EnvId) (s : Stack) (w : World) :
    List Effect → Except Error Stack → Prop
  | fail {e : Error} (h : e.ofProgram = true) : SyncEffects env s w [] (.error e)
  | compute {t : Stack} (h : w.Derives s t) : SyncEffects env s w [] (.ok t)
  | print (line : String) {t : Stack} (h : w.Derives s t) :
      SyncEffects env s w [.print line] (.ok t)
  | define (name : Name) {v : Value} {t : Stack} (hv : v ∈ s.items) (h : w.Derives s t) :
      SyncEffects env s w [.define env name v] (.ok t)
  | defun (name : Name) {block : Block} {t : Stack} (hb : .block block.id block.code ∈ s.items)
      (h : w.Derives s t) :
      SyncEffects env s w [.snapshot env block, .defineWord env name (.defined block)] (.ok t)
  | adopt {v : VocabularyId} {t : Stack} (hv : .vocabulary v ∈ s.items) (h : w.Derives s t) :
      SyncEffects env s w [.adopt env v] (.ok t)
  | newObject {v : VocabularyId} {t : Stack} (hv : .vocabulary v ∈ s.items) (h : w.Derives s t) :
      SyncEffects env s w [.newObject v] (.ok (t.push (.object ⟨w.objects.size⟩)))
  | setProperty {o : ObjectId} (key : Name) {v : Value} {t : Stack} (ho : .object o ∈ s.items)
      (hv : v ∈ s.items) (h : w.Derives s t) :
      SyncEffects env s w [.setProperty o key v] (.ok t)
  | spawn {block : Block} {t : Stack} (hb : .block block.id block.code ∈ s.items)
      (h : w.Derives s t) :
      SyncEffects env s w
        [.snapshot env block, .spawn (w.instantiate env block).2 block s.owner]
        (.ok (t.push (.process ⟨w.processes.size⟩)))
  | deliver {m : MailboxId} {message : Value} {t : Stack}
      (hm : .mailbox m ∈ s.items ∨ ∃ p, .process p ∈ s.items ∧ m = (w.process p).mailbox)
      (hv : message ∈ s.items) (h : w.Derives s t) :
      SyncEffects env s w [.deliver m message] (.ok t)
  | newVariable (name : Name) {t : Stack} (h : w.Derives s t) :
      SyncEffects env s w [.newVariable name] (.ok (t.push (.dataflow ⟨w.dataflows.size⟩)))
  | bind {v : VariableId} {value : Value} {t : Stack} (hd : .dataflow v ∈ s.items)
      (hv : value ∈ s.items) (h : w.Derives s t) :
      SyncEffects env s w [.bind v value] (.ok t)

/-- What comes of a synchronous word is the result of its effects. -/
def Performs (env : EnvId) (s : Stack) (w : World) (result : Except Error Stack × World) : Prop :=
  ∃ es, SyncEffects env s w es result.1 ∧ result.2 = w.replay es

section Action

variable {α β : Type} {env : EnvId} {s : Stack} {w : World}

theorem Performs.fail {e : Error} (h : e.ofProgram = true) : Performs env s w (.error e, w) :=
  ⟨[], .fail h, rfl⟩

theorem Performs.compute {t : Stack} (h : w.Derives s t) : Performs env s w (.ok t, w) :=
  ⟨[], .compute h, rfl⟩

theorem Performs.of_gives {r : Except Error Stack} (h : Gives r (w.Derives s)) :
    Performs env s w (r, w) := by
  cases r with
  | ok t => exact .compute h
  | error e => exact .fail h

/-- A word that looks at an operand does what it does with the operand, or fails. -/
theorem Performs.operand {r : Except Error α} {P : α → Prop} {f : α → Action Stack}
    (hr : Gives r P) (hf : ∀ a, P a → Performs env s w ((f a).run w)) :
    Performs env s w ((liftM r >>= f : Action Stack).run w) := by
  cases r with
  | ok a => exact hf a hr
  | error e => exact .fail hr

theorem Performs.look {f : World → Action Stack} (hf : Performs env s w ((f w).run w)) :
    Performs env s w ((MonadState.get >>= f : Action Stack).run w) := hf

end Action

/-- A value that is a plain datum. -/
def Value.IsPlain (v : Value) : Prop := ∃ d : Datum BlockId, d.isPlain = true ∧ v = .datum d

theorem World.Yields.of_isPlain {w : World} {s : Stack} {v : Value} (h : v.IsPlain) :
    w.Yields s v := by
  obtain ⟨d, hd, rfl⟩ := h
  exact .plain hd

theorem Value.isPlain_number (x : Float) : (Value.number x).IsPlain := ⟨.number x, rfl, rfl⟩

theorem Value.isPlain_bool (b : Bool) : (Value.bool b).IsPlain := ⟨.bool b, rfl, rfl⟩

namespace Stack

variable (s : Stack) (op : String) (w : World)

/-- The stack below the top `n` values, with a value that a word can come up with. -/
theorem gives_dropTop_push (n : Nat) {v : Value} (hv : w.Yields s v) :
    Gives (do return (← s.dropTop op n).push v) (w.Derives s) :=
  (s.gives_dropTop op n).bind fun _ ht => (ht.derives w).push hv

theorem gives_mapNumber {f : Float → Except Error Value}
    (hf : ∀ a, Gives (f a) Value.IsPlain) : Gives (s.mapNumber op f) (w.Derives s) := by
  refine (s.gives_peekNumber op 0).bind fun a _ => (hf a).bind fun v hv => ?_
  exact s.gives_dropTop_push op w 1 (.of_isPlain hv)

theorem gives_mapNumbers {f : Float → Float → Except Error Value}
    (hf : ∀ a b, Gives (f a b) Value.IsPlain) : Gives (s.mapNumbers op f) (w.Derives s) := by
  refine (s.gives_peekNumber op 0).bind fun b _ => (s.gives_peekNumber op 1).bind fun a _ =>
    (hf a b).bind fun v hv => ?_
  exact s.gives_dropTop_push op w 2 (.of_isPlain hv)

theorem gives_compareTop (f : Value → Value → Bool) : Gives (s.compareTop op f) (w.Derives s) := by
  refine (s.gives_takeTwo op).bind fun (a, b, t) ⟨_, _, ht⟩ => ?_
  exact (ht.derives w).push (.of_isPlain (Value.isPlain_bool _))

end Stack

theorem PureWord.gives_unlessZero (op : String) (f : Float → Float → Float) (a b : Float) :
    Gives (unlessZero op f a b) Value.IsPlain := by
  unfold unlessZero
  split
  · exact rfl
  · exact Value.isPlain_number _

theorem PureWord.gives_squareRoot (op : String) (a : Float) :
    Gives (squareRoot op a) Value.IsPlain := by
  unfold squareRoot
  split
  · exact rfl
  · exact Value.isPlain_number _

/-- A pure word only rearranges the stack and adds plain data and the process that owns it. -/
theorem PureWord.gives_apply (word : PureWord) (s : Stack) (w : World) :
    Gives (word.apply s) (w.Derives s) := by
  have number : ∀ (f : Float → Float → Float) (a b : Float),
      Gives (.ok (.number (f a b))) Value.IsPlain := fun _ _ _ => Value.isPlain_number _
  have truth : ∀ (f : Float → Float → Bool) (a b : Float),
      Gives (.ok (.bool (f a b))) Value.IsPlain := fun _ _ _ => Value.isPlain_bool _
  cases word with
  | dup =>
    exact (s.gives_peek _ 0).bind fun v hv => (World.Derives.refl w s).push (.kept hv)
  | overTop =>
    exact (s.gives_peek _ 1).bind fun v hv => (World.Derives.refl w s).push (.kept hv)
  | drop =>
    have h := s.gives_dropTop PureWord.drop.name 1
    show Gives (s.dropTop PureWord.drop.name 1) (w.Derives s)
    cases hr : s.dropTop PureWord.drop.name 1 with
    | ok t => rw [hr] at h; exact Stack.Part.derives h w
    | error e => rw [hr] at h; exact h
  | swap =>
    refine (s.gives_takeTwo _).bind fun (a, b, t) ⟨ha, hb, ht⟩ => ?_
    exact ((ht.derives w).push (.kept hb)).push (.kept ha)
  | rot =>
    refine (s.gives_takeThree _).bind fun (a, b, c, t) ⟨ha, hb, hc, ht⟩ => ?_
    exact (((ht.derives w).push (.kept hb)).push (.kept hc)).push (.kept ha)
  | nip =>
    refine (s.gives_takeTwo _).bind fun (a, b, t) ⟨_, hb, ht⟩ => ?_
    exact (ht.derives w).push (.kept hb)
  | depth => exact (World.Derives.refl w s).push (.of_isPlain (Value.isPlain_number _))
  | clear => exact ⟨rfl, fun v hv => nomatch hv⟩
  | not =>
    refine (s.gives_pop _).bind fun (v, t) ⟨_, ht⟩ => ?_
    exact (ht.derives w).push (.of_isPlain (Value.isPlain_bool _))
  | self =>
    refine (World.Derives.refl w s).push ?_
    cases h : s.owner with
    | some p => exact .self h
    | none => exact .of_isPlain ⟨.nil, rfl, rfl⟩
  | divide | modulo => exact s.gives_mapNumbers _ w fun a b => gives_unlessZero _ _ a b
  | sqrt => exact s.gives_mapNumber _ w fun a => gives_squareRoot _ a
  | negate | abs => exact s.gives_mapNumber _ w fun a => Value.isPlain_number _
  | add | subtract | multiply | min | max => exact s.gives_mapNumbers _ w (number _)
  | less | greater | lessEqual | greaterEqual => exact s.gives_mapNumbers _ w (truth _)
  | equal | notEqual | and | or =>
    simp only [apply]
    exact s.gives_compareTop _ w _

/-- The mailbox that `post` means is one on the stack, or that of a process on the stack. -/
theorem StateWord.gives_target (op : String) (w : World) (v : Value) :
    Gives (target op w v) fun m =>
      v = .mailbox m ∨ ∃ p, v = .process p ∧ m = (w.process p).mailbox := by
  unfold target
  split
  · exact .inr ⟨_, rfl, rfl⟩
  · exact .inl rfl
  · exact rfl

theorem StateWord.gives_property? (op : String) (w : World) (key : Name) (s : Stack) (v : Value) :
    Gives (property? op w key v) fun found => w.Yields s (found.getD .nil) := by
  have absent : w.Yields s .nil := .of_isPlain ⟨.nil, rfl, rfl⟩
  unfold property?
  split
  · rename_i o
    cases h : w.answer? o key with
    | some v => exact .property h
    | none => exact absent
  · rename_i n
    cases h : (w.vocabulary n).get? key with
    | some v => exact .binding h
    | none => exact absent
  · exact rfl

/-- A state word fails without a trace, or makes one change and returns. -/
theorem StateWord.performs_apply (word : StateWord) (env : EnvId) (s : Stack) (w : World) :
    Performs env s w ((word.apply env s).run w) := by
  cases word with
  | define =>
    refine .operand (s.gives_peekSymbol _ 0) fun name _ => ?_
    refine .operand (s.gives_takeTwo _) fun (v, _, t) ⟨hv, _, ht⟩ => ?_
    exact ⟨_, .define name hv (ht.derives w), rfl⟩
  | defun =>
    refine .operand (s.gives_peekSymbol _ 0) fun name _ => ?_
    refine .operand (s.gives_peekBlock _ 1) fun block hb => ?_
    refine .operand (s.gives_dropTop _ 2) fun t ht => ?_
    exact ⟨_, .defun name hb (ht.derives w), rfl⟩
  | use =>
    refine .operand (s.gives_peekVocabulary _ 0) fun v hv => ?_
    refine .operand (s.gives_dropTop _ 1) fun t ht => ?_
    exact ⟨_, .adopt hv (ht.derives w), rfl⟩
  | new =>
    refine .operand (s.gives_peekVocabulary _ 0) fun v hv => ?_
    refine .operand (s.gives_dropTop _ 1) fun t ht => ?_
    exact ⟨_, .newObject hv (ht.derives w), rfl⟩
  | get =>
    refine .operand (s.gives_peekSymbol _ 0) fun key _ => .look ?_
    refine .operand (s.gives_peek _ 1) fun v _ => ?_
    refine .operand (gives_property? _ w key s v) fun found hf => ?_
    refine .operand (s.gives_dropTop _ 2) fun t ht => ?_
    exact .compute ((ht.derives w).push hf)
  | put =>
    refine .operand (s.gives_peekSymbol _ 0) fun key _ => ?_
    refine .operand (s.gives_peekObject _ 1) fun o hob => ?_
    refine .operand (s.gives_takeThree _) fun (v, _, _, t) ⟨hv, _, _, ht⟩ => ?_
    exact ⟨_, .setProperty key hob hv (ht.derives w), rfl⟩
  | go =>
    refine .operand (s.gives_peekBlock _ 0) fun block hb => ?_
    refine .operand (s.gives_dropTop _ 1) fun t ht => ?_
    refine ⟨[.snapshot env block, .spawn (w.instantiate env block).2 block s.owner], ?_, rfl⟩
    have hp : (w.spawn env block s.owner).2 = ⟨w.processes.size⟩ := by
      rw [World.spawn_eq]
      exact congrArg ProcessId.mk (congrArg Table.size (w.processes_instantiate env block))
    show SyncEffects env s w _ (.ok (t.push (.process (w.spawn env block s.owner).2)))
    rw [hp]
    exact .spawn hb (ht.derives w)
  | isDone =>
    refine .operand (s.gives_peekProcess _ 0) fun p _ => ?_
    refine .operand (s.gives_dropTop _ 1) fun t ht => ?_
    exact .compute ((ht.derives w).push (.of_isPlain (Value.isPlain_bool _)))
  | post =>
    refine .look (.operand (s.gives_peek _ 0) fun v hv => ?_)
    refine .operand (gives_target _ w v) fun m hm => ?_
    refine .operand (s.gives_takeTwo _) fun (message, _, t) ⟨hmsg, _, ht⟩ => ?_
    refine ⟨_, .deliver ?_ hmsg (ht.derives w), rfl⟩
    rcases hm with rfl | ⟨p, rfl, rfl⟩
    · exact .inl hv
    · exact .inr ⟨p, hv, rfl⟩
  | mailbox =>
    simp only [apply]
    cases h : s.owner with
    | some p => exact .compute ((World.Derives.refl w s).push (.mailbox h))
    | none => exact .fail rfl
  | dataflow =>
    refine .operand (s.gives_peekSymbol _ 0) fun name _ => ?_
    refine .operand (s.gives_dropTop _ 1) fun t ht => ?_
    exact ⟨_, .newVariable name (ht.derives w), rfl⟩
  | bind =>
    refine .operand (s.gives_peekDataflow _ 0) fun v hd => ?_
    refine .operand (s.gives_takeTwo _) fun (value, _, t) ⟨hv, _, ht⟩ => ?_
    exact ⟨_, .bind hd hv (ht.derives w), rfl⟩
  | isBound =>
    refine .operand (s.gives_peekDataflow _ 0) fun v _ => ?_
    refine .operand (s.gives_dropTop _ 1) fun t ht => ?_
    exact .compute ((ht.derives w).push (.of_isPlain (Value.isPlain_bool _)))
  | print =>
    refine .operand (s.gives_pop _) fun (v, t) ⟨_, ht⟩ => ?_
    exact ⟨_, .print _ (ht.derives w), rfl⟩
  | render =>
    refine .operand (s.gives_pop _) fun (v, t) ⟨_, ht⟩ => ?_
    exact .compute ((ht.derives w).push (.of_isPlain ⟨.text _, rfl, rfl⟩))

theorem ForeignWord.gives_apply (word : ForeignWord) (s : Stack) (w : World) :
    Gives (word.apply s) (w.Derives s) := by
  cases word with
  | pushes x => exact (World.Derives.refl w s).push (.of_isPlain (Value.isPlain_number x))
  | refuses op reason => exact rfl

/-- Every synchronous word fails without a trace, or makes one change and returns. -/
theorem call_sync {p : Primitive} {send : World → EnvId → Stack → Continuation → World}
    {action : EnvId → Stack → Action Stack} (h : p.callWith send = .sync action) (env : EnvId)
    (s : Stack) (w : World) : Performs env s w ((action env s).run w) := by
  obtain ⟨serial, name, behaviour⟩ := p
  cases behaviour with
  | pure word =>
    cases h
    exact .of_gives (word.gives_apply s w)
  | state word =>
    cases h
    exact word.performs_apply env s w
  | foreign word =>
    cases h
    exact .of_gives (word.gives_apply s w)
  | control word => cases word <;> cases h
  | defined block => cases h
  | foreignControl word => cases h

/-! ## Words that take over control -/

/-- The effects of a control word that is called in `env` on `s` with the continuation `k`. -/
inductive AsyncEffects (env : EnvId) (s : Stack) (k : Continuation) (w : World) :
    List Effect → Prop
  | resume {outcome : Outcome} (h : w.Concludes s outcome) :
      AsyncEffects env s k w [.later (.resume k outcome)]
  | report (message : String) {t : Stack} (h : w.Derives s t) :
      AsyncEffects env s k w [.report message, .later (.resume k (.ok t))]
  | activate (exit : Exit) {block : Block} {t : Stack}
      (hb : w.Yields s (.block block.id block.code)) (h : w.Derives s t) :
      AsyncEffects env s k w [.snapshot env block,
        .later (.activate (w.instantiate env block).2 none block exit t k)]
  | iterate (n : Nat) {block : Block} {t : Stack}
      (hb : w.Yields s (.block block.id block.code)) (h : w.Derives s t) :
      AsyncEffects env s k w [.snapshot env block,
        .later (.activate (w.instantiate env block).2 none block .leave t
          (k.push (.again env block n)))]
  | callWord {p : Primitive} {block : Block} {t : Stack} (hp : w.Callable env p)
      (hb : p.behaviour = .defined block) (h : w.Derives s t) :
      AsyncEffects env s k w [.snapshot env block,
        .later (.activate (w.instantiate env block).2 (some (p.name, .primitive p)) block .leave t
          k)]
  | awaitVariable {v : VariableId} {t : Stack} (hv : w.Yields s (.dataflow v))
      (h : w.Derives s t) : AsyncEffects env s k w [.awaitVariable v t k]
  | awaitProcess {p : ProcessId} {t : Stack} (hp : w.Yields s (.process p)) (h : w.Derives s t) :
      AsyncEffects env s k w [.awaitProcess p t k]
  | receive {t : Stack} (h : w.Derives s t) : AsyncEffects env s k w [.receive t k]
  | after (due : Nat) {t : Stack} (h : w.Derives s t) :
      AsyncEffects env s k w [.schedule due (.resume k (.ok t))]
  /-- A message that is answered by a synchronous word. -/
  | sync {t : Stack} {es : List Effect} {outcome : Outcome} (h : w.Derives s t)
      (hs : SyncEffects env t w es outcome) :
      AsyncEffects env s k w (es ++ [.later (.resume k outcome)])
  | swallow {p : Primitive} (hp : w.Callable env p)
      (hb : p.behaviour = .foreignControl .swallows) : AsyncEffects env s k w []
  | stall {p : Primitive} (hp : w.Callable env p) (hb : p.behaviour = .foreignControl .stalls) :
      AsyncEffects env s k w [.later (.resume k (.error .stalled))]

theorem AsyncEffects.of_derives {env : EnvId} {s t : Stack} {k : Continuation} {w : World}
    {es : List Effect} (h : AsyncEffects env t k w es) (hd : w.Derives s t) :
    AsyncEffects env s k w es := by
  cases h with
  | resume h => exact .resume (h.of_derives hd)
  | report message h => exact .report message (hd.trans h)
  | activate exit hb h => exact .activate exit (hb.of_derives hd) (hd.trans h)
  | iterate n hb h => exact .iterate n (hb.of_derives hd) (hd.trans h)
  | callWord hp hb h => exact .callWord hp hb (hd.trans h)
  | awaitVariable hv h => exact .awaitVariable (hv.of_derives hd) (hd.trans h)
  | awaitProcess hp h => exact .awaitProcess (hp.of_derives hd) (hd.trans h)
  | receive h => exact .receive (hd.trans h)
  | after due h => exact .after due (hd.trans h)
  | sync h hs => exact .sync (hd.trans h) hs
  | swallow hp hb => exact .swallow hp hb
  | stall hp hb => exact .stall hp hb

/-- What comes of a control word is the result of its effects. -/
def Starts (env : EnvId) (s : Stack) (k : Continuation) (w w' : World) : Prop :=
  ∃ es, AsyncEffects env s k w es ∧ w' = w.replay es

section Control

variable {env : EnvId} {s : Stack} {k : Continuation} {w : World}

theorem Starts.resume {outcome : Outcome} (h : w.Concludes s outcome) :
    Starts env s k w (w.resumeLater k outcome) := ⟨_, .resume h, rfl⟩

theorem Starts.operands {α : Type} {r : Except Error α} {P : α → Prop} {next : α → World}
    (hr : Gives r P) (hf : ∀ a, P a → Starts env s k w (next a)) :
    Starts env s k w (w.withOperands k r next) := by
  cases r with
  | ok a => exact hf a hr
  | error e => exact .resume hr

theorem Starts.runBlock {block : Block} {t : Stack} (hb : .block block.id block.code ∈ s.items)
    (h : w.Derives s t) : Starts env s k w (w.runBlock env block t k) :=
  ⟨_, .activate .leave (.kept hb) h, rfl⟩

end Control

namespace ControlWord

variable (s : Stack) (op : String)

theorem gives_blockOperand :
    Gives (blockOperand op s) fun (b, t) => .block b.id b.code ∈ s.items ∧ s.Part t :=
  (s.gives_peekBlock op 0).bind fun _ hb => (s.gives_dropTop op 1).bind fun _ ht => ⟨hb, ht⟩

theorem gives_whenOperands :
    Gives (whenOperands op s) fun (_, b, t) => .block b.id b.code ∈ s.items ∧ s.Part t :=
  (s.gives_peekBlock op 0).bind fun _ hb => (s.gives_peek op 1).bind fun _ _ =>
    (s.gives_dropTop op 2).bind fun _ ht => ⟨hb, ht⟩

theorem gives_chooseOperands :
    Gives (chooseOperands op s) fun (b, t) => .block b.id b.code ∈ s.items ∧ s.Part t := by
  refine (s.gives_peekBlock op 0).bind fun otherwise ho => (s.gives_peekBlock op 1).bind
    fun chosen hc => (s.gives_peek op 2).bind fun condition _ => (s.gives_dropTop op 3).bind
    fun t ht => ?_
  cases condition.truthy with
  | true => exact ⟨hc, ht⟩
  | false => exact ⟨ho, ht⟩

theorem gives_iterateOperands :
    Gives (iterateOperands op s) fun (b, _, t) => .block b.id b.code ∈ s.items ∧ s.Part t := by
  refine (s.gives_peekNumber op 0).bind fun x _ => (s.gives_peekBlock op 1).bind fun b hb => ?_
  split
  · exact (s.gives_dropTop op 2).bind fun t ht => ⟨hb, ht⟩
  · exact rfl

theorem gives_sendOperands :
    Gives (sendOperands op s) fun (o, _, t) => .object o ∈ s.items ∧ s.Part t :=
  (s.gives_peekSymbol op 0).bind fun _ _ => (s.gives_peekObject op 1).bind fun _ ho =>
    (s.gives_dropTop op 2).bind fun _ ht => ⟨ho, ht⟩

theorem gives_delayOperand : Gives (delayOperand op s) fun (_, t) => s.Part t := by
  refine (s.gives_peekNumber op 0).bind fun ms _ => ?_
  dsimp only
  split
  · exact rfl
  · split
    · exact (s.gives_dropTop op 1).bind fun t ht => ht
    · exact rfl

theorem starts_startAwait (env : EnvId) (w : World) (k : Continuation) :
    Starts env s k w (startAwait op w s k) := by
  refine .operands (s.gives_pop op) fun (target, t) ⟨hv, ht⟩ => ?_
  cases target with
  | process p => exact ⟨_, .awaitProcess (.kept hv) (ht.derives w), rfl⟩
  | dataflow v => exact ⟨_, .awaitVariable (.kept hv) (ht.derives w), rfl⟩
  | datum d => exact .resume rfl
  | primitive p => exact .resume rfl
  | vocabulary v => exact .resume rfl
  | object o => exact .resume rfl
  | mailbox m => exact .resume rfl

/-- Every control word but `send` hands its continuation on. -/
theorem starts_startPlain (word : ControlWord) (w : World) (env : EnvId) (k : Continuation) :
    Starts env s k w (word.startPlain w env s k) := by
  cases word with
  | run =>
    exact .operands (gives_blockOperand s _) fun (b, t) ⟨hb, ht⟩ => .runBlock hb (ht.derives w)
  | when =>
    refine .operands (gives_whenOperands s _) fun (condition, b, t) ⟨hb, ht⟩ => ?_
    cases condition with
    | true => exact .runBlock hb (ht.derives w)
    | false => exact .resume (ht.derives w)
  | choose =>
    exact .operands (gives_chooseOperands s _) fun (b, t) ⟨hb, ht⟩ => .runBlock hb (ht.derives w)
  | iterate =>
    refine .operands (gives_iterateOperands s _) fun (b, n, t) ⟨hb, ht⟩ => ?_
    cases n with
    | zero => exact .resume (ht.derives w)
    | succ n => exact ⟨_, .iterate n (.kept hb) (ht.derives w), rfl⟩
  | vocab =>
    refine .operands (gives_blockOperand s _) fun (b, t) ⟨hb, ht⟩ => ?_
    exact ⟨_, .activate .harvest (.kept hb) (ht.derives w), rfl⟩
  | await => exact starts_startAwait s _ env w k
  | receive => exact ⟨_, .receive (.refl w s), rfl⟩
  | yield => exact .resume (World.Derives.refl w s)
  | after =>
    refine .operands (gives_delayOperand s _) fun (delay, t) ht => ?_
    show Starts env s k w (w.resumeAfter delay t k)
    unfold World.resumeAfter
    split
    · exact ⟨_, .after _ (Stack.Part.derives ht w), rfl⟩
    · exact .resume rfl
  | send => exact .resume rfl

end ControlWord

/-- A word that takes over is `send`, or it hands its continuation on. -/
theorem callWith_async {p : Primitive} {w : World} {env : EnvId} (hp : w.Callable env p)
    {send start : World → EnvId → Stack → Continuation → World}
    (h : p.callWith send = .async start) (s : Stack) (k : Continuation) :
    start = send ∨ Starts env s k w (start w env s k) := by
  obtain ⟨serial, name, behaviour⟩ := p
  cases behaviour with
  | pure word => cases h
  | state word => cases h
  | foreign word => cases h
  | control word =>
    by_cases hw : word = .send
    · subst hw
      cases h
      exact .inl rfl
    · have hstart : start = word.startPlain := by cases word <;> cases h <;> trivial
      rw [hstart]
      exact .inr (ControlWord.starts_startPlain s word w env k)
  | defined block =>
    cases h
    exact .inr ⟨_, .callWord hp rfl (.refl w s), rfl⟩
  | foreignControl word =>
    cases h
    cases word with
    | pauses => exact .inr (.resume (World.Derives.refl w s))
    | swallows => exact .inr ⟨[], .swallow hp rfl, rfl⟩
    | stalls => exact .inr ⟨_, .stall hp rfl, rfl⟩

/-- Sending a message hands the continuation on, whatever the object answers. -/
theorem starts_startSend (w : World) (env : EnvId) (s : Stack) (k : Continuation) :
    Starts env s k w (ControlWord.startSend w env s k) := by
  refine .operands (ControlWord.gives_sendOperands s _) fun (o, message, t) ⟨ho, ht⟩ => ?_
  have hd : w.Derives s (t.push (.object o)) := (ht.derives w).push (.kept ho)
  dsimp only
  cases ha : w.answer? o message with
  | none => exact ⟨_, .report _ (.refl w s), rfl⟩
  | some v =>
    cases v with
    | primitive p =>
      dsimp only
      cases hc : p.callWith (ControlWord.startPlain .send) with
      | sync action =>
        obtain ⟨es, hes, hw⟩ := call_sync hc env (t.push (.object o)) w
        refine ⟨_, .sync hd hes, ?_⟩
        rw [World.replay_append, ← hw]
        rfl
      | async start =>
        have hstarts : Starts env (t.push (.object o)) k w
            (start w env (t.push (.object o)) k) := by
          rcases callWith_async (.found ha) hc (t.push (.object o)) k with rfl | h
          · exact ControlWord.starts_startPlain _ .send w env k
          · exact h
        obtain ⟨es, hes, hw⟩ := hstarts
        exact ⟨es, hes.of_derives hd, hw⟩
    | datum d =>
      cases d with
      | block id code =>
        have hb : w.Yields s (.block (Block.mk id code).id (Block.mk id code).code) := .property ha
        exact ⟨_, .activate .leave hb hd, rfl⟩
      | _ => exact .resume ((ht.derives w).push (.property ha))
    | _ => exact .resume ((ht.derives w).push (.property ha))

/-- **A control word hands its continuation on.** -/
theorem call_async {p : Primitive} {w : World} {env : EnvId} (hp : w.Callable env p)
    {start : World → EnvId → Stack → Continuation → World} (h : p.call = .async start) (s : Stack)
    (k : Continuation) : Starts env s k w (start w env s k) := by
  rcases callWith_async hp h s k with rfl | h
  · exact starts_startSend w env s k
  · exact h

/-! ## The built-in words -/

/-- The built-in words, in the order in which they are made. -/
def builtins : List (Name × Behaviour) :=
  PureWord.all.map (fun word => (word.name, Behaviour.pure word)) ++
    StateWord.all.map (fun word => (word.name, Behaviour.state word)) ++
    ControlWord.all.map (fun word => (word.name, Behaviour.control word))

theorem nodup_builtins : (builtins.map Prod.fst).Nodup := by decide +kernel

namespace World

/-- The world in which some words have been made in one environment, and nothing else. -/
def knowing (words : List (Name × Behaviour)) : World where
  forest := ⟨⟨#[⟨⟨(words.zipIdx.map fun x =>
    (x.1.1, Value.primitive ⟨x.2, x.1.1, x.1.2⟩)).reverse⟩, none⟩]⟩, ⟨#[⟨0⟩]⟩⟩
  primitives := words.length

/-- A word with a name of its own replaces no other. -/
theorem defineWord_knowing {words : List (Name × Behaviour)} {name : Name}
    (h : name ∉ words.map Prod.fst) (behaviour : Behaviour) :
    (knowing words).defineWord ⟨0⟩ name behaviour = knowing (words ++ [(name, behaviour)]) := by
  have hkept : ((words.zipIdx.map fun x =>
      (x.1.1, Value.primitive ⟨x.2, x.1.1, x.1.2⟩)).reverse.filter fun entry => entry.1 != name) =
        (words.zipIdx.map fun x => (x.1.1, Value.primitive ⟨x.2, x.1.1, x.1.2⟩)).reverse := by
    refine List.filter_eq_self.2 fun entry hentry => ?_
    obtain ⟨x, hx, rfl⟩ := List.mem_map.1 (List.mem_reverse.1 hentry)
    refine bne_iff_ne.2 fun heq => h ?_
    exact heq ▸ List.mem_map_of_mem (List.fst_mem_of_mem_zipIdx hx)
  simp [knowing, defineWord, newPrimitive, define, mapForest, Forest.define, Forest.current,
    Table.modify, Table.get, Table.get?, Bindings.insert, List.zipIdx_append, hkept]

theorem foldl_defineWord (words rest : List (Name × Behaviour))
    (h : ((words ++ rest).map Prod.fst).Nodup) :
    rest.foldl (fun w word => w.defineWord ⟨0⟩ word.1 word.2) (knowing words) =
      knowing (words ++ rest) := by
  induction rest generalizing words with
  | nil => rw [List.append_nil]; rfl
  | cons word rest ih =>
    have hnew : word.1 ∉ words.map Prod.fst := by
      rw [List.map_append, List.nodup_append] at h
      exact fun hmem => h.2.2 _ hmem _ (List.mem_cons_self ..) rfl
    rw [List.append_cons] at h ⊢
    rw [List.foldl_cons, defineWord_knowing hnew]
    exact ih _ h

/-- The world with the built-in words and nothing else. -/
def fresh : World := knowing builtins

theorem newBuiltinRoot_empty : newBuiltinRoot {} = (fresh, ⟨0⟩) := by
  have h := foldl_defineWord [] builtins nodup_builtins
  rw [List.nil_append] at h
  rw [fresh, ← h]
  simp only [builtins, List.foldl_append, List.foldl_map]
  rfl

end World

theorem Interpreter.new_empty (settings : Settings) :
    new settings {} = (World.fresh, ⟨⟨0⟩, settings⟩) := by
  rw [new, World.newBuiltinRoot_empty]

end Catena
