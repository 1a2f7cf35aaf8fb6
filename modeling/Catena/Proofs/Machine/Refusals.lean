import Catena.Proofs.Machine.Words

/-!
# Failed words leave no trace

A synchronous word that fails has done nothing. A control word that refuses its operands cannot fail
its caller at once, so it queues the failure; that is all it does (`failure_without_trace`).

What a control word wants is given apart from how it looks for it: a list of operands, from the top
of the stack down, and a condition on those that are of the right kind (`ControlWord.Accepts`). What
it complains about is the first operand that is missing or of the wrong kind, or else the condition
(`ControlWord.fault?`).
-/

namespace Catena

/-! ## Computations that fail -/

/-- A computation fails exactly if there is something at fault, and says what. -/
def Faults {α : Type} (r : Except Error α) (fault : Option Error) : Prop :=
  ∀ e, r = .error e ↔ fault = some e

namespace Faults

variable {α β : Type} {r : Except Error α} {f : α → Except Error β} {fault other : Option Error}

theorem ok (a : α) : Faults (.ok a : Except Error α) none := fun _ => ⟨nofun, nofun⟩

theorem error (e : Error) : Faults (.error e : Except Error α) (some e) := fun _ => by simp

/-- What is at fault first is what counts. -/
theorem bind (h : Faults r fault) (hf : ∀ a, r = .ok a → Faults (f a) other) :
    Faults (r >>= f) (fault.or other) := by
  cases r with
  | error e =>
    rw [(h e).1 rfl]
    exact .error e
  | ok a =>
    have hnone : fault = none := Option.eq_none_iff_forall_not_mem.2 fun e he => nomatch (h e).2 he
    rw [hnone]
    exact hf a rfl

/-- Once nothing more can be at fault, the rest does not matter. -/
theorem bind_ok (h : Faults r fault) (hf : ∀ a, r = .ok a → Faults (f a) none) :
    Faults (r >>= f) fault := by
  have hb := h.bind hf
  rwa [Option.or_none] at hb

end Faults

/-! ## Operands -/

/-- What a word wants an operand to be. -/
inductive Operand where
  | any
  | ofKind (κ : Kind)
  /-- A process or a dataflow variable; the complaint only names processes. -/
  | awaitable

/-- Whether a value is what a word wants. -/
def Operand.Suits (v : Value) : Operand → Prop
  | any => True
  | ofKind κ => v.kind = κ
  | awaitable => v.kind = .process ∨ v.kind = .dataflow

instance (v : Value) : (operand : Operand) → Decidable (operand.Suits v)
  | .any => .isTrue trivial
  | .ofKind κ => inferInstanceAs (Decidable (v.kind = κ))
  | .awaitable => inferInstanceAs (Decidable (v.kind = .process ∨ v.kind = .dataflow))

/-- The complaint about a value that is not what a word wants. -/
def Operand.mismatch (op : String) (v : Value) : Operand → Option Error
  | any => none
  | ofKind κ => some (.typeMismatch op κ v.kind)
  | awaitable => some (.typeMismatch op .process v.kind)

namespace Stack

variable (s : Stack) (op : String)

/-- What is wrong with the operand `depth` places below the top. -/
def faultAt (depth : Nat) (operand : Operand) : Option Error :=
  match s.items[depth]? with
  | none => some (.stackUnderflow op (depth + 1) s.depth)
  | some v => if operand.Suits v then none else operand.mismatch op v

/-- What is wrong with the first of some operands that something is wrong with. -/
def faultFrom (depth : Nat) : List Operand → Option Error
  | [] => none
  | operand :: rest => (s.faultAt op depth operand).or (faultFrom (depth + 1) rest)

theorem faults_peek (depth : Nat) : Faults (s.peek op depth) (s.faultAt op depth .any) := by
  unfold peek faultAt
  cases s.items[depth]? with
  | none => exact .error _
  | some v => exact .ok v

/-- Looking for an operand fails if it is missing, or as looking at it does. -/
theorem faults_of_peek {α : Type} {depth : Nat} {select : Value → Except Error α} {operand : Operand}
    (h : ∀ v, Faults (select v) (if operand.Suits v then none else operand.mismatch op v)) :
    Faults (s.peek op depth >>= select) (s.faultAt op depth operand) := by
  unfold peek faultAt
  cases s.items[depth]? with
  | none => exact .error _
  | some v => exact h v

theorem faults_peekNumber (depth : Nat) :
    Faults (s.peekNumber op depth) (s.faultAt op depth (.ofKind .number)) := by
  refine s.faults_of_peek op fun v => ?_
  cases v with
  | datum d => cases d <;> first | exact .ok _ | exact .error _
  | _ => exact .error _

theorem faults_peekBlock (depth : Nat) :
    Faults (s.peekBlock op depth) (s.faultAt op depth (.ofKind .block)) := by
  refine s.faults_of_peek op fun v => ?_
  cases v with
  | datum d => cases d <;> first | exact .ok _ | exact .error _
  | _ => exact .error _

theorem faults_peekSymbol (depth : Nat) :
    Faults (s.peekSymbol op depth) (s.faultAt op depth (.ofKind .symbol)) := by
  refine s.faults_of_peek op fun v => ?_
  cases v with
  | datum d => cases d <;> first | exact .ok _ | exact .error _
  | _ => exact .error _

theorem faults_peekObject (depth : Nat) :
    Faults (s.peekObject op depth) (s.faultAt op depth (.ofKind .object)) := by
  refine s.faults_of_peek op fun v => ?_
  cases v with
  | object o => exact .ok o
  | datum d => cases d <;> exact .error _
  | _ => exact .error _

/-- Nothing is at fault with operands that are there, and what they should be. -/
theorem faultFrom_eq_none_iff (depth : Nat) (operands : List Operand) :
    s.faultFrom op depth operands = none ↔
      ∀ i operand, operands[i]? = some operand →
        ∃ v, s.items[depth + i]? = some v ∧ operand.Suits v := by
  have first : ∀ depth operand, s.faultAt op depth operand = none ↔
      ∃ v, s.items[depth]? = some v ∧ operand.Suits v := by
    intro depth operand
    unfold faultAt
    cases s.items[depth]? with
    | none => simp
    | some v =>
      by_cases hv : operand.Suits v
      · simp [hv]
      · cases operand with
        | any => exact absurd trivial hv
        | _ => simp [hv, Operand.mismatch]
  induction operands generalizing depth with
  | nil => simp [faultFrom]
  | cons operand rest ih =>
    have ih := ih (depth + 1)
    rw [faultFrom, Option.or_eq_none_iff, first]
    constructor
    · rintro ⟨h, hrest⟩ i o ho
      cases i with
      | zero => cases ho; exact h
      | succ i =>
        obtain ⟨v, hv, hs⟩ := ih.1 hrest i o ho
        exact ⟨v, by rwa [Nat.add_assoc, Nat.add_comm 1] at hv, hs⟩
    · refine fun h => ⟨h 0 operand rfl, ih.2 fun i o ho => ?_⟩
      obtain ⟨v, hv, hs⟩ := h (i + 1) o ho
      exact ⟨v, by rwa [Nat.add_comm i 1, ← Nat.add_assoc] at hv, hs⟩

/-- Nothing more is at fault once the lowest operand has been found. -/
theorem faults_dropTop {n : Nat} (h : n ≤ s.depth) : Faults (s.dropTop op n) none := by
  rw [dropTop, (s.need_eq_ok_iff op n).2 h]
  exact .ok _

/-- The number on top of a stack. -/
def topNumber? : Option Float :=
  match s.items with
  | .number x :: _ => some x
  | _ => none

end Stack

namespace ControlWord

/-! ## What control words want -/

/-- The operands of a control word, from the top of the stack down. -/
def operands : ControlWord → List Operand
  | run | vocab => [.ofKind .block]
  | when => [.ofKind .block, .any]
  | choose => [.ofKind .block, .ofKind .block, .any]
  | iterate => [.ofKind .number, .ofKind .block]
  | await => [.awaitable]
  | after => [.ofKind .number]
  | send => [.ofKind .symbol, .ofKind .object]
  | receive | yield => []

/-- A delay in milliseconds that the clock can wait for. -/
def IsDelay (w : World) (ms : Float) : Prop :=
  (ms.isFinite && 0 ≤ ms) = true ∧
    ∃ delay, Number.nanoseconds? (ms / 1000) = some delay ∧ (w.scheduler.deadline? delay).isSome

/-- A stack that a control word can work on. -/
structure Accepts (word : ControlWord) (w : World) (s : Stack) : Prop where
  operands : ∀ (i : Nat) (operand : Operand), word.operands[i]? = some operand →
    ∃ v, s.items[i]? = some v ∧ operand.Suits v
  count : word = .iterate → ∀ x, s.topNumber? = some x → (Number.toWhole? x).isSome
  delay : word = .after → ∀ ms, s.topNumber? = some ms → IsDelay w ms
  owner : word = .receive → s.owner.isSome

/-- What is wrong with a delay. -/
def delayFault? (op : String) (w : World) (ms : Float) : Option Error :=
  if !(ms.isFinite && 0 ≤ ms) then some (.invalidArgument op (.badDelay ms))
  else match Number.nanoseconds? (ms / 1000) with
    | none => some (.invalidArgument op (.delayTooLong ms))
    | some delay =>
      match w.scheduler.deadline? delay with
      | none => some (.invalidArgument op (.deadlineTooFar (delay / Number.nanosPerSecond)))
      | some _ => none

/-- What is wrong with operands of the right kinds. -/
def misfit? (word : ControlWord) (w : World) (s : Stack) : Option Error :=
  match word with
  | iterate => s.topNumber?.bind fun x =>
    if (Number.toWhole? x).isSome then none else some (.invalidArgument word.name (.badCount x))
  | after => s.topNumber?.bind (delayFault? word.name w)
  | receive => if s.owner.isSome then none else some (.noOwningProcess word.name)
  | _ => none

/-- What a control word complains about. -/
def fault? (word : ControlWord) (w : World) (s : Stack) : Option Error :=
  (s.faultFrom word.name 0 word.operands).or (word.misfit? w s)

theorem delayFault?_eq_none_iff {op : String} {w : World} {ms : Float} :
    delayFault? op w ms = none ↔ IsDelay w ms := by
  unfold delayFault? IsDelay
  cases hb : ms.isFinite && decide (0 ≤ ms) with
  | false => simp
  | true =>
    cases Number.nanoseconds? (ms / 1000) with
    | none => simp
    | some delay => cases hd : w.scheduler.deadline? delay <;> simp [hd]

/-- **A control word complains exactly about the stacks that it cannot work on.** -/
theorem fault?_eq_none_iff {word : ControlWord} {w : World} {s : Stack} :
    word.fault? w s = none ↔ word.Accepts w s := by
  rw [fault?, Option.or_eq_none_iff, Stack.faultFrom_eq_none_iff]
  simp only [Nat.zero_add]
  constructor
  · rintro ⟨hoperands, hfit⟩
    refine ⟨hoperands, ?_, ?_, ?_⟩ <;> rintro rfl
    · intro x hx
      simpa [misfit?, hx, Option.isSome_iff_ne_none] using hfit
    · intro ms hms
      exact delayFault?_eq_none_iff.1 (by simpa [misfit?, hms] using hfit)
    · simpa [misfit?, Option.isSome_iff_ne_none] using hfit
  · intro h
    refine ⟨h.operands, ?_⟩
    cases word with
    | iterate =>
      cases hx : s.topNumber? with
      | none => simp [misfit?, hx]
      | some x => simp [misfit?, hx, h.count rfl x hx]
    | after =>
      cases hx : s.topNumber? with
      | none => simp [misfit?, hx]
      | some ms => simp [misfit?, hx, delayFault?_eq_none_iff.2 (h.delay rfl ms hx)]
    | receive => simp [misfit?, h.owner rfl]
    | _ => rfl

/-! ## What control words look for -/

section Operands

variable (s : Stack) (op : String)

/-- Once the lowest operand has been found, all of them can be taken off. -/
theorem faults_last {α β : Type} {r : Except Error α} {depth : Nat} {operand : Operand}
    (h : Faults r (s.faultAt op depth operand)) (f : α → Stack → β) :
    Faults (do let a ← r; return f a (← s.dropTop op (depth + 1))) (s.faultAt op depth operand) := by
  refine h.bind_ok fun a ha => (s.faults_dropTop op ?_).bind_ok fun t _ => .ok _
  subst ha
  unfold Stack.faultAt at h
  cases hv : s.items[depth]? with
  | none => rw [hv] at h; cases (h _).2 rfl
  | some v => exact (List.getElem?_eq_some_iff.1 hv).1

theorem faults_blockOperand : Faults (blockOperand op s) (s.faultFrom op 0 [.ofKind .block]) := by
  simp only [Stack.faultFrom, Option.or_none]
  exact faults_last s op (s.faults_peekBlock op 0) Prod.mk

theorem faults_whenOperands :
    Faults (whenOperands op s) (s.faultFrom op 0 [.ofKind .block, .any]) := by
  simp only [Stack.faultFrom, Option.or_none]
  exact (s.faults_peekBlock op 0).bind fun block _ =>
    faults_last s op (s.faults_peek op 1) fun condition t => (condition.truthy, block, t)

theorem faults_chooseOperands :
    Faults (chooseOperands op s) (s.faultFrom op 0 [.ofKind .block, .ofKind .block, .any]) := by
  simp only [Stack.faultFrom, Option.or_none]
  exact (s.faults_peekBlock op 0).bind fun otherwise _ => (s.faults_peekBlock op 1).bind
    fun chosen _ => faults_last s op (s.faults_peek op 2)
      fun condition t => (if condition.truthy then chosen else otherwise, t)

theorem faults_sendOperands :
    Faults (sendOperands op s) (s.faultFrom op 0 [.ofKind .symbol, .ofKind .object]) := by
  simp only [Stack.faultFrom, Option.or_none]
  exact (s.faults_peekSymbol op 0).bind fun message _ =>
    faults_last s op (s.faults_peekObject op 1) fun o t => (o, message, t)

/-- The number that is found on top of a stack. -/
theorem topNumber?_of_peekNumber {s : Stack} {op : String} {x : Float}
    (h : s.peekNumber op 0 = .ok x) : s.topNumber? = some x := by
  obtain ⟨items, owner⟩ := s
  cases items with
  | nil => cases h
  | cons v rest =>
    cases v with
    | datum d => cases d <;> cases h; rfl
    | _ => cases h

theorem one_le_depth_of_peekNumber {s : Stack} {op : String} {x : Float}
    (h : s.peekNumber op 0 = .ok x) : 1 ≤ s.depth := by
  have ht := topNumber?_of_peekNumber h
  obtain ⟨items, owner⟩ := s
  cases items with
  | nil => cases ht
  | cons v rest => exact Nat.succ_pos _

theorem faults_iterateOperands (w : World) :
    Faults (iterateOperands iterate.name s) (iterate.fault? w s) := by
  simp only [fault?, operands, Stack.faultFrom, Option.or_none, Option.or_assoc]
  refine (s.faults_peekNumber _ 0).bind fun x hx => ?_
  simp only [misfit?, topNumber?_of_peekNumber hx, Option.bind_some]
  cases Number.toWhole? x with
  | none => exact (s.faults_peekBlock _ 1).bind fun _ _ => .error _
  | some n =>
    simp only [Option.isSome_some, if_true, Option.or_none]
    exact faults_last s _ (s.faults_peekBlock _ 1) fun block t => (block, min n countBound, t)

end Operands

/-! ## What becomes of a complaint -/

section Start

variable {w : World} {s : Stack} {k : Continuation} {e : Error}

/-- Operands that are refused are answered by one task. -/
theorem withOperands_of_fault {α : Type} {r : Except Error α} {fault : Option Error}
    (h : Faults r fault) (he : fault = some e) (next : α → World) :
    w.withOperands k r next = w.later (.resume k (.error e)) := by
  rw [(h e).2 he]
  rfl

theorem startAwait_of_fault (h : await.fault? w s = some e) :
    startAwait await.name w s k = w.later (.resume k (.error e)) := by
  obtain ⟨items, owner⟩ := s
  cases items with
  | nil => cases h; rfl
  | cons v rest =>
    cases v with
    | datum d => cases d <;> cases h <;> rfl
    | _ => cases h <;> rfl

theorem startAfter_of_fault (h : after.fault? w s = some e) (env : EnvId) :
    after.startPlain w env s k = w.later (.resume k (.error e)) := by
  have hpeek := s.faults_peekNumber after.name 0
  simp only [fault?, operands, Stack.faultFrom, Option.or_none] at h
  show w.withOperands k (delayOperand after.name s) (fun p => w.resumeAfter p.1 p.2 k) = _
  cases hx : s.peekNumber after.name 0 with
  | error e' =>
    rw [(hpeek e').1 hx, Option.some_or] at h
    cases h
    simp only [delayOperand, hx]
    rfl
  | ok ms =>
    have hnone : s.faultAt after.name 0 (.ofKind .number) = none :=
      Option.eq_none_iff_forall_not_mem.2 fun e' he => by cases hx.symm.trans ((hpeek e').2 he)
    obtain ⟨rest, hrest⟩ : ∃ rest, s.dropTop after.name 1 = .ok rest :=
      ⟨_, by rw [Stack.dropTop, (s.need_eq_ok_iff _ 1).2 (one_le_depth_of_peekNumber hx)]; rfl⟩
    rw [hnone, Option.none_or, misfit?, topNumber?_of_peekNumber hx, Option.bind_some,
      delayFault?] at h
    simp only [delayOperand, hx, bind, Except.bind]
    -- The delay is refused by the word, or by the clock.
    cases hb : ms.isFinite && decide (0 ≤ ms) with
    | false =>
      rw [hb] at h
      cases h
      simp only [Bool.not_false, if_true]
      rfl
    | true =>
      rw [hb] at h
      simp only [Bool.not_true, Bool.false_eq_true, if_false] at h ⊢
      cases hn : Number.nanoseconds? (ms / 1000) with
      | none =>
        rw [hn] at h
        cases h
        rfl
      | some delay =>
        rw [hn] at h
        cases hd : w.scheduler.deadline? delay with
        | some due => simp [hd] at h
        | none =>
          simp only [hd] at h
          cases h
          simp only [hrest]
          show w.resumeAfter delay rest k = _
          simp only [World.resumeAfter, hd]
          rfl

/-- How a control word begins. -/
def starter : ControlWord → World → EnvId → Stack → Continuation → World
  | send => startSend
  | word => word.startPlain

/-- **A control word that complains queues its complaint and does nothing else.** -/
theorem starter_of_fault {word : ControlWord} (h : word.fault? w s = some e) (env : EnvId) :
    word.starter w env s k = w.later (.resume k (.error e)) := by
  have plain : word.misfit? w s = none → s.faultFrom word.name 0 word.operands = some e := by
    intro hm
    rwa [fault?, hm, Option.or_none] at h
  cases word with
  | run | vocab => exact withOperands_of_fault (faults_blockOperand s _) (plain rfl) _
  | when => exact withOperands_of_fault (faults_whenOperands s _) (plain rfl) _
  | choose => exact withOperands_of_fault (faults_chooseOperands s _) (plain rfl) _
  | send => exact withOperands_of_fault (faults_sendOperands s _) (plain rfl) _
  | iterate => exact withOperands_of_fault (faults_iterateOperands s w) h _
  | await => exact startAwait_of_fault h
  | after => exact startAfter_of_fault h env
  | yield => cases h
  | receive =>
    cases ho : s.owner with
    | some p => simp [fault?, misfit?, Stack.faultFrom, operands, ho] at h
    | none =>
      have he : Error.noOwningProcess receive.name = e := by
        simpa [fault?, misfit?, Stack.faultFrom, operands, ho] using h
      show w.receive s k = _
      simp only [World.receive, ho, he, World.resumeLater]

end Start

end ControlWord

/-- A control word begins by its own rules, whatever it is called. -/
theorem Primitive.call_of_control {p : Primitive} {word : ControlWord}
    (h : p.behaviour = .control word) : p.call = .async word.starter := by
  simp only [call, callWith, h]
  cases word <;> rfl

/-! ## No trace -/

/-- A synchronous word that fails has done nothing. -/
theorem Primitive.world_of_failure {p : Primitive} {action : EnvId → Stack → Action Stack}
    (h : p.call = .sync action) {env : EnvId} {s : Stack} {w : World} {e : Error}
    (he : ((action env s).run w).1 = .error e) : ((action env s).run w).2 = w := by
  obtain ⟨es, hes, hw⟩ := call_sync h env s w
  rw [he] at hes
  cases hes
  exact hw

/-- **Failed words leave no trace.** A synchronous word that fails, in whatever environment and on
whatever stack, leaves the world as it was. A control word that is given a stack it cannot work on
queues one task, which resumes its caller with the complaint, and leaves all else as it was. -/
theorem failure_without_trace :
    (∀ (p : Primitive) (action : EnvId → Stack → Action Stack), p.call = .sync action →
      ∀ (env : EnvId) (s : Stack) (w : World) (e : Error),
        ((action env s).run w).1 = .error e → ((action env s).run w).2 = w) ∧
      ∀ (p : Primitive) (word : ControlWord), p.behaviour = .control word →
        ∃ start, p.call = .async start ∧
          ∀ (w : World) (env : EnvId) (s : Stack) (k : Continuation), ¬word.Accepts w s →
            ∃ e, word.fault? w s = some e ∧ start w env s k = w.later (.resume k (.error e)) := by
  refine ⟨fun p action h env s w e he => p.world_of_failure h he, fun p word h => ?_⟩
  refine ⟨word.starter, p.call_of_control h, fun w env s k ha => ?_⟩
  obtain ⟨e, he⟩ := Option.ne_none_iff_exists'.1 (mt ControlWord.fault?_eq_none_iff.1 ha)
  exact ⟨e, he, ControlWord.starter_of_fault he env⟩

/-- A program that makes an object with a property, a variable with a value and a process that gets
a message and waits, and that prints a line and comes to a word which nothing binds. -/
def furnishing : Program :=
  [.block () [], .word "vocab", .word "new", .number 2, .word "over", .symbol "size", .word "put",
    .block () [.number 5, .word "after"], .word "go", .symbol "note", .word "over", .word "post",
    .number 1, .symbol "x", .word "dfvar", .word "bind", .number 3, .word "print", .word "oops",
    .word "yield"]

/-- The world after three turns of this program. -/
def furnished : World :=
  let (w, i) := Interpreter.new {} {}
  let (w, code) := w.load furnishing
  (World.takeTurns 3 0 (w.runThen i.env code .empty (.deliver (.slot 0)))).1

/-- `put` finds a key and an object but no value, and `after` finds a number that is no delay. -/
theorem failure_without_trace_furnished :
    (furnished.objects.size = 1 ∧ furnished.scheduler.ready.length = 1 ∧
      furnished.scheduler.timers.length = 1 ∧ (furnished.mailbox ⟨0⟩).queue.length = 1 ∧
      furnished.printed = ["3"] ∧ furnished.reports = ["unresolved word `oops`"]) ∧
    (∃ action, (Primitive.mk 0 "put" (.state .put)).call = .sync action ∧
      ∀ env, (action env ⟨[.symbol "size", .object ⟨0⟩], none⟩).run furnished =
        (.error (.stackUnderflow "put" 3 2), furnished)) ∧
      ∃ start, (Primitive.mk 0 "after" (.control .after)).call = .async start ∧
        ∀ env k, start furnished env ⟨[.number (-5), .object ⟨0⟩], none⟩ k =
          furnished.later
            (.resume k (.error (.invalidArgument "after" (.badDelay (-5))))) := by
  refine ⟨by rw [furnished, Interpreter.new_empty]; decide +kernel, ?_⟩
  generalize furnished = w
  obtain ⟨hsync, hasync⟩ := failure_without_trace
  refine ⟨⟨_, rfl, fun env => Prod.ext rfl (hsync ⟨0, "put", .state .put⟩ _ rfl env _ w
    (.stackUnderflow "put" 3 2) rfl)⟩, ?_⟩
  obtain ⟨start, hcall, hstart⟩ := hasync ⟨0, "after", .control .after⟩ .after rfl
  have hbad : (Float.isFinite (-5) && decide (0 ≤ (-5 : Float))) = false := by decide +kernel
  refine ⟨start, hcall, fun env k => ?_⟩
  have hrefused : ¬ControlWord.after.Accepts w ⟨[.number (-5), .object ⟨0⟩], none⟩ := fun h => by
    have hdelay := (h.delay rfl (-5) rfl).1
    rw [hbad] at hdelay
    cases hdelay
  obtain ⟨e, he, hk⟩ := hstart w env ⟨[.number (-5), .object ⟨0⟩], none⟩ k hrefused
  have hfault : ControlWord.after.fault? w ⟨[.number (-5), .object ⟨0⟩], none⟩ =
      some (.invalidArgument "after" (.badDelay (-5))) := by
    show ControlWord.delayFault? "after" w (-5) = _
    rw [ControlWord.delayFault?, hbad]
    rfl
  rw [hk, Option.some.inj (he.symm.trans hfault)]
end Catena
