import Catena.Proofs.Machine.Likeness
import Catena.Proofs.Machine.Limits

/-!
# Strict and lax resolution

A word that nothing binds is the only thing that strict and lax resolution treat differently. Both
kinds of evaluation are followed from step to step (`Interpreter.point`): as long as no such word
comes up, they are at the same point of the same turn in the same world (`World.step_resolving`). So
if the lax evaluation reports no such word, the strict one is the same evaluation, and otherwise the
two part at the first one that it reports (`strict_or_lax`).
-/

namespace Catena

namespace World

/-- The same world under strict or lax resolution. -/
def resolving (w : World) (strict : Bool) : World := { w with strict := strict }

/-! ## How strict a world is, is seen only by words that nothing binds -/

section Resolving

variable (w : World) (b : Bool)

theorem alike_resolving : w.Alike (w.resolving b) :=
  ⟨rfl, rfl, rfl, rfl, rfl, rfl, fun _ => rfl, fun _ => rfl, fun _ => rfl, fun _ => rfl,
    fun _ => rfl, rfl⟩

theorem view_resolving (x : Value) : (w.resolving b).view x = w.view x := by
  have hd : (w.resolving b).display = w.display := funext (w.alike_resolving b).display
  cases x with
  | process p =>
    unfold view
    rw [hd]
    rfl
  | dataflow v =>
    unfold view
    rw [hd]
    rfl
  | datum d => cases d <;> rfl
  | _ => rfl

theorem viewStack_resolving : (w.resolving b).viewStack = w.viewStack := by
  funext s
  exact List.map_congr_left fun x _ => w.view_resolving b x

theorem instantiate_resolving (env : EnvId) (block : Block) :
    (w.resolving b).instantiate env block =
      ((w.instantiate env block).1.resolving b, (w.instantiate env block).2) := by
  have hc : (w.resolving b).captured? block.id = w.captured? block.id := rfl
  unfold instantiate
  rw [hc]
  split <;> rfl

theorem foldl_resolving {α : Type} {f : World → α → World}
    (hf : ∀ u a, f (u.resolving b) a = (f u a).resolving b) (l : List α) :
    l.foldl f (w.resolving b) = (l.foldl f w).resolving b :=
  List.foldl_hom (fun u : World => u.resolving b) hf

theorem wakeJoiner_resolving (result : Value) (waker : Waker) :
    (w.resolving b).wakeJoiner result waker = (w.wakeJoiner result waker).resolving b := by
  have ha : ∀ epoch, (w.resolving b).isAbandoned epoch = w.isAbandoned epoch := fun _ => rfl
  cases waker with
  | resume epoch s k =>
    simp only [wakeJoiner, ha]
    split <;> rfl
  | report tag =>
    simp only [wakeJoiner, view_resolving]
    rfl

theorem receive_resolving (s : Stack) (k : Continuation) :
    (w.resolving b).receive s k = (w.receive s k).resolving b := by
  have hp : ∀ p, (w.resolving b).process p = w.process p := fun _ => rfl
  have hm : ∀ m, (w.resolving b).mailbox m = w.mailbox m := fun _ => rfl
  have he : (w.resolving b).scheduler = w.scheduler := rfl
  unfold receive
  cases s.owner with
  | none => rfl
  | some p =>
    dsimp only
    rw [hp, hm, he]
    cases (w.mailbox (w.process p).mailbox).take? with
    | some taken => rfl
    | none =>
      cases (w.mailbox (w.process p).mailbox).wait? (.resume w.scheduler.epoch s k) <;> rfl

/-- Effects inside of turns do not depend on how strict the world is. -/
theorem apply_resolving {e : Effect} (h : e.isDeed = true) :
    (w.resolving b).apply e = (w.apply e).resolving b := by
  cases e with
  | snapshot env block => exact congrArg Prod.fst (w.instantiate_resolving b env block)
  | deliver m message =>
    have hm : (w.resolving b).mailbox m = w.mailbox m := rfl
    simp only [apply, deliver, hm]
    obtain ⟨mailbox, receiver⟩ := (w.mailbox m).post message
    cases receiver <;> rfl
  | bind v value =>
    have hd : (w.resolving b).dataflow v = w.dataflow v := rfl
    simp only [apply, bind, hd]
    cases (w.dataflow v).bind? value with
    | none => rfl
    | some bound =>
      refine foldl_resolving (w.modifyVariable v fun _ => bound.1) b ?_ bound.2
      exact fun _ _ => rfl
  | awaitVariable v s k =>
    have hd : (w.resolving b).dataflow v = w.dataflow v := rfl
    simp only [apply, awaitVariable, hd]
    cases (w.dataflow v).value <;> rfl
  | awaitProcess p s k =>
    have hp : (w.resolving b).process p = w.process p := rfl
    simp only [apply, awaitProcess, hp]
    cases (w.process p).result <;> rfl
  | receive s k => exact w.receive_resolving b s k
  | finish p outcome =>
    have hp : (w.resolving b).process p = w.process p := rfl
    simp only [apply, finishProcess, hp]
    generalize (w.process p).complete _ _ = ended
    refine foldl_resolving ((w.count Stats.completed).modifyProcess p fun _ => ended.1) b ?_ ended.2
    exact fun u waker => u.wakeJoiner_resolving b _ waker
  | report | print | define | defineWord | adopt | newObject | setProperty | spawn | newVariable
  | later | schedule | fillSlot | restore | harvest => rfl
  | _ => cases h

theorem offer_resolving (m : MailboxId) (epoch : Nat) (waker : Waker) :
    (w.resolving b).offer m epoch waker =
      ((w.offer m epoch waker).1.resolving b, (w.offer m epoch waker).2) := by
  have hm : (w.resolving b).mailbox m = w.mailbox m := rfl
  unfold offer
  rw [hm]
  cases (w.mailbox m).take? with
  | some taken =>
    obtain ⟨message, rest⟩ := taken
    have ha : ((w.resolving b).setMailbox m rest).isAbandoned epoch =
      (w.setMailbox m rest).isAbandoned epoch := rfl
    dsimp only
    rw [ha]
    cases (w.setMailbox m rest).isAbandoned epoch <;> rfl
  | none => cases (w.mailbox m).wait? waker <;> rfl

/-- A turn begins with the same focus. -/
theorem embark_resolving {task : Task} (h : task.isScript = false) :
    (w.resolving b).embark task = ((w.embark task).1.resolving b, (w.embark task).2) := by
  cases task with
  | resume k outcome => rfl
  | activate captured own block exit s k => cases own <;> rfl
  | start p code s => rfl
  | wakeReceiver m waker =>
    cases waker with
    | resume epoch s k => simp only [embark, offer_resolving]
    | report tag =>
      have hm : (w.resolving b).mailbox m = w.mailbox m := rfl
      simp only [embark, wakeNext, hm]
      cases ht : (w.mailbox m).take? with
      | some taken => rfl
      | none =>
        dsimp only
        cases (w.mailbox m).wait? (.report tag) <;> rfl
  | wakeWaiter waker value => cases waker <;> rfl
  | script commands => cases h

variable {w b}

theorem replay_resolving {es : List Effect} (h : ∀ e ∈ es, e.isDeed = true) :
    (w.resolving b).replay es = (w.replay es).resolving b := by
  induction es generalizing w with
  | nil => rfl
  | cons e es ih =>
    obtain ⟨he, hes⟩ := List.forall_mem_cons.1 h
    rw [replay_cons, replay_cons, w.apply_resolving b he, ih hes]

theorem Together.eq_resolving {w' v' : World} (h : Together w (w.resolving b) w' v') :
    v' = w'.resolving b := by
  cases h with
  | effects h =>
    obtain ⟨es, hes⟩ := h
    exact replay_resolving fun e he => (hes e he).isDeed
  | told tag value =>
    rw [view_resolving]
    rfl
  | resumed tag outcome =>
    rw [viewStack_resolving]
    rfl

/-- **Strict and lax resolution agree on a step**, unless it is at a word that nothing binds. -/
theorem step_resolving {p : World × Focus} (h : ¬p.2.Unresolved p.1) :
    step (p.1.resolving b, p.2) = ((step p).1.resolving b, (step p).2) := by
  obtain ⟨hfocus, hworlds⟩ := together_advance (p.1.alike_resolving b) h
  exact Prod.ext hworlds.eq_resolving hfocus

theorem iterate_step_resolving {p : World × Focus} {n : Nat}
    (h : ∀ j < n, ¬(step^[j] p).2.Unresolved (step^[j] p).1) :
    step^[n] (p.1.resolving b, p.2) = ((step^[n] p).1.resolving b, (step^[n] p).2) := by
  induction n with
  | zero => rfl
  | succ n ih =>
    rw [Function.iterate_succ_apply', Function.iterate_succ_apply',
      ih fun j hj => h j (Nat.lt_succ_of_lt hj), step_resolving (h n (Nat.lt_succ_self n))]

end Resolving

/-- A turn leaves the world as strict as it is. -/
theorem strict_advance (w : World) (f : Focus) : (w.advance f).1.strict = w.strict := by
  by_cases hf : f.Unresolved w
  · obtain ⟨rest, s, k, hl⟩ := hf
    cases hs : w.strict with
    | false => rw [advance_of_lax rest s k hl hs]; exact hs
    | true =>
      rw [advance_of_strict rest s k hl hs]
      cases k <;> exact hs
  · -- In a world that is as strict as it is, the step leaves it so.
    have hstep := step_resolving (b := w.strict) (p := (w, f)) hf
    exact congrArg (fun p => p.1.strict) hstep

/-! ## Reports -/

/-- Something has been reported since `w`, but about no word that nothing binds. -/
def Resolved (w v : World) : Prop :=
  ∃ added, v.reports = added ++ w.reports ∧ ∀ name, unresolvedReport name ∉ added

namespace Resolved

variable {w v u : World}

theorem of_eq (h : v.reports = w.reports) : w.Resolved v := ⟨[], h, fun _ => List.not_mem_nil⟩

theorem refl (w : World) : w.Resolved w := .of_eq rfl

theorem trans (h : w.Resolved v) (h' : v.Resolved u) : w.Resolved u := by
  obtain ⟨added, hv, hn⟩ := h
  obtain ⟨added', hu, hn'⟩ := h'
  refine ⟨added' ++ added, by rw [hu, hv, List.append_assoc], fun name hm => ?_⟩
  exact (List.mem_append.1 hm).elim (hn' name) (hn name)

theorem report {message : String} (h : ∀ name, message ≠ unresolvedReport name) (w : World) :
    w.Resolved (w.report message) :=
  ⟨[message], rfl, fun name hm => h name (List.mem_singleton.1 hm).symm⟩

theorem suffix (h : w.Resolved v) : w.reports <:+ v.reports := by
  obtain ⟨added, hv, -⟩ := h
  exact ⟨added, hv.symm⟩

end Resolved

section Reports

variable {w v : World}

theorem reports_foldl {α : Type} {f : World → α → World} (hf : ∀ u a, (f u a).reports = u.reports)
    (l : List α) (w : World) : (l.foldl f w).reports = w.reports := by
  induction l generalizing w with
  | nil => rfl
  | cons a l ih => exact (ih _).trans (hf w a)

theorem reports_wakeJoiner (w : World) (result : Value) (waker : Waker) :
    (w.wakeJoiner result waker).reports = w.reports := by
  cases waker with
  | resume epoch s k =>
    simp only [wakeJoiner]
    split <;> rfl
  | report tag => rfl

theorem reports_receive (w : World) (s : Stack) (k : Continuation) :
    (w.receive s k).reports = w.reports := by
  unfold receive
  cases s.owner with
  | none => rfl
  | some p =>
    dsimp only
    cases (w.mailbox (w.process p).mailbox).take? with
    | some taken => rfl
    | none =>
      cases (w.mailbox (w.process p).mailbox).wait? (.resume w.scheduler.epoch s k) <;> rfl

/-- The effects of a step that are no reports leave the reports alone. -/
theorem reports_apply {e : Effect} {clock : Nat} (h : e.OfStep clock)
    (hr : ∀ text, e ≠ .report text) (w : World) : (w.apply e).reports = w.reports := by
  cases e with
  | report text => exact absurd rfl (hr text)
  | snapshot env block =>
    simp only [World.apply, instantiate]
    split <;> rfl
  | deliver m message =>
    simp only [World.apply, deliver]
    split <;> rfl
  | bind v value =>
    simp only [World.apply, bind]
    split
    · refine reports_foldl ?_ _ (w.modifyVariable v _)
      exact fun _ _ => rfl
    · rfl
  | awaitVariable v s k =>
    simp only [World.apply, awaitVariable]
    split <;> rfl
  | awaitProcess p s k =>
    simp only [World.apply, awaitProcess]
    split <;> rfl
  | receive s k => exact w.reports_receive s k
  | finish p outcome => exact reports_foldl (fun u waker => u.reports_wakeJoiner _ waker) _ _
  | print | define | defineWord | adopt | newObject | setProperty | spawn | newVariable
  | later | schedule | fillSlot | restore | harvest => rfl
  | _ => cases h

/-- No effect of a step reports a word that nothing binds. -/
theorem Resolved.apply {e : Effect} {clock : Nat} (h : e.OfStep clock) (w : World) :
    w.Resolved (w.apply e) := by
  by_cases hr : ∃ text, e = .report text
  · obtain ⟨text, rfl⟩ := hr
    exact .report h.ne_unresolvedReport w
  · exact .of_eq (reports_apply h (fun text he => hr ⟨text, he⟩) w)

theorem Resolved.together {w' v' : World} (h : Together w v w' v') : w.Resolved w' := by
  cases h with
  | told | resumed => exact .of_eq rfl
  | effects h =>
    obtain ⟨es, hes⟩ := h
    generalize w.scheduler.clock = clock at hes
    induction es generalizing w with
    | nil => exact .refl w
    | cons e es ih =>
      obtain ⟨he, hes⟩ := List.forall_mem_cons.1 hes
      exact (Resolved.apply he w).trans (ih hes)

theorem Resolved.advance {f : Focus} (h : ¬f.Unresolved w) : w.Resolved (w.advance f).1 :=
  .together (together_advance (.refl w) h).2

theorem Resolved.displaced (w : World) (m : MailboxId) :
    w.Resolved (w.report ("mailbox " ++ toString (w.mailbox m).owner
      ++ ": woken receiver displaced by another")) :=
  .report (ne_unresolvedReport (head?_append_of_head? (head?_append_of_head? (by decide) _) _)
    (by decide : 'm' ≠ 'u')) w

theorem Resolved.offer (w : World) (m : MailboxId) (epoch : Nat) (waker : Waker) :
    w.Resolved (w.offer m epoch waker).1 := by
  unfold World.offer
  cases (w.mailbox m).take? with
  | some taken =>
    obtain ⟨message, rest⟩ := taken
    refine .of_eq ?_
    dsimp only
    split <;> rfl
  | none =>
    cases (w.mailbox m).wait? waker with
    | some mailbox => exact .of_eq rfl
    | none => exact .displaced w m

theorem Resolved.embark {task : Task} (h : task.isScript = false) (w : World) :
    w.Resolved (w.embark task).1 := by
  cases task with
  | resume k outcome => exact .refl w
  | activate captured own block exit s k => cases own <;> exact .of_eq rfl
  | start p code s => exact .of_eq rfl
  | wakeReceiver m waker =>
    cases waker with
    | resume epoch s k => exact .offer w m epoch _
    | report tag =>
      rw [World.embark]
      cases ht : (w.mailbox m).take? with
      | some taken => exact .of_eq rfl
      | none =>
        simp only [wakeNext, ht]
        cases (w.mailbox m).wait? (.report tag) with
        | some mailbox => exact .of_eq rfl
        | none => exact .displaced w m
  | wakeWaiter waker value => cases waker <;> exact .refl w
  | script commands => cases h

/-- Reports are never taken back inside a turn. -/
theorem reports_advance (w : World) (f : Focus) : w.reports <:+ (w.advance f).1.reports := by
  by_cases hf : f.Unresolved w
  · obtain ⟨rest, s, k, hl⟩ := hf
    cases hs : w.strict with
    | false =>
      rw [advance_of_lax rest s k hl hs]
      exact List.suffix_cons _ _
    | true =>
      rw [advance_of_strict rest s k hl hs]
      exact (Resolved.together (v := w) (.effects (Alongside.refl.failTo _ k))).suffix
  · exact (Resolved.advance hf).suffix

theorem reports_iterate_step (p : World × Focus) (n : Nat) :
    p.1.reports <:+ (step^[n] p).1.reports := by
  induction n with
  | zero => exact List.suffix_rfl
  | succ n ih =>
    rw [Function.iterate_succ_apply']
    exact ih.trans (reports_advance _ _)

end Reports

/-! ## Turns -/

/-- No step of the machine from here on is at a word that nothing binds. -/
def Clear (p : World × Focus) : Prop := ∀ j, ¬(step^[j] p).2.Unresolved (step^[j] p).1

theorem Clear.done (w : World) : Clear (w, .done) := by
  intro j h
  rw [step_done] at h
  cases h

/-- What the next turn begins with. -/
def opening (w : World) : World × Focus :=
  match w.scheduler.ready with
  | [] => (w, .done)
  | task :: rest => (w.mapScheduler (·.beginTurn rest)).embark task

section Turns

variable {w v : World} {b : Bool}

theorem opening_of_cons {task : Task} {rest : List Task} (h : w.scheduler.ready = task :: rest) :
    w.opening = (w.mapScheduler (·.beginTurn rest)).embark task := by
  rw [opening, h]

theorem opening_of_nil (h : w.scheduler.ready = []) : w.opening = (w, .done) := by
  rw [opening, h]

/-- The machine goes through the next turn. -/
theorem reaches_turn {task : Task} {rest : List Task} (h : w.scheduler.ready = task :: rest) :
    Reaches w.opening ((w.mapScheduler (·.beginTurn rest)).perform task, .done) := by
  rw [opening_of_cons h]
  exact reaches_perform _ task

theorem opening_resolving (hw : w.Scriptless) (b : Bool) :
    (w.resolving b).opening = (w.opening.1.resolving b, w.opening.2) := by
  cases hr : w.scheduler.ready with
  | nil =>
    have hr' : (w.resolving b).scheduler.ready = [] := hr
    rw [opening_of_nil hr, opening_of_nil hr']
  | cons task rest =>
    have hr' : (w.resolving b).scheduler.ready = task :: rest := hr
    rw [opening_of_cons hr, opening_of_cons hr']
    exact embark_resolving (w.mapScheduler (·.beginTurn rest)) b (hw.ready task (by simp [hr]))

/-- Where the machine ends is the same under both kinds of resolution if its way is clear. -/
theorem Reaches.resolving {p : World × Focus} (h : Clear p) {u u' : World}
    (hu : Reaches p (u, .done)) (hu' : Reaches (p.1.resolving b, p.2) (u', .done)) :
    u' = u.resolving b := by
  obtain ⟨n, hn⟩ := hu
  have hstep := iterate_step_resolving (b := b) (n := n) fun j _ => h j
  rw [hn] at hstep
  exact (Prod.mk.inj (hu'.eq_of_done hstep rfl)).1.symm

theorem Resolved.iterate_step {p : World × Focus} {n : Nat}
    (h : ∀ j < n, ¬(step^[j] p).2.Unresolved (step^[j] p).1) : p.1.Resolved (step^[n] p).1 := by
  induction n with
  | zero => exact .refl _
  | succ n ih =>
    rw [Function.iterate_succ_apply']
    exact (ih fun j hj => h j (Nat.lt_succ_of_lt hj)).trans (.advance (h n (Nat.lt_succ_self n)))

theorem Reaches.resolved {p : World × Focus} (h : Clear p) {u : World}
    (hu : Reaches p (u, .done)) : p.1.Resolved u := by
  obtain ⟨n, hn⟩ := hu
  have hend : p.1.Resolved (step^[n] p).1 := .iterate_step fun j _ => h j
  rwa [hn] at hend

theorem turn_resolving {task : Task} {rest : List Task} (hw : w.Scriptless)
    (hr : w.scheduler.ready = task :: rest) (h : Clear w.opening) :
    (w.resolving b).turn task rest = (w.turn task rest).resolving b := by
  have hr' : (w.resolving b).scheduler.ready = task :: rest := hr
  have hlong := reaches_turn hr'
  rw [opening_resolving hw] at hlong
  rw [turn, turn, Reaches.resolving h (reaches_turn hr) hlong]
  rfl

theorem strict_opening (hw : w.Scriptless) : w.opening.1.strict = w.strict :=
  congrArg (fun p : World × Focus => p.1.strict) (opening_resolving hw w.strict)

theorem strict_proceed (hw : w.Scriptless) : w.proceed.strict = w.strict := by
  cases hr : w.scheduler.ready with
  | nil => rw [proceed_of_nil hr]
  | cons task rest =>
    rw [proceed_of_cons hr]
    exact (reaches_turn hr).induct (I := fun u => u.strict = w.strict)
      (fun u f hu => (strict_advance u f).trans hu) (strict_opening hw)

theorem Resolved.opening (hw : w.Scriptless) : w.Resolved w.opening.1 := by
  cases hr : w.scheduler.ready with
  | nil => rw [opening_of_nil hr]; exact .refl w
  | cons task rest =>
    rw [opening_of_cons hr]
    have h := Resolved.embark (hw.ready task (by simp [hr])) (w.mapScheduler (·.beginTurn rest))
    exact h

theorem Resolved.proceed (hw : w.Scriptless) (h : Clear w.opening) : w.Resolved w.proceed := by
  cases hr : w.scheduler.ready with
  | nil => rw [proceed_of_nil hr]; exact .refl w
  | cons task rest =>
    have hend := (Resolved.opening hw).trans (Reaches.resolved h (reaches_turn hr))
    rw [proceed_of_cons hr]
    exact hend.trans (.of_eq rfl)

/-- Every point of the machine's way comes before its end. -/
theorem Reaches.reports {p : World × Focus} {u : World} (h : Reaches p (u, .done)) (n : Nat) :
    (step^[n] p).1.reports <:+ u.reports := by
  obtain ⟨m, hm⟩ := h
  have hlong := reports_iterate_step (step^[n] p) m
  rwa [← Function.iterate_add_apply, Nat.add_comm, Function.iterate_add_apply, hm, step_done]
    at hlong

theorem reports_proceed (n : Nat) : (step^[n] w.opening).1.reports <:+ w.proceed.reports := by
  cases hr : w.scheduler.ready with
  | nil => rw [proceed_of_nil hr, opening_of_nil hr, step_done]
  | cons task rest =>
    rw [proceed_of_cons hr]
    exact (reaches_turn hr).reports n

/-- What every turn keeps, any number of turns keeps. -/
theorem proceed_induct {I : World → Prop} (hstep : ∀ u, I u → I u.proceed) (h : I w) (n : Nat) :
    I (proceed^[n] w) := by
  induction n with
  | zero => exact h
  | succ n ih =>
    rw [Function.iterate_succ_apply']
    exact hstep _ ih

/-- Reports are never taken back, as long as the embedding program does nothing. -/
theorem reports_iterate_proceed (hw : w.Scriptless) (n : Nat) :
    w.reports <:+ (proceed^[n] w).reports := by
  have h := proceed_induct (I := fun u => u.Scriptless ∧ w.reports <:+ u.reports)
    (fun u hu => ⟨hu.1.proceed,
      hu.2.trans ((Resolved.opening hu.1).suffix.trans (reports_proceed 0))⟩)
    ⟨hw, List.suffix_rfl⟩ n
  exact h.2

theorem le_takeTurns (fuel taken : Nat) (w : World) : taken ≤ (takeTurns fuel taken w).2.1 := by
  have h := turned_takeTurns fuel taken w
  generalize takeTurns fuel taken w = result at h
  cases h <;> exact Nat.le_add_right _ _

/-- A turn is taken if there is fuel for it and something is ready before it. -/
theorem lt_takeTurns_iff (fuel taken m : Nat) :
    taken + m < (takeTurns fuel taken w).2.1 ↔
      m < fuel ∧ (proceed^[m] w.tick).scheduler.ready ≠ [] := by
  induction fuel generalizing taken m w with
  | zero =>
    have htaken : (takeTurns 0 taken w).2.1 = taken := by
      cases hr : w.tick.scheduler.ready with
      | nil => rw [takeTurns_of_nil hr]
      | cons task rest => rw [takeTurns_zero hr]
    rw [htaken]
    omega
  | succ fuel ih =>
    cases hr : w.tick.scheduler.ready with
    | nil =>
      rw [takeTurns_of_nil hr, Function.iterate_fixed (proceed_of_nil hr) m, hr]
      simp
    | cons task rest =>
      rw [takeTurns_succ hr]
      cases m with
      | zero =>
        have hle := le_takeTurns fuel (taken + 1) (w.tick.turn task rest)
        simp only [Function.iterate_zero_apply, hr]
        exact ⟨fun _ => ⟨Nat.succ_pos _, nofun⟩, fun _ => by omega⟩
      | succ m =>
        rw [Function.iterate_succ_apply, proceed_of_cons hr, show taken + (m + 1) = taken + 1 + m by
          omega, ih, Nat.succ_lt_succ_iff]

theorem takeTurns_resolving {fuel taken : Nat} (hw : w.Scriptless)
    (h : ∀ m, taken + m < (takeTurns fuel taken w).2.1 →
      Clear (proceed^[m] w.tick).opening) :
    takeTurns fuel taken (w.resolving b) =
      ((takeTurns fuel taken w).1.resolving b, (takeTurns fuel taken w).2) := by
  have hticked : w.tick.Scriptless := hw.tick
  induction fuel generalizing taken w with
  | zero =>
    cases hr : w.tick.scheduler.ready with
    | nil =>
      have hr' : (w.resolving b).tick.scheduler.ready = [] := hr
      rw [takeTurns_of_nil hr, takeTurns_of_nil hr']
      rfl
    | cons task rest =>
      have hr' : (w.resolving b).tick.scheduler.ready = task :: rest := hr
      rw [takeTurns_zero hr, takeTurns_zero hr']
      rfl
  | succ fuel ih =>
    cases hr : w.tick.scheduler.ready with
    | nil =>
      have hr' : (w.resolving b).tick.scheduler.ready = [] := hr
      rw [takeTurns_of_nil hr, takeTurns_of_nil hr']
      rfl
    | cons task rest =>
      have hr' : (w.resolving b).tick.scheduler.ready = task :: rest := hr
      have hfirst : Clear w.tick.opening :=
        h 0 ((lt_takeTurns_iff _ _ _).2 ⟨Nat.succ_pos _, by simp [hr]⟩)
      have hturn : (w.resolving b).tick.turn task rest =
          (w.tick.turn task rest).resolving b := turn_resolving hticked hr hfirst
      rw [takeTurns_succ hr, takeTurns_succ hr', hturn]
      have hnext := hticked.turn hr
      refine ih hnext (fun m hm => ?_) hnext.tick
      have hclear := h (m + 1) (by rw [takeTurns_succ hr]; omega)
      rwa [Function.iterate_succ_apply, proceed_of_cons hr] at hclear

/-- A drain is the same under both kinds of resolution if no turn of it comes to an unbound word. -/
theorem drain_resolving (hw : w.Scriptless) (limit : Option Nat)
    (h : ∀ m < turnsOf (limit.getD turnCeiling) (w.drain limit),
      Clear (proceed^[m] (w.apply .startClock).tick).opening) :
    (w.resolving b).drain limit = ((w.drain limit).1.resolving b, (w.drain limit).2) := by
  cases hd : w.scheduler.dispatching with
  | true =>
    have hd' : (w.resolving b).scheduler.dispatching = true := hd
    rw [drain_of_dispatching hd, drain_of_dispatching hd']
  | false =>
    rw [turnsOf_drain hd] at h
    have hturns : takeTurns (limit.getD turnCeiling) 0 ((w.apply .startClock).resolving b) = _ :=
      takeTurns_resolving (hw.apply (e := .startClock) rfl)
        fun m hm => h m (by rwa [Nat.zero_add] at hm)
    generalize hv : takeTurns (limit.getD turnCeiling) 0 (w.apply .startClock) = result at hturns
    rw [drain_of_takeTurns hd hv]
    exact drain_of_takeTurns hd hturns

end Turns

end World

/-! ## Evaluations -/

namespace Interpreter

/-- The same interpreter under strict or lax resolution. -/
def resolving (i : Interpreter) (strict : Bool) : Interpreter :=
  { i with settings := { i.settings with strictWords := strict } }

/-- What a turn of an evaluation begins with; the first run of the program counts as turn zero. -/
def opening (i : Interpreter) (program : Program) (stack : Stack) (w : World) : Nat → World × Focus
  | 0 => (w.launch i.settings.strictWords program,
      .run i.env (w.load program).2 stack (some (.deliver (.slot w.slots.size))))
  | n + 1 => (i.after n program stack w).opening

/-- Where an evaluation is after `j` steps of turn `n`. -/
def point (i : Interpreter) (program : Program) (stack : Stack) (w : World) (n j : Nat) :
    World × Focus :=
  World.step^[j] (i.opening program stack w n)

end Interpreter

section Evaluation

open Interpreter

variable {i : Interpreter} {program : Program} {stack : Stack} {w : World}

theorem reaches_launched (i : Interpreter) (program : Program) (stack : Stack) (w : World) :
    World.Reaches (i.opening program stack w 0) (i.launched program stack w, .done) :=
  World.reaches_runThen _ _ _ _ _

theorem after_eq (i : Interpreter) (n : Nat) (program : Program) (stack : Stack) (w : World) :
    i.after n program stack w =
      World.proceed^[n] (i.begin program stack w).tick := World.takeTurns_fst n 0 _

theorem after_succ (i : Interpreter) (n : Nat) (program : Program) (stack : Stack) (w : World) :
    i.after (n + 1) program stack w = (i.after n program stack w).proceed := by
  rw [after_eq, after_eq, Function.iterate_succ_apply']

theorem scriptless_launched (i : Interpreter) (program : Program) (stack : Stack)
    (hw : w.Scriptless) : (i.launched program stack w).Scriptless := by
  have hstart : (i.opening program stack w 0).1.Scriptless :=
    hw.apply (e := .launch i.settings.strictWords program) rfl
  exact hstart.reaches (reaches_launched i program stack w)

theorem scriptless_after (i : Interpreter) (n : Nat) (program : Program) (stack : Stack)
    (hw : w.Scriptless) : (i.after n program stack w).Scriptless := by
  have hbegin := scriptless_launched i program stack hw
  rw [after_eq]
  exact World.proceed_induct (fun _ hu => hu.proceed)
    (hbegin.apply (e := .startClock) rfl).tick n

theorem reports_after (hw : w.Scriptless) {n m : Nat} (h : n ≤ m) :
    (i.after n program stack w).reports <:+ (i.after m program stack w).reports := by
  have hrest := World.reports_iterate_proceed (scriptless_after i n program stack hw) (m - n)
  have hend : World.proceed^[m - n] (i.after n program stack w) = i.after m program stack w := by
    rw [after_eq, after_eq, ← Function.iterate_add_apply, Nat.sub_add_cancel h]
  rwa [hend] at hrest

theorem reports_evaluate (i : Interpreter) (program : Program) (stack : Stack) (w : World) :
    (i.evaluate program stack w).1.reports = (i.drains program stack w).1.reports := by
  generalize hu : i.drains program stack w = result
  unfold drains launched at hu
  rw [i.evaluate_eq, hu]
  obtain ⟨v, answer⟩ := result
  cases answer with
  | error e => rfl
  | ok taken =>
    dsimp only
    cases v.outcome? w.slots.size <;> rfl

theorem fst_drain (v : World) (hd : v.scheduler.dispatching = false) (limit : Option Nat) :
    (v.drain limit).1 =
      (World.takeTurns (limit.getD World.turnCeiling) 0 (v.apply .startClock)).1 := by
  generalize hv : World.takeTurns (limit.getD World.turnCeiling) 0 (v.apply .startClock) = result
  obtain ⟨u, taken, idle⟩ := result
  rw [World.drain_of_takeTurns hd hv]

/-- A turn is taken if none is being taken already, the limit allows it and something is ready. -/
theorem lt_turns_iff {m : Nat} :
    m < i.turns program stack w ↔ (i.launched program stack w).scheduler.dispatching = false ∧
      m < i.bound ∧ (i.after m program stack w).scheduler.ready ≠ [] := by
  cases hd : (i.launched program stack w).scheduler.dispatching with
  | true =>
    have hdrains : i.drains program stack w = (i.launched program stack w, .ok 0) :=
      World.drain_of_dispatching hd _
    rw [turns, hdrains]
    exact ⟨fun h => absurd h (Nat.not_lt_zero _), fun h => by cases h.1⟩
  | false =>
    have hcount : i.turns program stack w =
        (World.takeTurns i.bound 0 (i.begin program stack w)).2.1 :=
      World.turnsOf_drain hd i.settings.maxTurns
    have hlt := World.lt_takeTurns_iff (w := i.begin program stack w) i.bound 0 m
    rw [Nat.zero_add, ← hcount, ← after_eq] at hlt
    rw [hlt, and_iff_right rfl]

/-- Whatever is reported before the last turn is over, is there when the evaluation is over. -/
theorem reports_point (hw : w.Scriptless) {n : Nat} (hn : n ≤ i.turns program stack w) (j : Nat) :
    (i.point program stack w n j).1.reports <:+ (i.evaluate program stack w).1.reports := by
  have hstart : (i.launched program stack w).reports = (i.after 0 program stack w).reports := by
    rw [after_eq]
    rfl
  have hend : (i.launched program stack w).scheduler.dispatching = false →
      (i.drains program stack w).1 = i.after i.bound program stack w :=
    fun hd => fst_drain _ hd i.settings.maxTurns
  rw [reports_evaluate]
  cases n with
  | zero =>
    refine ((reaches_launched i program stack w).reports j).trans ?_
    cases hd : (i.launched program stack w).scheduler.dispatching with
    | true =>
      rw [show i.drains program stack w = (i.launched program stack w, .ok 0) from
        World.drain_of_dispatching hd _]
    | false =>
      rw [hend hd, hstart]
      exact reports_after hw (Nat.zero_le _)
  | succ n =>
    obtain ⟨hd, hlt, -⟩ := lt_turns_iff.1 hn
    rw [hend hd]
    refine List.IsSuffix.trans ?_ (reports_after hw hlt)
    rw [after_succ]
    exact World.reports_proceed j

/-! ## As long as no unbound word comes up -/

theorem launched_resolving
    (h : World.Clear ((i.resolving false).opening program stack w 0)) :
    (i.resolving true).launched program stack w =
      ((i.resolving false).launched program stack w).resolving true :=
  World.Reaches.resolving h (reaches_launched (i.resolving false) program stack w)
    (reaches_launched (i.resolving true) program stack w)

theorem after_resolving (hw : w.Scriptless) {n : Nat}
    (h : ∀ m ≤ n, World.Clear ((i.resolving false).opening program stack w m)) :
    (i.resolving true).after n program stack w =
      ((i.resolving false).after n program stack w).resolving true := by
  have hbegin : (i.resolving true).begin program stack w =
      ((i.resolving false).begin program stack w).resolving true :=
    congrArg (World.apply · .startClock) (launched_resolving (h 0 (Nat.zero_le n)))
  have hscript : ((i.resolving false).begin program stack w).Scriptless :=
    (scriptless_launched _ program stack hw).apply (e := .startClock) rfl
  rw [Interpreter.after, hbegin, World.takeTurns_resolving hscript]
  · rfl
  · intro m hm
    rw [World.lt_takeTurns_iff] at hm
    have hclear := h (m + 1) hm.1
    rwa [Interpreter.opening, after_eq] at hclear

theorem opening_resolving (hw : w.Scriptless) {n : Nat}
    (h : ∀ m < n, World.Clear ((i.resolving false).opening program stack w m)) :
    (i.resolving true).opening program stack w n =
      (((i.resolving false).opening program stack w n).1.resolving true,
        ((i.resolving false).opening program stack w n).2) := by
  cases n with
  | zero => rfl
  | succ n =>
    rw [Interpreter.opening, after_resolving hw fun m hm => h m (Nat.lt_succ_of_le hm)]
    exact World.opening_resolving (scriptless_after _ n program stack hw) true

theorem resolved_launched (h : World.Clear (i.opening program stack w 0)) :
    w.Resolved (i.launched program stack w) :=
  World.Reaches.resolved h (reaches_launched i program stack w)

theorem resolved_after (hw : w.Scriptless) {n : Nat}
    (h : ∀ m ≤ n, World.Clear (i.opening program stack w m)) :
    w.Resolved (i.after n program stack w) := by
  induction n with
  | zero =>
    rw [after_eq]
    exact (resolved_launched (h 0 le_rfl)).trans (.of_eq rfl)
  | succ n ih =>
    rw [after_succ]
    exact (ih fun m hm => h m (Nat.le_succ_of_le hm)).trans
      (.proceed (scriptless_after i n program stack hw) (h (n + 1) le_rfl))

theorem resolved_opening (hw : w.Scriptless) {n : Nat}
    (h : ∀ m < n, World.Clear (i.opening program stack w m)) :
    w.Resolved (i.opening program stack w n).1 := by
  cases n with
  | zero => exact .of_eq rfl
  | succ n =>
    exact (resolved_after hw fun m hm => h m (Nat.lt_succ_of_le hm)).trans
      (.opening (scriptless_after i n program stack hw))

/-- If no turn of an evaluation comes to a word that nothing binds, none is reported. -/
theorem resolved_evaluate (hw : w.Scriptless)
    (h : ∀ n ≤ i.turns program stack w, World.Clear (i.opening program stack w n)) :
    w.Resolved (i.evaluate program stack w).1 := by
  have hdrains : w.Resolved (i.drains program stack w).1 := by
    cases hd : (i.launched program stack w).scheduler.dispatching with
    | true =>
      rw [show i.drains program stack w = (i.launched program stack w, .ok 0) from
        World.drain_of_dispatching hd _]
      exact resolved_launched (h 0 (Nat.zero_le _))
    | false =>
      rw [show (i.drains program stack w).1 = i.after i.bound program stack w from
        fst_drain _ hd i.settings.maxTurns]
      refine resolved_after hw fun m hm => ?_
      cases m with
      | zero => exact h 0 (Nat.zero_le _)
      | succ m =>
        by_cases hlt : m < i.turns program stack w
        · exact h (m + 1) hlt
        · -- After the last turn nothing is ready any more.
          have hr : (i.after m program stack w).scheduler.ready = [] := by
            by_contra hr
            exact hlt (lt_turns_iff.2 ⟨hd, hm, hr⟩)
          rw [Interpreter.opening, World.opening_of_nil hr]
          exact .done _
  exact hdrains.trans (.of_eq (reports_evaluate i program stack w))

theorem drains_resolving (hw : w.Scriptless)
    (h : ∀ n ≤ (i.resolving false).turns program stack w,
      World.Clear ((i.resolving false).opening program stack w n)) :
    (i.resolving true).drains program stack w =
      (((i.resolving false).drains program stack w).1.resolving true,
        ((i.resolving false).drains program stack w).2) := by
  have hdrain := World.drain_resolving (b := true)
    (scriptless_launched (i.resolving false) program stack hw) i.settings.maxTurns fun m hm => by
      have hclear := h (m + 1) hm
      rwa [Interpreter.opening, after_eq] at hclear
  rw [← launched_resolving (h 0 (Nat.zero_le _))] at hdrain
  exact hdrain

theorem evaluate_resolving
    (h : (i.resolving true).drains program stack w =
      (((i.resolving false).drains program stack w).1.resolving true,
        ((i.resolving false).drains program stack w).2)) :
    (i.resolving true).evaluate program stack w =
      (((i.resolving false).evaluate program stack w).1.resolving true,
        ((i.resolving false).evaluate program stack w).2) := by
  generalize hv : (i.resolving false).drains program stack w = result at h
  obtain ⟨v, answer⟩ := result
  unfold Interpreter.drains Interpreter.launched at h hv
  rw [(i.resolving true).evaluate_eq, (i.resolving false).evaluate_eq, h, hv]
  cases answer with
  | error e => rfl
  | ok taken =>
    have ho : (v.resolving true).outcome? w.slots.size = v.outcome? w.slots.size := rfl
    dsimp only
    rw [ho]
    cases v.outcome? w.slots.size <;> rfl

/-- A way that is not clear comes to a first word that nothing binds. -/
theorem exists_unresolved {p : World × Focus} (h : ¬World.Clear p) :
    ∃ j, (World.step^[j] p).2.Unresolved (World.step^[j] p).1 ∧
      ∀ l < j, ¬(World.step^[l] p).2.Unresolved (World.step^[l] p).1 := by
  classical
  have hex : ∃ j, (World.step^[j] p).2.Unresolved (World.step^[j] p).1 := by
    by_contra hn
    exact h fun j hj => hn ⟨j, hj⟩
  exact ⟨Nat.find hex, Nat.find_spec hex, fun l hl => Nat.find_min hex hl⟩

end Evaluation

/-- Strict and lax evaluation part at step `j` of turn `n`, where the world is `u` and `name` is not
bound: both take this turn, and up to this point they agree on every step. -/
structure Parting (i : Interpreter) (program : Program) (stack : Stack) (w : World) (n j : Nat)
    (u : World) (name : Name) : Prop where
  taken : ∀ strict, n ≤ (i.resolving strict).turns program stack w
  agree : ∀ m l, m < n ∨ m = n ∧ l ≤ j → (i.resolving true).point program stack w m l =
    (((i.resolving false).point program stack w m l).1.resolving true,
      ((i.resolving false).point program stack w m l).2)
  /-- Lax evaluation goes on with `nil`, and strict evaluation fails the body that is running. -/
  part : ∃ (env : EnvId) (rest : Code) (s : Stack) (k : Option Continuation),
    u.lookup env name = none ∧
    (i.resolving false).point program stack w n j = (u, .run env (.word name :: rest) s k) ∧
    (i.resolving false).point program stack w n (j + 1) =
      (u.report (unresolvedReport name), .run env rest (s.push .nil) k) ∧
    (i.resolving true).point program stack w n (j + 1) =
      ((u.resolving true).failTo (.unresolvedWord name) k, .done)

section Parting

open Interpreter

variable {i : Interpreter} {program : Program} {stack : Stack} {w : World}

/-- Evaluation is as strict as its interpreter. -/
theorem strict_point (i : Interpreter) (program : Program) (stack : Stack) (hw : w.Scriptless)
    (n j : Nat) : (i.point program stack w n j).1.strict = i.settings.strictWords := by
  have hreach : ∀ {p q : World × Focus}, World.Reaches p q →
      p.1.strict = i.settings.strictWords → q.1.strict = i.settings.strictWords :=
    fun hr => hr.induct fun u f hu => (u.strict_advance f).trans hu
  have hafter : ∀ n, (i.after n program stack w).strict = i.settings.strictWords := by
    intro n
    induction n with
    | zero =>
      rw [after_eq]
      exact hreach (reaches_launched i program stack w) rfl
    | succ n ih =>
      rw [after_succ, World.strict_proceed (scriptless_after i n program stack hw), ih]
  refine hreach ⟨j, rfl⟩ ?_
  cases n with
  | zero => rfl
  | succ n =>
    show (i.after n program stack w).opening.1.strict = _
    rw [World.strict_opening (scriptless_after i n program stack hw), hafter n]

/-- If not every turn is clear, there is a first one that is not. -/
theorem exists_unclear
    (h : ¬∀ n ≤ i.turns program stack w, World.Clear (i.opening program stack w n)) :
    ∃ n ≤ i.turns program stack w, ¬World.Clear (i.opening program stack w n) ∧
      ∀ m < n, World.Clear (i.opening program stack w m) := by
  classical
  have hex : ∃ n, n ≤ i.turns program stack w ∧ ¬World.Clear (i.opening program stack w n) := by
    simpa using h
  obtain ⟨hn, hnot⟩ := Nat.find_spec hex
  refine ⟨Nat.find hex, hn, hnot, fun m hm => ?_⟩
  by_contra hc
  exact Nat.find_min hex hm ⟨hm.le.trans hn, hc⟩

section First

variable {n : Nat} (hmin : ∀ m < n, World.Clear ((i.resolving false).opening program stack w m))

include hmin

/-- Both evaluations take the turn that is the first not to be clear. -/
theorem le_turns_resolving (hw : w.Scriptless)
    (hn : n ≤ (i.resolving false).turns program stack w) :
    n ≤ (i.resolving true).turns program stack w := by
  cases n with
  | zero => exact Nat.zero_le _
  | succ n =>
    rw [Nat.succ_le_iff, lt_turns_iff] at hn ⊢
    rw [launched_resolving (hmin 0 (Nat.succ_pos n)),
      after_resolving hw fun m hm => hmin m (Nat.lt_succ_of_le hm)]
    exact hn

/-- Up to the first word that nothing binds they agree on every step. -/
theorem point_resolving (hw : w.Scriptless) {j : Nat}
    (hfirst : ∀ l < j, ¬(World.step^[l] ((i.resolving false).opening program stack w n)).2.Unresolved
      (World.step^[l] ((i.resolving false).opening program stack w n)).1) {m l : Nat}
    (hml : m < n ∨ m = n ∧ l ≤ j) :
    (i.resolving true).point program stack w m l =
      (((i.resolving false).point program stack w m l).1.resolving true,
        ((i.resolving false).point program stack w m l).2) := by
  rcases hml with hm | ⟨rfl, hl⟩
  · rw [point, opening_resolving hw fun m' hm' => hmin m' (hm'.trans hm)]
    exact World.iterate_step_resolving fun j' _ => hmin m hm j'
  · rw [point, opening_resolving hw hmin]
    exact World.iterate_step_resolving fun j' hj' => hfirst j' (hj'.trans_le hl)

end First

/-- If lax evaluation comes to a word that nothing binds, strict evaluation parts from it at the
first one, and everything that is reported before is about something else. -/
theorem exists_parting (hw : w.Scriptless)
    (h : ¬∀ n ≤ (i.resolving false).turns program stack w,
      World.Clear ((i.resolving false).opening program stack w n)) :
    ∃ n j u name, Parting i program stack w n j u name ∧ w.Resolved u ∧
      (u.report (unresolvedReport name)).reports <:+
        ((i.resolving false).evaluate program stack w).1.reports := by
  obtain ⟨n, hn, hnot, hmin⟩ := exists_unclear h
  obtain ⟨j, hj, hfirst⟩ := exists_unresolved hnot
  have hlax := strict_point (i.resolving false) program stack hw n j
  have hreports := reports_point hw hn (j + 1)
  have hresolved : w.Resolved ((i.resolving false).point program stack w n j).1 :=
    (resolved_opening hw hmin).trans (World.Resolved.iterate_step hfirst)
  have hnext : ∀ b, (i.resolving b).point program stack w n (j + 1) =
      World.step ((i.resolving b).point program stack w n j) :=
    fun b => Function.iterate_succ_apply' _ _ _
  have hstep := hnext true
  rw [point_resolving hmin hw hfirst (.inr ⟨rfl, le_rfl⟩)] at hstep
  have hgo := hnext false
  change Focus.Unresolved ((i.resolving false).point program stack w n j).1
    ((i.resolving false).point program stack w n j).2 at hj
  have hagree : ∀ m l, m < n ∨ m = n ∧ l ≤ j → (i.resolving true).point program stack w m l = _ :=
    fun m l => point_resolving hmin hw hfirst
  generalize hp : (i.resolving false).point program stack w n j = p at *
  obtain ⟨u, f⟩ := p
  obtain ⟨rest, s, k, hl⟩ := hj
  rename_i env name
  have hgo : (i.resolving false).point program stack w n (j + 1) =
      (u.report (unresolvedReport name), .run env rest (s.push .nil) k) :=
    hgo.trans (World.advance_of_lax rest s k hl hlax)
  have hfail : (i.resolving true).point program stack w n (j + 1) =
      ((u.resolving true).failTo (.unresolvedWord name) k, .done) :=
    hstep.trans (World.advance_of_strict (w := u.resolving true) rest s k hl rfl)
  rw [hgo] at hreports
  refine ⟨n, j, u, name, ⟨?_, hagree, env, rest, s, k, hl, hp, hgo, hfail⟩, hresolved, hreports⟩
  intro strict
  cases strict with
  | false => exact hn
  | true => exact le_turns_resolving hmin hw hn

end Parting

/-- **Strict and lax evaluation agree wherever both apply.** Let `added` be what the lax evaluation
reports, the latest first. If no report is about a word that nothing binds, the strict evaluation is
the same: it has the same outcome and takes as many turns, and everything in its world is the same.
If there is such a report, the two agree step by step until the first one; there the lax evaluation
goes on with `nil`, and the strict one fails the body that is running. -/
theorem strict_or_lax (i : Interpreter) (program : Program) (stack : Stack) {w : World}
    (hw : w.Scriptless) :
    ∃ added, ((i.resolving false).evaluate program stack w).1.reports = added ++ w.reports ∧
      ((∀ name, unresolvedReport name ∉ added) →
        (i.resolving true).evaluate program stack w =
            (((i.resolving false).evaluate program stack w).1.resolving true,
              ((i.resolving false).evaluate program stack w).2) ∧
          (i.resolving true).turns program stack w = (i.resolving false).turns program stack w) ∧
      ((∃ name, unresolvedReport name ∈ added) →
        ∃ n j u name later before, Parting i program stack w n j u name ∧
          added = later ++ unresolvedReport name :: before ∧ u.reports = before ++ w.reports ∧
          ∀ other, unresolvedReport other ∉ before) := by
  obtain ⟨added, hadded⟩ : w.reports <:+ ((i.resolving false).evaluate program stack w).1.reports :=
    reports_point hw (Nat.zero_le _) 0
  -- Where the two part, what is reported before is what is below the report of the unbound word.
  have hsplit : ∀ {u : World} {name : Name} {before later : List String},
      u.reports = before ++ w.reports →
      later ++ (u.report (unresolvedReport name)).reports =
        ((i.resolving false).evaluate program stack w).1.reports →
      added = later ++ unresolvedReport name :: before := by
    intro u name before later hu hlater
    have hend : added ++ w.reports = (later ++ unresolvedReport name :: before) ++ w.reports := by
      rw [hadded, ← hlater, List.append_assoc]
      exact congrArg (fun reports => later ++ unresolvedReport name :: reports) hu
    exact List.append_cancel_right hend
  refine ⟨added, hadded.symm, fun hnone => ?_, fun ⟨name, hname⟩ => ?_⟩
  · have hclear : ∀ n ≤ (i.resolving false).turns program stack w,
        World.Clear ((i.resolving false).opening program stack w n) := by
      by_contra hc
      obtain ⟨n, j, u, name, -, ⟨before, hu, -⟩, later, hlater⟩ := exists_parting hw hc
      exact hnone name (by simp [hsplit hu hlater])
    have hdrains := drains_resolving hw hclear
    refine ⟨evaluate_resolving hdrains, ?_⟩
    rw [Interpreter.turns, Interpreter.turns, hdrains]
    obtain ⟨v, answer⟩ := (i.resolving false).drains program stack w
    cases answer <;> rfl
  · have hc : ¬∀ n ≤ (i.resolving false).turns program stack w,
        World.Clear ((i.resolving false).opening program stack w n) := by
      intro hclear
      obtain ⟨others, hothers, hnone⟩ := resolved_evaluate hw hclear
      have heq : added = others := List.append_cancel_right (hadded.trans hothers)
      exact hnone name (heq ▸ hname)
    obtain ⟨n, j, u, first, hparting, ⟨before, hu, hnone⟩, later, hlater⟩ := exists_parting hw hc
    exact ⟨n, j, u, first, later, before, hparting, hsplit hu hlater, hu, hnone⟩

/-- A program in which nothing is unbound runs alike, and `lost yield` is parted at `lost`: the lax
evaluation ends with `nil` on the stack, and the strict one with a failure. -/
theorem strict_or_lax_lost :
    ∃ (w : World) (i : Interpreter), w.Scriptless ∧
      (i.resolving true).evaluate [.word "yield"] .empty w =
        (((i.resolving false).evaluate [.word "yield"] .empty w).1.resolving true, .ok .empty) ∧
      ((i.resolving false).evaluate [.word "lost", .word "yield"] .empty w).2 =
        .ok (Stack.empty.push .nil) ∧
      ((i.resolving true).evaluate [.word "lost", .word "yield"] .empty w).2 =
        .error (.unresolvedWord "lost") ∧
      ∃ n j u name, Parting i [.word "lost", .word "yield"] .empty w n j u name := by
  have hw : World.fresh.Scriptless := ⟨fun _ h => (nomatch h), fun _ h => (nomatch h)⟩
  have hplain : (((Interpreter.mk ⟨0⟩ {}).resolving false).evaluate [.word "yield"] .empty
      World.fresh).1.reports = [] := by decide +kernel
  have hlost : (((Interpreter.mk ⟨0⟩ {}).resolving false).evaluate
      [.word "lost", .word "yield"] .empty World.fresh).1.reports =
        [unresolvedReport "lost"] := by decide +kernel
  have hok : (((Interpreter.mk ⟨0⟩ {}).resolving false).evaluate [.word "yield"] .empty
      World.fresh).2 = .ok .empty := by cbv
  have hlax : (((Interpreter.mk ⟨0⟩ {}).resolving false).evaluate
      [.word "lost", .word "yield"] .empty World.fresh).2 =
        .ok (Stack.empty.push .nil) := by cbv
  have hstrict : (((Interpreter.mk ⟨0⟩ {}).resolving true).evaluate
      [.word "lost", .word "yield"] .empty World.fresh).2 =
        .error (.unresolvedWord "lost") := by cbv
  refine ⟨World.fresh, ⟨⟨0⟩, {}⟩, hw, ?_, hlax, hstrict, ?_⟩
  · obtain ⟨added, hadded, hsame, -⟩ :=
      strict_or_lax ⟨⟨0⟩, {}⟩ [.word "yield"] .empty hw
    rw [hplain] at hadded
    have hnone : added = [] := (List.append_eq_nil_iff.1 hadded.symm).1
    rw [(hsame (by simp [hnone])).1, hok]
  · obtain ⟨added, hadded, -, hpart⟩ :=
      strict_or_lax ⟨⟨0⟩, {}⟩ [.word "lost", .word "yield"] .empty hw
    have hstart : World.fresh.reports = [] := by decide +kernel
    rw [hlost, hstart, List.append_nil] at hadded
    obtain ⟨n, j, u, name, -, -, hparting, -⟩ := hpart ⟨"lost", by simp [← hadded]⟩
    exact ⟨n, j, u, name, hparting⟩

end Catena
