import Catena.Proofs.Machine.Resolution
import Catena.Proofs.Machine.Sparing

/-!
# Giving up an epoch

Giving up an epoch is selective and loses nothing. It is selective because those who wait in other
epochs are called as if nobody else had ever waited with them: leaving out those who wait for a
variable or a process since an epoch that has been given up (`World.spare`) makes no difference to
what any turn begins with. It loses nothing because a message that is taken off for a receiver of
such an epoch comes back to where it was.

What happens to those who wait is a sequence of requests, turns among them (`Request`). The two
worlds go through the same requests, except that the one without them does not take the turns in
which someone is passed over, and does not settle while the other has such turns to take
(`abandoning_spares`).
-/

namespace Catena

/-! ## Requests -/

/-- What can happen to those who wait, and the turns. -/
inductive Request where
  | bind (x : VariableId) (value : Value)
  | post (m : MailboxId) (message : Value)
  | complete (p : ProcessId) (outcome : Outcome)
  | awaitVariable (x : VariableId) (s : Stack) (k : Continuation)
  | awaitProcess (p : ProcessId) (s : Stack) (k : Continuation)
  | receive (s : Stack) (k : Continuation)
  | beginEpoch
  | abandon (epoch : Nat)
  /-- The time before a turn goes by. -/
  | elapse
  /-- Timers that are due become ready. If nothing is ready then, time passes until something is. -/
  | settle
  /-- The turn of the next task that is ready. -/
  | turn

/-- Whether a request is one to the scheduler to go on. -/
def Request.isGoing : Request → Bool
  | .settle | .turn => true
  | _ => false

/-- The epoch since which someone has waited who is called in the turn of a task. -/
def Task.since? : Task → Option Nat
  | .wakeWaiter (.resume epoch _ _) _ | .wakeReceiver _ (.resume epoch _ _) => some epoch
  | _ => none

theorem Task.IsGone.exists_since? {gone : Nat → Prop} {task : Task} (h : task.IsGone gone) :
    ∃ epoch, task.since? = some epoch ∧ gone epoch := by
  cases task with
  | wakeWaiter waker value =>
    cases waker with
    | resume epoch s k => exact ⟨epoch, rfl, h⟩
    | report tag => cases h
  | _ => cases h

/-- What a turn begins with: a continuation to resume, say, with its outcome. If it has waited for
a variable or a message until now, then since that epoch. -/
structure Undertaking where
  since : Option Nat
  focus : Focus

namespace World

/-- Does what is requested. -/
def grant (w : World) : Request → World
  | .bind x value => w.bind x value
  | .post m message => w.deliver m message
  | .complete p outcome => w.finishProcess p outcome
  | .awaitVariable x s k => w.awaitVariable x s k
  | .awaitProcess p s k => w.awaitProcess p s k
  | .receive s k => w.receive s k
  | .beginEpoch => w.mapScheduler Scheduler.beginEpoch
  | .abandon epoch => w.mapScheduler (·.abandon epoch)
  | .elapse => w.mapScheduler Scheduler.elapse
  | .settle => w.mapScheduler Scheduler.settle
  | .turn =>
    match w.scheduler.ready with
    | [] => w
    | task :: rest => w.turn task rest

/-- Does what is requested, one thing after the other. -/
def grantAll (w : World) (rs : List Request) : World := rs.foldl grant w

/-- What is begun on a request: if it is a turn, what this begins with, unless that is nothing. -/
def undertakes (w : World) : Request → List Undertaking
  | .turn =>
    match w.opening.2 with
    | .done => []
    | focus => [⟨w.scheduler.ready.head?.bind Task.since?, focus⟩]
  | _ => []

/-- What is begun on a sequence of requests. -/
def undertakings (w : World) : List Request → List Undertaking
  | [] => []
  | r :: rs => w.undertakes r ++ (w.grant r).undertakings rs

@[simp] theorem grantAll_nil (w : World) : w.grantAll [] = w := rfl

@[simp] theorem grantAll_cons (w : World) (r : Request) (rs : List Request) :
    w.grantAll (r :: rs) = (w.grant r).grantAll rs := rfl

theorem grantAll_append (w : World) (rs rs' : List Request) :
    w.grantAll (rs ++ rs') = (w.grantAll rs).grantAll rs' := List.foldl_append

theorem undertakings_append (w : World) (rs rs' : List Request) :
    w.undertakings (rs ++ rs') = w.undertakings rs ++ (w.grantAll rs).undertakings rs' := by
  induction rs generalizing w with
  | nil => rfl
  | cons r rs ih => rw [List.cons_append, undertakings, ih, undertakings, grantAll_cons,
      List.append_assoc]

variable {gone : Nat → Prop} {w v : World}

theorem grant_turn_of_nil (h : w.scheduler.ready = []) : w.grant .turn = w := by
  rw [grant, h]

theorem grant_turn_of_cons {task : Task} {rest : List Task}
    (h : w.scheduler.ready = task :: rest) : w.grant .turn = w.turn task rest := by
  rw [grant, h]

/-- Tasks that are run one after the other are such a sequence of requests. -/
theorem Executes.eq_grantAll {tasks : List Task} (h : w.Executes tasks v) :
    v = w.grantAll (.elapse :: .settle ::
      (List.replicate tasks.length [Request.turn, .elapse, .settle]).flatten) := by
  induction h with
  | nothing w => rfl
  | @turn w v task rest tasks hr h ih =>
    have hturn : w.tick.grant .turn = w.tick.turn task rest := grant_turn_of_cons hr
    rw [ih, List.length_cons, List.replicate_succ, List.flatten_cons, ← hturn]
    rfl

/-- Taking turns is such a sequence of requests. -/
theorem takeTurns_eq_grantAll (n : Nat) (w : World) :
    (takeTurns n 0 w).1 = w.grantAll (.elapse :: .settle ::
      (List.replicate (takeTurns n 0 w).2.1 [Request.turn, .elapse, .settle]).flatten) := by
  have h := turned_takeTurns n 0 w
  generalize takeTurns n 0 w = result at h ⊢
  cases h with
  | idle h | cut h =>
    rw [Nat.zero_add]
    exact h.eq_grantAll

theorem undertakes_of_nil (h : w.scheduler.ready = []) : w.undertakes .turn = [] := by
  rw [undertakes, opening_of_nil h]

theorem undertakes_of_done (h : w.opening.2 = .done) : w.undertakes .turn = [] := by
  rw [undertakes, h]

/-- Nothing is begun for one whose epoch has been given up. -/
theorem focus_embark_of_since? {task : Task} {epoch : Nat} (h : task.since? = some epoch)
    (ha : w.isAbandoned epoch = true) : (w.embark task).2 = .done := by
  cases task with
  | wakeWaiter waker value =>
    cases waker with
    | report tag => cases h
    | resume epoch' s k =>
      cases h
      simp only [embark, ha, if_true]
  | wakeReceiver m waker =>
    cases waker with
    | report tag => cases h
    | resume epoch' s k =>
      cases h
      cases hm : (w.offer m epoch (.resume epoch s k)).2 with
      | none => simp only [embark, hm]
      | some message =>
        have hlive := (take?_of_offer hm).2
        rw [ha] at hlive
        cases hlive
  | _ => cases h

/-- Whoever is called in a turn waited in an epoch that has not been given up. -/
theorem isAbandoned_of_undertakes {r : Request} {u : Undertaking} (h : u ∈ w.undertakes r)
    {epoch : Nat} (hs : u.since = some epoch) : w.isAbandoned epoch = false := by
  cases r with
  | turn =>
    cases hr : w.scheduler.ready with
    | nil =>
      rw [undertakes_of_done (by rw [opening_of_nil hr])] at h
      cases h
    | cons task rest =>
      by_contra ha
      have hsince : task.since? = some epoch := by
        simp only [undertakes] at h
        split at h
        · cases h
        · rw [List.mem_singleton.1 h, hr] at hs
          exact hs
      have hdone : w.opening.2 = .done := by
        rw [opening_of_cons hr]
        exact focus_embark_of_since? hsince (Bool.eq_true_of_not_eq_false ha)
      rw [undertakes_of_done hdone] at h
      cases h
  | _ => cases h

/-! ## The requests on both sides -/

/-- One list is the other with some elements left out behind the first, all of which are gone. -/
inductive Abreast {α : Type} (gone : α → Prop) : List α → List α → Prop
  | nil : Abreast gone [] []
  | cons {l l' : List α} (a : α) (h : Thinned gone l l') : Abreast gone (a :: l) (a :: l')

namespace Spared

/-- What asks for no turn is the same on both sides. -/
theorem grant_of_not_isGoing (h : w.Spared gone v) {r : Request} (hr : r.isGoing = false) :
    (w.grant r).Spared gone (v.grant r) ∧ v.undertakes r = w.undertakes r := by
  cases r with
  | turn | settle => cases hr
  | bind x value => exact ⟨h.bind x value, rfl⟩
  | post m message => exact ⟨h.deliver m message, rfl⟩
  | complete p outcome => exact ⟨h.finishProcess p outcome, rfl⟩
  | awaitVariable x s k => exact ⟨h.awaitVariable x s k, rfl⟩
  | awaitProcess p s k => exact ⟨h.awaitProcess p s k, rfl⟩
  | receive s k => exact ⟨h.receive s k, rfl⟩
  | beginEpoch => exact ⟨h.carryOut .beginEpoch, rfl⟩
  | abandon epoch => exact ⟨h.carryOut (.abandon epoch), rfl⟩
  | elapse => exact ⟨h.elapse, rfl⟩

/-- A turn that both have before them is the same on both sides. -/
theorem grant_turn (h : w.Spared gone v)
    (ha : Abreast (Task.IsGone gone) w.scheduler.ready v.scheduler.ready) :
    (w.grant .turn).Spared gone (v.grant .turn) ∧ v.undertakes .turn = w.undertakes .turn := by
  generalize hw : w.scheduler.ready = l at ha
  generalize hv : v.scheduler.ready = l' at ha
  cases ha with
  | nil =>
    rw [grant_turn_of_nil hw, grant_turn_of_nil hv, undertakes_of_nil hw, undertakes_of_nil hv]
    exact ⟨h, rfl⟩
  | @cons rest rest' task hr =>
    rw [grant_turn_of_cons hw, grant_turn_of_cons hv]
    refine ⟨h.turn task hr, ?_⟩
    obtain ⟨hfocus, -⟩ := (h.beginTurn hr).embark task
    rw [← opening_of_cons hw, ← opening_of_cons hv] at hfocus
    simp only [undertakes, hfocus, hw, hv, List.head?_cons]

/-- Both settle alike where they have the same to do next. -/
theorem grant_settle (h : w.Spared gone v)
    (ha : Abreast (Task.IsGone gone) w.scheduler.ready v.scheduler.ready) :
    (w.grant .settle).Spared gone (v.grant .settle) := by
  refine h.settle fun hnil => ?_
  obtain ⟨hready, hdue⟩ := List.append_eq_nil_iff.1 hnil
  rw [hready] at ha
  rw [h.timers, h.clock] at hdue
  generalize hw : w.scheduler.ready = l at ha
  cases ha
  exact List.append_eq_nil_iff.2 ⟨hw, hdue⟩

/-- Whatever is requested where both have the same to do next, is the same on both sides. -/
theorem grant (h : w.Spared gone v)
    (ha : Abreast (Task.IsGone gone) w.scheduler.ready v.scheduler.ready) (r : Request) :
    (w.grant r).Spared gone (v.grant r) ∧ v.undertakes r = w.undertakes r := by
  cases r with
  | turn => exact h.grant_turn ha
  | settle => exact ⟨h.grant_settle ha, rfl⟩
  | _ => exact h.grant_of_not_isGoing rfl

/-- In the turn of one who is gone the other side stays where it is. -/
theorem grant_turn_gone (h : w.Spared gone v) {task : Task} {rest : List Task}
    (hw : w.scheduler.ready = task :: rest) (ht : task.IsGone gone)
    (hr : Thinned (Task.IsGone gone) rest v.scheduler.ready) :
    (w.grant .turn).Spared gone v ∧ w.undertakes .turn = [] ∧
      (w.grant .turn).scheduler.ready = rest := by
  rw [grant_turn_of_cons hw]
  refine ⟨h.drop_turn ht hr, undertakes_of_done ?_, by rw [h.turn_gone ht]; rfl⟩
  obtain ⟨epoch, hsince, hepoch⟩ := ht.exists_since?
  rw [opening_of_cons hw]
  exact focus_embark_of_since? hsince (h.isAbandoned_of_gone hepoch)

/-- **What happens in the world with more waiters happens in the other**, which may skip turns. -/
theorem grant_or (h : w.Spared gone v) (r : Request) :
    ((w.grant r).Spared gone (v.grant r) ∧ v.undertakes r = w.undertakes r) ∨
      (r.isGoing = true ∧ (w.grant r).Spared gone v ∧ w.undertakes r = []) := by
  have hready := h.ready
  generalize hw : w.scheduler.ready = l at hready
  generalize hv : v.scheduler.ready = l' at hready
  cases hready with
  | nil => exact .inl (h.grant (by rw [hw, hv]; exact .nil) r)
  | keep task hr => exact .inl (h.grant (by rw [hw, hv]; exact .cons task hr) r)
  | drop ht hr =>
    cases r with
    | turn =>
      rw [← hv] at hr
      obtain ⟨hturn, hnone, -⟩ := h.grant_turn_gone hw ht hr
      exact .inr ⟨rfl, hturn, hnone⟩
    | settle =>
      rcases h.settle_or with hboth | halone
      · exact .inl ⟨hboth, rfl⟩
      · exact .inr ⟨rfl, halone, rfl⟩
    | _ => exact .inl (h.grant_of_not_isGoing rfl)

theorem exists_thinned (h : w.Spared gone v) (rs : List Request) :
    ∃ rs', Thinned (·.isGoing = true) rs rs' ∧ v.undertakings rs' = w.undertakings rs ∧
      (w.grantAll rs).Spared gone (v.grantAll rs') := by
  induction rs generalizing w v with
  | nil => exact ⟨[], .nil, rfl, h⟩
  | cons r rs ih =>
    rcases h.grant_or r with ⟨hr, hsame⟩ | ⟨hgoing, hr, hnone⟩
    · obtain ⟨rs', hthin, hlog, hend⟩ := ih hr
      exact ⟨r :: rs', .keep r hthin, by rw [undertakings, undertakings, hsame, hlog], hend⟩
    · obtain ⟨rs', hthin, hlog, hend⟩ := ih hr
      exact ⟨rs', .drop hgoing hthin, by rw [undertakings, hnone, hlog, List.nil_append], hend⟩

/-- Some turns in which nothing happens bring the two worlds to where they have the same to do. -/
theorem exists_abreast (h : w.Spared gone v) :
    ∃ n, (w.grantAll (.replicate n .turn)).Spared gone v ∧
      w.undertakings (.replicate n .turn) = [] ∧
      Abreast (Task.IsGone gone) (w.grantAll (.replicate n .turn)).scheduler.ready
        v.scheduler.ready := by
  have hready := h.ready
  generalize hw : w.scheduler.ready = l at hready
  generalize hv : v.scheduler.ready = l' at hready
  induction hready generalizing w with
  | nil => exact ⟨0, h, rfl, by rw [List.replicate_zero, grantAll_nil, hw]; exact .nil⟩
  | keep task hr =>
    exact ⟨0, h, rfl, by rw [List.replicate_zero, grantAll_nil, hw]; exact .cons task hr⟩
  | drop ht hr ih =>
    rw [← hv] at hr
    obtain ⟨hturn, hnone, hrest⟩ := h.grant_turn_gone hw ht hr
    obtain ⟨n, hend, hlog, ha⟩ := ih hturn hrest hv
    refine ⟨n + 1, hend, ?_, ha⟩
    rw [List.replicate_succ, undertakings, hnone, hlog, List.append_nil]

theorem thinned_replicate (n : Nat) {rs rs' : List Request}
    (h : Thinned (· = Request.turn) rs rs') :
    Thinned (· = Request.turn) (.replicate n .turn ++ rs) rs' := by
  induction n with
  | zero => exact h
  | succ n ih =>
    rw [List.replicate_succ, List.cons_append]
    exact .drop rfl ih

/-- **What happens in the world with fewer waiters happens in the other**, which may take more
turns. -/
theorem exists_thicker (h : w.Spared gone v) (rs' : List Request) :
    ∃ rs, Thinned (· = Request.turn) rs rs' ∧ w.undertakings rs = v.undertakings rs' ∧
      (w.grantAll rs).Spared gone (v.grantAll rs') := by
  induction rs' generalizing w v with
  | nil => exact ⟨[], .nil, rfl, h⟩
  | cons r rs' ih =>
    obtain ⟨n, hu, hnone, ha⟩ := h.exists_abreast
    obtain ⟨hr, hsame⟩ := hu.grant ha r
    obtain ⟨rs, hthin, hlog, hend⟩ := ih hr
    refine ⟨.replicate n .turn ++ r :: rs, thinned_replicate n (.keep r hthin), ?_, ?_⟩
    · rw [undertakings_append, hnone, List.nil_append, undertakings, hlog, undertakings, hsame]
    · rw [grantAll_append]
      exact hend

/-- Nobody who is gone is called in any turn. -/
theorem not_gone_of_undertakings (h : w.Spared gone v) {rs : List Request} {u : Undertaking}
    (hu : u ∈ w.undertakings rs) {epoch : Nat} (hs : u.since = some epoch) : ¬gone epoch := by
  induction rs generalizing w v with
  | nil => cases hu
  | cons r rs ih =>
    rcases List.mem_append.1 hu with hu | hu
    · intro hgone
      have hlive := isAbandoned_of_undertakes hu hs
      rw [h.isAbandoned_of_gone hgone] at hlive
      cases hlive
    · rcases h.grant_or r with ⟨hr, -⟩ | ⟨-, hr, -⟩
      · exact ih hr hu
      · exact ih hr hu

end Spared

/-! ## Messages that come back -/

/-- The next turn gives back the message that is at the head of a mailbox, before `rest`: no mailbox
changes, no message is counted as received, and nothing is begun. The message is then ahead of all
that are posted from there on. -/
structure Returns (w : World) (m : MailboxId) (message : Value) (rest : List Value) : Prop where
  mailboxes : (w.grant .turn).mailboxes = w.mailboxes
  uncounted : (w.grant .turn).stats.messagesReceived = w.stats.messagesReceived
  idle : w.undertakes .turn = []
  ahead (posted : List Value) :
    (((w.grant .turn).grantAll (posted.map (.post m))).mailbox m).queue =
      message :: (rest ++ posted)

theorem queue_grantAll_post {m : MailboxId} (hm : m.index < w.mailboxes.size)
    (posted : List Value) :
    ((w.grantAll (posted.map (.post m))).mailbox m).queue = (w.mailbox m).queue ++ posted := by
  induction posted generalizing w with
  | nil => exact (List.append_nil _).symm
  | cons message posted ih =>
    have hmailboxes := (w.queues_deliver m message).mailboxes
    have hqueue : ((w.deliver m message).mailbox m).queue = (w.mailbox m).queue ++ [message] := by
      rw [World.mailbox, hmailboxes]
      exact congrArg Mailbox.queue (mailbox_setMailbox_self _ hm)
    have hsize : m.index < (w.deliver m message).mailboxes.size := by
      rw [hmailboxes]
      exact (Table.size_set w.mailboxes m.index _).symm ▸ hm
    rw [List.map_cons, grantAll_cons, grant, ih hsize, hqueue, List.append_assoc]
    rfl

/-- A turn that begins with nothing does nothing. -/
theorem perform_of_embark {task : Task} (h : w.embark task = (w, .done)) : w.perform task = w := by
  have hreaches := reaches_perform w task
  rw [h] at hreaches
  exact (Prod.ext_iff.1 (hreaches.eq_of_done (n := 0) rfl rfl)).1.symm

/-- **A receiver whose epoch has been given up gives its message back.** -/
theorem returns_of_isAbandoned {m : MailboxId} {epoch : Nat} {s : Stack} {k : Continuation}
    {tasks : List Task} (hr : w.scheduler.ready = .wakeReceiver m (.resume epoch s k) :: tasks)
    (ha : w.isAbandoned epoch = true) {message : Value} {rest : List Value}
    (hq : (w.mailbox m).queue = message :: rest) : w.Returns m message rest := by
  have hembark : (w.mapScheduler (·.beginTurn tasks)).embark
      (.wakeReceiver m (.resume epoch s k)) = (w.mapScheduler (·.beginTurn tasks), .done) := by
    cases (w.mapScheduler (·.beginTurn tasks)).offers_offer m epoch (.resume epoch s k) with
    | take _ hlive =>
      have ha' : (w.mapScheduler (·.beginTurn tasks)).isAbandoned epoch = true := ha
      rw [ha'] at hlive
      cases hlive
    | requeue _ _ hoffer => simp only [embark, hoffer]
    | wait hnil => cases hq.symm.trans hnil
    | displaced hnil => cases hq.symm.trans hnil
  have hturn : w.grant .turn =
      (w.mapScheduler (·.beginTurn tasks)).mapScheduler Scheduler.endTurn := by
    rw [grant_turn_of_cons hr, turn, perform_of_embark hembark]
  have hm : m.index < w.mailboxes.size := by
    by_contra hn
    rw [mailbox, Table.get_of_size_le (Nat.le_of_not_lt hn)] at hq
    cases hq
  refine ⟨by rw [hturn]; rfl, by rw [hturn]; rfl, undertakes_of_done ?_, fun posted => ?_⟩
  · rw [opening_of_cons hr, hembark]
  · rw [hturn, queue_grantAll_post (w := (w.mapScheduler _).mapScheduler _) hm]
    exact congrArg (· ++ posted) hq

/-! ## The world without those who are given up -/

/-- Those of some who wait whose epoch has not been given up. -/
def living (w : World) (wakers : List Waker) : List Waker := wakers.filter (!·.isGivenUp w)

/-- Whether nobody is called in the turn of a task but one who waited for a variable in an epoch that
has been given up. -/
def isVain (w : World) : Task → Bool
  | .wakeWaiter waker _ => waker.isGivenUp w
  | _ => false

/-- The world as if those whose epoch has been given up had never begun to wait for a variable or a
process. -/
def spare (w : World) : World :=
  { w with
    processes := w.processes.map fun process => { process with notify := w.living process.notify }
    dataflows := w.dataflows.map fun cell => { cell with waiters := w.living cell.waiters }
    scheduler := { w.scheduler with ready := w.scheduler.ready.filter (!w.isVain ·) } }

theorem isGone_of_isGivenUp {waker : Waker} (h : waker.isGivenUp w = true) :
    waker.IsGone (w.isAbandoned · = true) := by
  cases waker with
  | resume epoch s k => exact h
  | report tag => cases h

theorem thinned_living (w : World) (wakers : List Waker) :
    Thinned (Waker.IsGone (w.isAbandoned · = true)) wakers (w.living wakers) :=
  .filter (fun _ => isGone_of_isGivenUp) wakers

theorem thinned_ready (w : World) :
    Thinned (Task.IsGone (w.isAbandoned · = true)) w.scheduler.ready
      (w.scheduler.ready.filter (!w.isVain ·)) := by
  refine .filter (fun task ht => ?_) _
  cases task with
  | wakeWaiter waker value => exact isGone_of_isGivenUp ht
  | _ => cases ht

theorem spared_spare (w : World) : w.Spared (w.isAbandoned · = true) w.spare :=
  .intro (fun _ h => h) (.map rfl (fun process => .intro (w.thinned_living process.notify)) _)
    (.map rfl (fun cell => .intro (w.thinned_living cell.waiters)) _) w.thinned_ready

end World

open World in
/-- **Giving up an epoch is selective and loses nothing.** Take a world as it is, and the same world
as if those whose epoch has been given up had never begun to wait for a variable or a process.

* Whatever is requested of the one can be requested of the other, where the scheduler is asked to go
  on less often, so that the same is begun on both sides, in the same order; and the two worlds stay
  the same but for those who are missing. Conversely, whatever is requested of the world without them
  can be requested of the other, with some more turns.
* In no turn anyone is called who has waited since an epoch that has been given up.
* When a process ends, everyone who waits for it gets a turn, except for those whose epoch has been
  given up.
* If the next turn calls a receiver whose epoch has been given up, and there is a message for it,
  the message comes back. -/
theorem abandoning_spares (w : World) :
    (∀ rs, ∃ rs', Thinned (·.isGoing = true) rs rs' ∧
      w.spare.undertakings rs' = w.undertakings rs ∧
      (w.grantAll rs).Spared (w.isAbandoned · = true) (w.spare.grantAll rs')) ∧
    (∀ rs', ∃ rs, Thinned (· = Request.turn) rs rs' ∧
      w.undertakings rs = w.spare.undertakings rs' ∧
      (w.grantAll rs).Spared (w.isAbandoned · = true) (w.spare.grantAll rs')) ∧
    ∀ rs,
      (∀ u ∈ w.undertakings rs, ∀ epoch, u.since = some epoch → w.isAbandoned epoch = false) ∧
      (∀ p outcome, ((w.grantAll rs).process p).state ≠ .done →
        ((w.grantAll rs).grant (.complete p outcome)).scheduler.ready =
          (w.grantAll rs).scheduler.ready ++
            ((w.grantAll rs).process p).notify.flatMap
              ((w.grantAll rs).joined (resultOf outcome))) ∧
      ∀ m epoch s k tasks message rest, w.isAbandoned epoch = true →
        (w.grantAll rs).scheduler.ready = .wakeReceiver m (.resume epoch s k) :: tasks →
        ((w.grantAll rs).mailbox m).queue = message :: rest →
        (w.grantAll rs).Returns m message rest := by
  have h := w.spared_spare
  refine ⟨h.exists_thinned, h.exists_thicker, fun rs => ⟨?_, ?_, ?_⟩⟩
  · intro u hu epoch hs
    exact Bool.eq_false_of_not_eq_true (h.not_gone_of_undertakings hu hs)
  · intro p outcome hp
    exact (finishProcess_of_ne_done hp outcome).ready
  · intro m epoch s k tasks message rest ha hr hq
    obtain ⟨rs', -, -, hend⟩ := h.exists_thinned rs
    exact returns_of_isAbandoned hr (hend.isAbandoned_of_gone ha) hq

/-- Two wait for a variable and one for a message; the first and the last do so since an epoch that
has been given up. -/
def mixed : World where
  dataflows := Table.empty.push ⟨"x", none,
    [.resume 1 .empty (.deliver (.report "gone")), .resume 2 .empty (.deliver (.report "here"))]⟩
  mailboxes := Table.empty.push ⟨0, [], some (.resume 1 .empty (.deliver (.report "gone")))⟩
  scheduler := { epoch := 2, abandoned := [1] }

/-- The variable is bound and a message posted; the one who is called is called on both sides, and
the message comes back. -/
theorem abandoning_spares_mixed :
    (∃ rs', Thinned (·.isGoing = true)
        [.bind ⟨0⟩ (.symbol "v"), .post ⟨0⟩ (.symbol "a"), .turn, .turn, .turn] rs' ∧
      mixed.spare.undertakings rs' =
        [⟨some 2, .resume (.deliver (.report "here")) (.ok (Stack.empty.push (.symbol "v")))⟩]) ∧
    (mixed.grantAll
      [.bind ⟨0⟩ (.symbol "v"), .post ⟨0⟩ (.symbol "a"), .turn, .turn]).Returns ⟨0⟩ (.symbol "a")
        [] := by
  obtain ⟨hthin, -, hall⟩ := abandoning_spares mixed
  obtain ⟨rs', hrs', hsame, -⟩ := hthin
    [.bind ⟨0⟩ (.symbol "v"), .post ⟨0⟩ (.symbol "a"), .turn, .turn, .turn]
  refine ⟨⟨rs', hrs', hsame.trans rfl⟩, ?_⟩
  exact (hall _).2.2 ⟨0⟩ 1 .empty (.deliver (.report "gone")) [] (.symbol "a") [] rfl rfl rfl

end Catena
