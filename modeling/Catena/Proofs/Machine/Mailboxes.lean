import Catena.Proofs.Machine.Cells
import Catena.Proofs.Machine.Moment

/-!
# Messages keep their order

A message that is posted wakes a receiver, which takes it off the queue only when its turn comes. In
between others may post, receive, wait or be given up, and a receiver that has been given up puts
the message back. Through all of that a mailbox is a queue: what has been taken from it, followed by
what is in it, is what was posted to it (`mailbox_fifo`).

What is taken is what the receivers are given: `receive` pushes it on the stack of the one who asked
(`World.ready_receive`), and a woken receiver is handed just that (`World.toList_offer`).
-/

namespace Catena

namespace World

/-- Collects something from each of a sequence of effects, given the world it happens to. -/
def gather {α : Type} (f : World → Effect → List α) (w : World) : List Effect → List α
  | [] => []
  | e :: es => f w e ++ gather f (w.apply e) es

@[simp] theorem gather_nil {α : Type} (f : World → Effect → List α) (w : World) :
    w.gather f [] = [] := rfl

theorem gather_append {α : Type} (f : World → Effect → List α) (w : World) (es fs : List Effect) :
    w.gather f (es ++ fs) = w.gather f es ++ (w.replay es).gather f fs := by
  induction es generalizing w with
  | nil => rfl
  | cons e es ih =>
    simp only [List.cons_append, gather, ih, World.replay_cons, List.append_assoc]

/-- The messages that an effect posts to a mailbox. -/
def posts (b : MailboxId) (w : World) : Effect → List Value
  | .deliver m message => if m = b ∧ b.index < w.mailboxes.size then [message] else []
  | _ => []

/-- The next message of a mailbox, if there is one. -/
def nextMessage (w : World) (b : MailboxId) : List Value := (w.mailbox b).queue.take 1

/-- The messages that an effect takes from a mailbox: `receive` takes the next one at once, and so
does a woken receiver that has not been given up. -/
def takes (b : MailboxId) (w : World) : Effect → List Value
  | .receive s _ =>
    match s.owner with
    | some p => if (w.process p).mailbox = b then w.nextMessage b else []
    | none => []
  | .wakeReceiver m waker => if m = b ∧ waker.isGivenUp w = false then w.nextMessage b else []
  | _ => []

/-- A receiver waits only where there is no message. -/
def ReceiversIdle (w : World) : Prop :=
  w.mailboxes.All fun _ mailbox => mailbox.receiver.isSome → mailbox.queue = []

/-- What an effect may do to the mailboxes: one law for the queue of each, and one for the
receivers. -/
structure Keeps (w : World) (e : Effect) : Prop where
  queue : ∀ b, w.takes b e ++ ((w.apply e).mailbox b).queue = (w.mailbox b).queue ++ w.posts b e
  idle : (w.apply e).ReceiversIdle

theorem ReceiversIdle.congr {w w' : World} (h : w.ReceiversIdle)
    (he : w'.mailboxes = w.mailboxes) : w'.ReceiversIdle := by
  unfold ReceiversIdle
  rw [he]
  exact h

/-- An effect that leaves the mailboxes alone. -/
theorem Keeps.of_same {w : World} {e : Effect} (h : w.ReceiversIdle)
    (he : (w.apply e).mailboxes = w.mailboxes) (ht : ∀ b, w.takes b e = [])
    (hp : ∀ b, w.posts b e = []) : w.Keeps e := by
  refine ⟨fun b => ?_, h.congr he⟩
  rw [ht, hp, List.append_nil, List.nil_append]
  exact congrArg (fun t => (t.get b.index).queue) he

/-- Taking the next message off. -/
theorem Keeps.of_take {w : World} {e : Effect} {m : MailboxId} {message : Value} {rest : Mailbox}
    {ts : List Task} (hi : w.ReceiversIdle)
    (ht : (w.mailbox m).take? = some (message, rest))
    (h : (w.setMailbox m rest).Queues ts (w.apply e))
    (htakes : ∀ b, w.takes b e = if m = b then w.nextMessage b else [])
    (hp : ∀ b, w.posts b e = []) : w.Keeps e := by
  have hm := lt_of_take? ht
  obtain ⟨hq, hr⟩ := Mailbox.queue_of_take? ht
  refine ⟨fun b => ?_, ?_⟩
  · have hb : (w.apply e).mailbox b = (w.setMailbox m rest).mailbox b :=
      congrArg (·.get b.index) h.mailboxes
    rw [htakes, hp, List.append_nil, hb]
    by_cases hmb : m = b
    · subst hmb
      rw [if_pos rfl, mailbox_setMailbox_self _ hm, nextMessage, hq]
      rfl
    · rw [if_neg hmb, mailbox_setMailbox_of_ne _ _ hmb, List.nil_append]
  · refine ReceiversIdle.congr ?_ h.mailboxes
    refine Table.All.set hi fun hsome => ?_
    -- With a message in the mailbox, no one waits for one.
    have hnil : (w.mailbox m).queue = [] := Table.All.get hi hm (hr ▸ hsome)
    rw [hq] at hnil
    cases hnil

/-- Beginning to wait. -/
theorem Keeps.of_wait {w : World} {e : Effect} {m : MailboxId} {waker : Waker}
    (hi : w.ReceiversIdle) (hq : (w.mailbox m).queue = [])
    (h : w.apply e = w.setMailbox m { w.mailbox m with receiver := some waker })
    (ht : ∀ b, w.takes b e = []) (hp : ∀ b, w.posts b e = []) : w.Keeps e := by
  refine ⟨fun b => ?_, ?_⟩
  · rw [ht, hp, List.append_nil, List.nil_append, h]
    by_cases hmb : m = b
    · subst hmb
      rcases Nat.lt_or_ge m.index w.mailboxes.size with hm | hm
      · rw [mailbox_setMailbox_self _ hm]
      · rw [setMailbox_of_size_le _ hm]
    · rw [mailbox_setMailbox_of_ne _ _ hmb]
  · rw [h]
    exact Table.All.set hi fun _ => hq

/-- Posting a message. -/
theorem keeps_deliver {w : World} (hi : w.ReceiversIdle) (m : MailboxId) (message : Value) :
    w.Keeps (.deliver m message) := by
  have h := w.queues_deliver m message
  refine ⟨fun b => ?_, ?_⟩
  · have hb : (w.deliver m message).mailbox b =
        (w.setMailbox m ((w.mailbox m).post message).1).mailbox b :=
      congrArg (·.get b.index) h.mailboxes
    show ((w.deliver m message).mailbox b).queue = _
    rw [hb]
    by_cases hmb : m = b
    · subst hmb
      rcases Nat.lt_or_ge m.index w.mailboxes.size with hm | hm
      · rw [mailbox_setMailbox_self _ hm]
        simp only [posts, hm, and_true, if_true]
        rfl
      · have hnot : ¬m.index < w.mailboxes.size := by omega
        simp only [posts, hnot, and_false, if_false, List.append_nil]
        rw [setMailbox_of_size_le _ hm]
    · simp only [posts, hmb, false_and, if_false, List.append_nil]
      exact congrArg Mailbox.queue (mailbox_setMailbox_of_ne _ _ hmb)
  · refine ReceiversIdle.congr ?_ h.mailboxes
    exact Table.All.set hi fun hsome => by cases hsome

/-- `receive` takes the next message, or waits where there is none, or fails. -/
theorem keeps_receive {w : World} (hi : w.ReceiversIdle) (s : Stack) (k : Continuation) :
    w.Keeps (.receive s k) := by
  cases w.receives_receive s k with
  | take ho ht h =>
    refine .of_take hi ht h (fun b => ?_) fun b => rfl
    simp only [takes, ho]
  | wait ho hq hr h =>
    refine .of_wait hi hq h (fun b => ?_) fun b => rfl
    simp only [takes, ho]
    split
    · rename_i hb
      rw [nextMessage, ← hb, hq, List.take_nil]
    · rfl
  | refuse he hq h =>
    refine .of_same hi h.mailboxes (fun b => ?_) fun b => rfl
    simp only [takes]
    split
    · rename_i p ho
      split
      · rename_i hb
        rw [nextMessage, ← hb, hq p ho, List.take_nil]
      · rfl
    · rfl

/-- A woken receiver takes the next message, or puts it back when it has been given up, or goes back
to waiting where there is none. -/
theorem keeps_wakeReceiver {w : World} (hi : w.ReceiversIdle) (m : MailboxId) (waker : Waker) :
    w.Keeps (.wakeReceiver m waker) := by
  -- Where nothing is queued, nothing is taken.
  have hnone : (w.mailbox m).queue = [] → ∀ b, w.takes b (.wakeReceiver m waker) = [] := by
    intro hq b
    simp only [takes]
    split
    · rename_i hb
      rw [nextMessage, ← hb.1, hq, List.take_nil]
    · rfl
  cases waker with
  | resume epoch s k =>
    cases w.offers_offer m epoch (.resume epoch s k) with
    | take ht ha h hm =>
      refine .of_take hi ht h (fun b => ?_) fun b => rfl
      simp only [takes, Waker.isGivenUp, ha, and_true]
    | requeue ht ha h =>
      refine .of_same hi (congrArg (fun r => r.1.mailboxes) h) (fun b => ?_) fun b => rfl
      simp only [takes, Waker.isGivenUp, ha, Bool.true_eq_false, and_false, if_false]
    | wait hq hr h => exact .of_wait hi hq (congrArg Prod.fst h) (hnone hq) fun b => rfl
    | displaced hq hr h =>
      exact .of_same hi (congrArg (fun r => r.1.mailboxes) h) (hnone hq) fun b => rfl
  | report tag =>
    cases w.hears_wakeNext m tag with
    | take ht h =>
      refine .of_take hi ht h (fun b => ?_) fun b => rfl
      simp only [takes, Waker.isGivenUp, and_true]
    | wait hq hr h => exact .of_wait hi hq h (hnone hq) fun b => rfl
    | displaced hq hr h => exact .of_same hi h.mailboxes (hnone hq) fun b => rfl

/-- **What `receive` takes is given to the one who asked.** The message comes on its stack, and with
no message it waits or fails. -/
theorem ready_receive {w : World} {s : Stack} {p : ProcessId} (ho : s.owner = some p)
    (k : Continuation) :
    (w.receive s k).scheduler.ready = w.scheduler.ready ++
        (w.takes (w.process p).mailbox (.receive s k)).map (Task.resume k <| .ok <| s.push ·) ∨
      w.takes (w.process p).mailbox (.receive s k) = [] ∧
        ∃ e : Error, (w.receive s k).scheduler.ready =
          w.scheduler.ready ++ [.resume k (.error e)] := by
  have htakes : w.takes (w.process p).mailbox (.receive s k) =
      w.nextMessage (w.process p).mailbox := by
    simp only [takes, ho, if_true]
  rw [htakes]
  cases w.receives_receive s k with
  | refuse he hq h =>
    refine .inr ⟨?_, _, h.ready⟩
    rw [nextMessage, hq p ho, List.take_nil]
  | take hp ht h =>
    cases ho.symm.trans hp
    refine .inl (h.ready.trans ?_)
    rw [nextMessage, (Mailbox.queue_of_take? ht).1]
    rfl
  | wait hp hq hr h =>
    cases ho.symm.trans hp
    left
    rw [nextMessage, hq, h]
    exact (List.append_nil _).symm

/-- **What a woken receiver takes is what it is given.** -/
theorem toList_offer (w : World) (m : MailboxId) (epoch : Nat) (s : Stack) (k : Continuation) :
    (w.offer m epoch (.resume epoch s k)).2.toList =
      w.takes m (.wakeReceiver m (.resume epoch s k)) := by
  simp only [takes, Waker.isGivenUp, true_and]
  cases w.offers_offer m epoch (.resume epoch s k) with
  | take ht ha h hm =>
    rw [hm, if_pos ha, nextMessage, (Mailbox.queue_of_take? ht).1]
    rfl
  | requeue ht ha h =>
    rw [h, if_neg (by rw [ha]; exact Bool.noConfusion)]
    rfl
  | wait hq hr h | displaced hq hr h =>
    rw [h, nextMessage, hq, List.take_nil, ite_self]
    rfl

/-- A new process has an empty mailbox. -/
theorem keeps_spawn {w : World} (hi : w.ReceiversIdle) (captured : Bindings Value) (block : Block)
    (parent : Option ProcessId) : w.Keeps (.spawn captured block parent) := by
  have hm : (w.apply (.spawn captured block parent)).mailboxes =
      w.mailboxes.push (.new (w.processes.size + 1)) := rfl
  refine ⟨fun b => ?_, ?_⟩
  · show ((w.apply (.spawn captured block parent)).mailbox b).queue = _ ++ []
    rw [List.append_nil, mailbox, hm]
    rcases Nat.lt_trichotomy b.index w.mailboxes.size with hb | hb | hb
    · rw [Table.get_push_of_lt _ hb]
      rfl
    · rw [hb, Table.get_push_size, mailbox, Table.get_of_size_le (by omega)]
      rfl
    · rw [Table.get_of_size_le (by simp only [Table.size_push]; omega), mailbox,
        Table.get_of_size_le (by omega)]
  · exact Table.All.push hi fun hsome => by cases hsome

/-- **Every effect keeps the order of messages.** -/
theorem keeps_apply {w : World} (hi : w.ReceiversIdle) (e : Effect) : w.Keeps e := by
  cases e with
  | deliver m message => exact keeps_deliver hi m message
  | receive s k => exact keeps_receive hi s k
  | wakeReceiver m waker => exact keeps_wakeReceiver hi m waker
  | spawn captured block parent => exact keeps_spawn hi captured block parent
  | _ => exact .of_same hi (w.mailboxes_apply rfl) (fun _ => rfl) fun _ => rfl

/-- The order of messages through any sequence of effects. -/
theorem takes_append_queue {w : World} (hi : w.ReceiversIdle) (es : List Effect) (b : MailboxId) :
    w.gather (takes b) es ++ ((w.replay es).mailbox b).queue =
        (w.mailbox b).queue ++ w.gather (posts b) es ∧
      (w.replay es).ReceiversIdle := by
  induction es generalizing w with
  | nil => exact ⟨(List.append_nil _).symm, hi⟩
  | cons e es ih =>
    have hk := keeps_apply hi e
    obtain ⟨hq, hidle⟩ := ih hk.idle
    refine ⟨?_, hidle⟩
    calc w.gather (takes b) (e :: es) ++ ((w.replay (e :: es)).mailbox b).queue
        = w.takes b e ++ ((w.apply e).gather (takes b) es ++
            (((w.apply e).replay es).mailbox b).queue) := List.append_assoc _ _ _
      _ = w.takes b e ++ (((w.apply e).mailbox b).queue ++ (w.apply e).gather (posts b) es) := by
          rw [hq]
      _ = (w.mailbox b).queue ++ w.posts b e ++ (w.apply e).gather (posts b) es := by
          rw [← List.append_assoc, hk.queue]
      _ = (w.mailbox b).queue ++ w.gather (posts b) (e :: es) := List.append_assoc _ _ _

end World

/-- **Mailboxes are queues.** At every moment of every run, whatever else may happen in between,
what has been taken from a mailbox, followed by what is in it, is what has been posted to it, and a
receiver waits in it only while it is empty. -/
theorem mailbox_fifo {policy : Policy} {m : Moment} {es : List Event}
    (h : Run policy ⟨{}, .rest, []⟩ es m) (b : MailboxId) :
    World.gather (World.takes b) {} (effectsOf es) ++ (m.world.mailbox b).queue =
        World.gather (World.posts b) {} (effectsOf es) ∧
      ((m.world.mailbox b).receiver.isSome → (m.world.mailbox b).queue = []) := by
  have hi : ({} : World).ReceiversIdle := Table.All.empty
  obtain ⟨hq, hidle⟩ := World.takes_append_queue hi (effectsOf es) b
  rw [h.world_eq]
  exact ⟨hq, Table.All.get_of_default hidle fun hsome => by cases hsome⟩

/-- A receiver waits, two messages are posted, the receiver is given up before its turn comes, and
the process asks again: it takes the first message, and the second one is left. -/
theorem mailbox_fifo_given_up :
    ∃ (es : List Event) (m : Moment),
      Run ⟨fun _ => True, fun _ _ => False⟩ ⟨{}, .rest, []⟩ es m ∧
      World.gather (World.posts ⟨0⟩) {} (effectsOf es) = [.symbol "a", .symbol "b"] ∧
      World.gather (World.takes ⟨0⟩) {} (effectsOf es) = [.symbol "a"] ∧
      World.gather (World.takes ⟨0⟩) {} (effectsOf es) ++ (m.world.mailbox ⟨0⟩).queue =
        World.gather (World.posts ⟨0⟩) {} (effectsOf es) ∧
      ((m.world.mailbox ⟨0⟩).receiver.isSome → (m.world.mailbox ⟨0⟩).queue = []) := by
  have happens : ∀ {w : World} {es : List Event} (e : Effect),
      Run ⟨fun _ => True, fun _ _ => False⟩ ⟨{}, .rest, []⟩ es ⟨w, .rest, []⟩ →
        Run ⟨fun _ => True, fun _ _ => False⟩ ⟨{}, .rest, []⟩ (es ++ [⟨none, e⟩])
          ⟨w.apply e, .rest, []⟩ := fun e h => h.step (.outside trivial)
  have hrun := happens (.receive (.ownedBy ⟨0⟩) (.deliver (.finish ⟨0⟩)))
    (happens (.wakeReceiver ⟨0⟩ (.resume 0 (.ownedBy ⟨0⟩) (.deliver (.finish ⟨0⟩))))
      (happens (.abandon 0) (happens (.deliver ⟨0⟩ (.symbol "b"))
        (happens (.deliver ⟨0⟩ (.symbol "a"))
          (happens (.receive (.ownedBy ⟨0⟩) (.deliver (.finish ⟨0⟩)))
            (happens (.spawn .empty ⟨⟨0⟩, []⟩ none) (.refl _)))))))
  exact ⟨_, _, hrun, rfl, rfl, mailbox_fifo hrun ⟨0⟩⟩

end Catena
