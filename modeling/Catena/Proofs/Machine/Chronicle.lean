import Mathlib.Data.List.Nodup
import Mathlib.Data.List.Pairwise
import Mathlib.Data.List.TakeWhile
import Mathlib.Logic.Relation
import Catena.World.Scheduler

/-!
# The order of turns

What a scheduler does, whatever a task is, and whatever the clock shows. `Scheduler.History` is a
scheduler together with a record of its past, and `Scheduler.Step` is anything that can happen to
it: tasks are queued or put off, time passes, due timers become ready, a turn begins or ends. Tasks
are told apart by where they come from (`Scheduler.Origin`), not by what they are.

One list carries the order of timers: those that have run or are ready, in the order in which they
became ready, and then those that are still pending (`Scheduler.Kept.timers`). It is sorted by
deadline and serial number. A new timer comes after all that have become ready, since they were due
before now and it is not. So whatever has run, has run in order (`Scheduler.Possible.inOrder`).
-/

namespace Catena.Scheduler

variable {τ : Type}

/-! ## Origins -/

/-- Where a task comes from. The tasks that are queued for a later turn are numbered as they come; a
timer has a deadline and a serial number. -/
inductive Origin where
  | queued (number : Nat)
  | timer (due serial : Nat)
  deriving DecidableEq

/-- The number of a task that was queued. -/
def Origin.number? : Origin → Option Nat
  | .queued number => some number
  | .timer _ _ => none

/-- The deadline and the serial number of a timer. -/
def Origin.key? : Origin → Option (Nat × Nat)
  | .queued _ => none
  | .timer due serial => some (due, serial)

/-- The earlier deadline comes first, and among equal ones the earlier timer. -/
def Sooner (a b : Nat × Nat) : Prop := a.1 < b.1 ∨ a.1 = b.1 ∧ a.2 < b.2

theorem not_sooner_self (a : Nat × Nat) : ¬Sooner a a := by
  unfold Sooner
  omega

theorem Sooner.le {a b : Nat × Nat} (h : Sooner a b) : a.1 ≤ b.1 := by
  unfold Sooner at h
  omega

/-- The deadline and the serial number of a timer. -/
def key (timer : Timer τ) : Nat × Nat := (timer.due, timer.serial)

/-- A timer as a task and where it comes from. -/
def traced (timer : Timer τ) : Origin × τ := (.timer timer.due timer.serial, timer.task)

/-- An origin from before a certain number of tasks had been queued and of timers set. -/
def Origin.Before (numbers serials : Nat) : Origin → Prop
  | .queued number => number < numbers
  | .timer _ serial => serial < serials

theorem Origin.Before.mono {numbers numbers' serials serials' : Nat} {origin : Origin}
    (h : origin.Before numbers serials) (hn : numbers ≤ numbers') (hs : serials ≤ serials') :
    origin.Before numbers' serials' := by
  cases origin with
  | queued number => exact Nat.lt_of_lt_of_le h hn
  | timer due serial => exact Nat.lt_of_lt_of_le h hs

theorem mem_number? {l : List Origin} {n : Nat} :
    n ∈ l.filterMap Origin.number? ↔ .queued n ∈ l := by
  rw [List.mem_filterMap]
  constructor
  · rintro ⟨origin, hm, ho⟩
    cases origin with
    | queued number => cases ho; exact hm
    | timer due serial => cases ho
  · exact fun hm => ⟨_, hm, rfl⟩

theorem mem_key? {l : List Origin} {x : Nat × Nat} :
    x ∈ l.filterMap Origin.key? ↔ .timer x.1 x.2 ∈ l := by
  rw [List.mem_filterMap]
  constructor
  · rintro ⟨origin, hm, ho⟩
    cases origin with
    | queued number => cases ho
    | timer due serial => cases ho; exact hm
  · exact fun hm => ⟨_, hm, rfl⟩

/-- Origins that are in order are all different. -/
theorem nodup_of_ordered {l : List Origin}
    (hn : (l.filterMap Origin.number?).Pairwise (· < ·))
    (ht : (l.filterMap Origin.key?).Pairwise Sooner) : l.Nodup := by
  induction l with
  | nil => exact List.nodup_nil
  | cons origin l ih =>
    cases origin with
    | queued number =>
      obtain ⟨hfirst, hn⟩ := List.pairwise_cons.1 hn
      refine List.nodup_cons.2 ⟨fun hm => ?_, ih hn ht⟩
      exact Nat.lt_irrefl _ (hfirst number (mem_number?.2 hm))
    | timer due serial =>
      obtain ⟨hfirst, ht⟩ := List.pairwise_cons.1 ht
      refine List.nodup_cons.2 ⟨fun hm => ?_, ih hn ht⟩
      exact not_sooner_self _ (hfirst (due, serial) (mem_key?.2 hm))

/-! ## Histories -/

/-- The beginning of a turn: its task, where it comes from, and the time. -/
structure Start (τ : Type) where
  origin : Origin
  task : τ
  time : Nat

/-- A scheduler and its past. -/
structure History (τ : Type) where
  scheduler : Scheduler τ := {}
  /-- The tasks that are ready, and where they come from. -/
  line : List (Origin × τ) := []
  /-- Everything that has been queued or put off, and how many tasks have been queued. -/
  scheduled : List (Origin × τ) := []
  queued : Nat := 0
  /-- The turns that have begun, the first one first. -/
  starts : List (Start τ) := []

/-- Epochs and counters change, and nothing else. -/
structure Keeps (s s' : Scheduler τ) : Prop where
  ready : s'.ready = s.ready
  timers : s'.timers = s.timers
  nextSerial : s'.nextSerial = s.nextSerial
  clock : s'.clock = s.clock
  dispatchDepth : s'.dispatchDepth = s.dispatchDepth
  maxDispatchDepth : s'.stats.maxDispatchDepth ≤ s.stats.maxDispatchDepth

namespace History

variable (h : History τ)

/-- A task is queued for a later turn. -/
def later (task : τ) : History τ :=
  { h with
    scheduler := h.scheduler.later task
    line := h.line ++ [(.queued h.queued, task)]
    scheduled := h.scheduled ++ [(.queued h.queued, task)]
    queued := h.queued + 1 }

/-- A task is put off. -/
def after (delay : Nat) (task : τ) : History τ :=
  { h with
    scheduler := h.scheduler.schedule (h.scheduler.clock + delay) task
    scheduled := h.scheduled ++
      [(.timer (h.scheduler.clock + delay) h.scheduler.nextSerial, task)] }

/-- Time passes. -/
def pass (elapsed : Nat) : History τ :=
  { h with scheduler := { h.scheduler with clock := h.scheduler.clock + elapsed } }

/-- The timers that are due become ready. -/
def promote : History τ :=
  { h with
    scheduler := h.scheduler.promote h.scheduler.clock
    line := h.line ++ (h.scheduler.timers.takeWhile (·.due ≤ h.scheduler.clock)).map traced }

/-- A turn begins, after which `rest` is ready. -/
def start (origin : Origin) (task : τ) (rest : List (Origin × τ)) : History τ :=
  { h with
    scheduler := h.scheduler.beginTurn h.scheduler.ready.tail
    line := rest
    starts := h.starts ++ [⟨origin, task, h.scheduler.clock⟩] }

/-- A turn ends. -/
def finish : History τ := { h with scheduler := h.scheduler.endTurn }

/-- All that has not run yet is dropped. -/
def discard : History τ := { h with scheduler := h.scheduler.discard, line := [] }

end History

/-- What can happen to a scheduler. -/
inductive Step (h : History τ) : History τ → Prop
  | later (task : τ) : Step h (h.later task)
  | after (delay : Nat) (task : τ) : Step h (h.after delay task)
  | pass (elapsed : Nat) : Step h (h.pass elapsed)
  | promote : Step h h.promote
  /-- The next turn begins while no turn is being taken. -/
  | start {origin : Origin} {task : τ} {rest : List (Origin × τ)}
      (hd : h.scheduler.dispatching = false) (hl : h.line = (origin, task) :: rest) :
      Step h (h.start origin task rest)
  | finish : Step h h.finish
  | discard : Step h h.discard
  /-- An epoch begins or is given up, or something is counted. -/
  | keep {s : Scheduler τ} (hs : h.scheduler.Keeps s) : Step h { h with scheduler := s }

/-- Whatever can have happened to a scheduler since its beginning. -/
def Possible (h : History τ) : Prop := Relation.ReflTransGen Step {} h

/-- Turns are taken in order. -/
structure InOrder (h : History τ) : Prop where
  /-- No task runs twice. -/
  once : (h.starts.map Start.origin).Nodup
  /-- Whatever runs has been queued or put off, and is told apart by its origin. -/
  scheduled : ∀ start ∈ h.starts, (start.origin, start.task) ∈ h.scheduled
  distinct : (h.scheduled.map Prod.fst).Nodup
  /-- Tasks run in the order in which they were queued. -/
  queued : ((h.starts.map Start.origin).filterMap Origin.number?).Pairwise (· < ·)
  /-- Timers run by deadline, and among equal ones in the order in which they were set. -/
  timers : ((h.starts.map Start.origin).filterMap Origin.key?).Pairwise Sooner
  /-- No timer runs before its deadline. -/
  punctual : ∀ start ∈ h.starts, ∀ due serial, start.origin = .timer due serial → due ≤ start.time
  /-- No turn begins inside of another. -/
  depth : h.scheduler.dispatchDepth ≤ 1 ∧ h.scheduler.stats.maxDispatchDepth ≤ 1

/-! ## What every step keeps -/

/-- The origins of all that has become ready and was not dropped, in that order. -/
def History.origins (h : History τ) : List Origin :=
  h.starts.map Start.origin ++ h.line.map Prod.fst

/-- What is kept by all that can happen. -/
structure Kept (h : History τ) : Prop where
  line : h.line.map Prod.snd = h.scheduler.ready
  numbers : (h.origins.filterMap Origin.number?).Pairwise (· < ·)
  /-- Timers that have become ready come before those that are pending. -/
  timers : (h.origins.filterMap Origin.key? ++ h.scheduler.timers.map key).Pairwise Sooner
  due : ∀ x ∈ h.origins.filterMap Origin.key?, x.1 ≤ h.scheduler.clock
  punctual : ∀ start ∈ h.starts, ∀ due serial, start.origin = .timer due serial → due ≤ start.time
  started : ∀ start ∈ h.starts, (start.origin, start.task) ∈ h.scheduled
  waiting : ∀ x ∈ h.line ++ h.scheduler.timers.map traced, x ∈ h.scheduled
  before : ∀ x ∈ h.scheduled, x.1.Before h.queued h.scheduler.nextSerial
  distinct : (h.scheduled.map Prod.fst).Nodup
  depth : h.scheduler.dispatchDepth ≤ 1
  maxDepth : h.scheduler.stats.maxDispatchDepth ≤ 1

theorem Kept.inOrder {h : History τ} (hk : Kept h) : InOrder h := by
  have hnumbers := hk.numbers
  have htimers := (List.pairwise_append.1 hk.timers).1
  rw [History.origins, List.filterMap_append, List.pairwise_append] at hnumbers htimers
  exact {
    once := nodup_of_ordered hnumbers.1 htimers.1
    scheduled := hk.started
    distinct := hk.distinct
    queued := hnumbers.1
    timers := htimers.1
    punctual := hk.punctual
    depth := ⟨hk.depth, hk.maxDepth⟩ }

theorem kept_empty : Kept ({} : History τ) := by
  constructor <;> simp [History.origins]

/-- Something is put between the parts of a sorted list. -/
theorem pairwise_insert {α : Type} {r : α → α → Prop} {l l' : List α} {a : α}
    (h : (l ++ l').Pairwise r) (hl : ∀ x ∈ l, r x a) (hl' : ∀ x ∈ l', r a x) :
    (l ++ a :: l').Pairwise r := by
  rw [List.pairwise_append] at h ⊢
  refine ⟨h.1, List.pairwise_cons.2 ⟨hl', h.2.1⟩, fun x hx y hy => ?_⟩
  rcases List.mem_cons.1 hy with rfl | hy
  · exact hl x hx
  · exact h.2.2 x hx y hy

namespace Kept

variable {h : History τ}

/-- What has become ready has been scheduled. -/
theorem before_of_mem (hk : Kept h) {origin : Origin} (hm : origin ∈ h.origins) :
    origin.Before h.queued h.scheduler.nextSerial := by
  rcases List.mem_append.1 hm with hm | hm
  · obtain ⟨start, hs, rfl⟩ := List.mem_map.1 hm
    exact hk.before _ (hk.started start hs)
  · obtain ⟨x, hx, rfl⟩ := List.mem_map.1 hm
    exact hk.before x (hk.waiting x (List.mem_append_left _ hx))

/-- A new origin is none of those that there have been. -/
theorem distinct_snoc (hk : Kept h) {origin : Origin} (task : τ)
    (hn : ¬origin.Before h.queued h.scheduler.nextSerial) :
    ((h.scheduled ++ [(origin, task)]).map Prod.fst).Nodup := by
  rw [List.map_append, List.map_singleton, List.nodup_append]
  refine ⟨hk.distinct, List.nodup_singleton _, fun a ha b hb => ?_⟩
  obtain ⟨x, hx, rfl⟩ := List.mem_map.1 ha
  rw [List.mem_singleton.1 hb]
  rintro rfl
  exact hn (hk.before x hx)

theorem later (hk : Kept h) (task : τ) : Kept (h.later task) := by
  have horigins : (h.later task).origins = h.origins ++ [.queued h.queued] := by
    simp [History.origins, History.later]
  have hkeys : (h.later task).origins.filterMap Origin.key? =
      h.origins.filterMap Origin.key? := by
    simp [horigins, Origin.key?]
  refine { hk with
    line := ?_, numbers := ?_, timers := ?_, due := ?_, started := ?_, waiting := ?_, before := ?_
    distinct := hk.distinct_snoc task (Nat.lt_irrefl _) }
  · simp [History.later, hk.line, Scheduler.later]
  · rw [horigins, List.filterMap_append]
    refine List.pairwise_append.2 ⟨hk.numbers, List.pairwise_singleton _ _, fun n hn m hm => ?_⟩
    rw [List.mem_singleton.1 hm]
    exact hk.before_of_mem (mem_number?.1 hn)
  · rw [hkeys]
    exact hk.timers
  · rw [hkeys]
    exact hk.due
  · exact fun start hs => List.mem_append_left _ (hk.started start hs)
  · intro x hx
    have hx : x ∈ h.line ++ [(.queued h.queued, task)] ++ h.scheduler.timers.map traced := hx
    rw [List.append_assoc, List.mem_append, List.mem_append] at hx
    rcases hx with hx | hx | hx
    · exact List.mem_append_left _ (hk.waiting x (List.mem_append_left _ hx))
    · exact List.mem_append_right _ hx
    · exact List.mem_append_left _ (hk.waiting x (List.mem_append_right _ hx))
  · refine List.forall_mem_append.2 ⟨fun x hx => ?_, List.forall_mem_singleton.2 ?_⟩
    · exact (hk.before x hx).mono (Nat.le_succ _) le_rfl
    · exact Nat.lt_succ_self _

theorem le_of_mem_takeWhile {timers : List (Timer τ)} {due : Nat} {timer : Timer τ}
    (hm : timer ∈ timers.takeWhile (·.due ≤ due)) : timer.due ≤ due := by
  simpa using List.mem_takeWhile_imp hm

/-- Among sorted timers, those that a new one is put before are due later. -/
theorem lt_of_mem_dropWhile {timers : List (Timer τ)} (hs : (timers.map key).Pairwise Sooner)
    {due : Nat} {timer : Timer τ} (hm : timer ∈ timers.dropWhile (·.due ≤ due)) :
    due < timer.due := by
  induction timers with
  | nil => cases hm
  | cons first rest ih =>
    obtain ⟨hfirst, hrest⟩ := List.pairwise_cons.1 hs
    by_cases hd : first.due ≤ due
    · rw [List.dropWhile_cons_of_pos (by simpa using hd)] at hm
      exact ih hrest hm
    · rw [List.dropWhile_cons_of_neg (by simpa using hd)] at hm
      rcases List.mem_cons.1 hm with rfl | hm
      · exact Nat.lt_of_not_le hd
      · have hle := (hfirst _ (List.mem_map_of_mem hm)).le
        exact (Nat.lt_of_not_le hd).trans_le hle

/-- A new timer is put where it belongs. -/
theorem timers_after (hk : Kept h) (delay : Nat) (task : τ) :
    (h.origins.filterMap Origin.key? ++ (h.after delay task).scheduler.timers.map key).Pairwise
      Sooner := by
  have hsorted := (List.pairwise_append.1 hk.timers).2.1
  have hall := hk.timers
  rw [← List.takeWhile_append_dropWhile (l := h.scheduler.timers)
    (p := (·.due ≤ h.scheduler.clock + delay)), List.map_append, ← List.append_assoc] at hall
  show (_ ++ List.map key (_ ++ _ :: _)).Pairwise _
  rw [List.map_append, List.map_cons, ← List.append_assoc]
  refine pairwise_insert hall (fun x hx => ?_) fun x hx => ?_
  · rcases List.mem_append.1 hx with hx | hx
    · -- A timer that has become ready was due before now.
      have hdue := hk.due x hx
      have hserial : x.2 < h.scheduler.nextSerial := hk.before_of_mem (mem_key?.1 hx)
      simp only [Sooner, key]
      omega
    · obtain ⟨timer, hm, rfl⟩ := List.mem_map.1 hx
      have hin : timer ∈ h.scheduler.timers := (List.takeWhile_prefix _).subset hm
      have hserial : timer.serial < h.scheduler.nextSerial :=
        hk.before _ (hk.waiting _ (List.mem_append_right _ (List.mem_map_of_mem (f := traced) hin)))
      have hdue : timer.due ≤ h.scheduler.clock + delay :=
        le_of_mem_takeWhile hm
      simp only [Sooner, key]
      omega
  · obtain ⟨timer, hm, rfl⟩ := List.mem_map.1 hx
    exact .inl (lt_of_mem_dropWhile hsorted hm)

theorem after (hk : Kept h) (delay : Nat) (task : τ) : Kept (h.after delay task) := by
  refine { hk with
    timers := hk.timers_after delay task, started := ?_, waiting := ?_, before := ?_
    distinct := hk.distinct_snoc task (Nat.lt_irrefl _) }
  · exact fun start hs => List.mem_append_left _ (hk.started start hs)
  · intro x hx
    show x ∈ h.scheduled ++ [_]
    have hx : x ∈ h.line ++ List.map traced (h.scheduler.timers.takeWhile _ ++ _ ::
      h.scheduler.timers.dropWhile _) := hx
    have hold : ∀ timer ∈ h.scheduler.timers, traced timer ∈ h.scheduled := fun timer hm =>
      hk.waiting _ (List.mem_append_right _ (List.mem_map_of_mem hm))
    rw [List.map_append, List.map_cons, List.mem_append, List.mem_append, List.mem_cons] at hx
    rcases hx with hx | hx | rfl | hx
    · exact List.mem_append_left _ (hk.waiting x (List.mem_append_left _ hx))
    · obtain ⟨timer, hm, rfl⟩ := List.mem_map.1 hx
      exact List.mem_append_left _ (hold timer ((List.takeWhile_prefix _).subset hm))
    · exact List.mem_append_right _ (List.mem_singleton.2 rfl)
    · obtain ⟨timer, hm, rfl⟩ := List.mem_map.1 hx
      exact List.mem_append_left _ (hold timer ((List.dropWhile_suffix _).subset hm))
  · refine List.forall_mem_append.2 ⟨fun x hx => ?_, List.forall_mem_singleton.2 ?_⟩
    · exact (hk.before x hx).mono le_rfl (Nat.le_succ _)
    · exact Nat.lt_succ_self _

theorem pass (hk : Kept h) (elapsed : Nat) : Kept (h.pass elapsed) :=
  { hk with due := fun x hx => (hk.due x hx).trans (Nat.le_add_right _ _) }

theorem promote (hk : Kept h) : Kept h.promote := by
  have horigins : h.promote.origins.filterMap Origin.key? =
      h.origins.filterMap Origin.key? ++
        (h.scheduler.timers.takeWhile (·.due ≤ h.scheduler.clock)).map key := by
    simp [History.origins, History.promote, List.filterMap_map, Function.comp_def, traced,
      Origin.key?, key]
  have hnumbers : h.promote.origins.filterMap Origin.number? =
      h.origins.filterMap Origin.number? := by
    simp [History.origins, History.promote, List.filterMap_map, Function.comp_def, traced,
      Origin.number?]
  have hsplit : h.scheduler.timers.takeWhile (·.due ≤ h.scheduler.clock) ++
      h.scheduler.timers.dropWhile (·.due ≤ h.scheduler.clock) = h.scheduler.timers :=
    List.takeWhile_append_dropWhile
  refine { hk with line := ?_, numbers := ?_, timers := ?_, due := ?_, waiting := ?_ }
  · simp [History.promote, Scheduler.promote, hk.line, traced]
  · rw [hnumbers]
    exact hk.numbers
  · show (_ ++ List.map key (List.dropWhile _ _)).Pairwise _
    rw [horigins, List.append_assoc, ← List.map_append, hsplit]
    exact hk.timers
  · rw [horigins]
    refine List.forall_mem_append.2 ⟨hk.due, fun x hx => ?_⟩
    obtain ⟨timer, hm, rfl⟩ := List.mem_map.1 hx
    exact le_of_mem_takeWhile hm
  · have hall := hk.waiting
    rw [← hsplit, List.map_append, ← List.append_assoc] at hall
    exact hall

theorem start (hk : Kept h) {origin : Origin} {task : τ} {rest : List (Origin × τ)}
    (hd : h.scheduler.dispatching = false) (hl : h.line = (origin, task) :: rest) :
    Kept (h.start origin task rest) := by
  have horigins : (h.start origin task rest).origins = h.origins := by
    simp [History.origins, History.start, hl]
  have hdepth : h.scheduler.dispatchDepth = 0 := by simpa [dispatching] using hd
  have hhead : (origin, task) ∈ h.line := hl ▸ List.mem_cons_self
  refine { hk with
    line := ?_, numbers := horigins ▸ hk.numbers, timers := horigins ▸ hk.timers
    due := horigins ▸ hk.due, punctual := ?_, started := ?_, waiting := ?_, depth := ?_
    maxDepth := ?_ }
  · have hready := hk.line
    rw [hl] at hready
    show rest.map Prod.snd = h.scheduler.ready.tail
    rw [← hready]
    rfl
  · refine List.forall_mem_append.2 ⟨hk.punctual, List.forall_mem_singleton.2 ?_⟩
    rintro due serial rfl
    refine hk.due (due, serial) (mem_key?.2 (List.mem_append_right _ ?_))
    exact List.mem_map.2 ⟨_, hhead, rfl⟩
  · refine List.forall_mem_append.2 ⟨hk.started, List.forall_mem_singleton.2 ?_⟩
    exact hk.waiting _ (List.mem_append_left _ hhead)
  · intro x hx
    refine hk.waiting x ?_
    rw [hl]
    exact List.mem_cons_of_mem _ hx
  · show h.scheduler.dispatchDepth + 1 ≤ 1
    omega
  · have hmax := hk.maxDepth
    show max h.scheduler.stats.maxDispatchDepth (h.scheduler.dispatchDepth + 1) ≤ 1
    omega

theorem discard (hk : Kept h) : Kept h.discard := by
  have horigins : h.discard.origins.Sublist h.origins := by
    simp [History.origins, History.discard]
  refine { hk with
    line := rfl, numbers := hk.numbers.sublist (horigins.filterMap _), timers := ?_
    due := fun x hx => hk.due x ((horigins.filterMap _).subset hx)
    waiting := fun x hx => by cases hx }
  show (_ ++ []).Pairwise _
  rw [List.append_nil]
  exact (List.pairwise_append.1 hk.timers).1.sublist (horigins.filterMap _)

theorem step {h' : History τ} (hk : Kept h) (hs : Step h h') : Kept h' := by
  cases hs with
  | later task => exact hk.later task
  | after delay task => exact hk.after delay task
  | pass elapsed => exact hk.pass elapsed
  | promote => exact hk.promote
  | start hd hl => exact hk.start hd hl
  | finish => exact { hk with depth := (Nat.sub_le _ _).trans hk.depth }
  | discard => exact hk.discard
  | keep hs =>
    exact { hk with
      line := hk.line.trans hs.ready.symm
      timers := by
        show (_ ++ List.map key (Scheduler.timers _)).Pairwise _
        rw [hs.timers]
        exact hk.timers
      due := fun x hx => (hk.due x hx).trans hs.clock.ge
      waiting := by
        show ∀ x ∈ _ ++ List.map traced (Scheduler.timers _), _
        rw [hs.timers]
        exact hk.waiting
      before := fun x hx => (hk.before x hx).mono le_rfl hs.nextSerial.ge
      depth := hs.dispatchDepth.trans_le hk.depth
      maxDepth := hs.maxDispatchDepth.trans hk.maxDepth }

end Kept

theorem Possible.kept {h : History τ} (hp : Possible h) : Kept h := by
  induction hp with
  | refl => exact kept_empty
  | tail _ hs ih => exact ih.step hs

/-- **Whatever happens to a scheduler, turns are taken in order.** -/
theorem Possible.inOrder {h : History τ} (hp : Possible h) : InOrder h := hp.kept.inOrder

end Catena.Scheduler
