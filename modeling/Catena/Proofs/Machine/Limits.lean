import Mathlib
import Catena.Proofs.Machine.Evaluations

/-!
# Limits on turns

A limit on turns stops the taking of turns and changes nothing else. A drain says how many tasks it
ran, one a turn, and it stops before its limit only when nothing is left to do (`World.Drained`). So
a larger limit, or none, makes a difference only to an evaluation that was cut off, and an
evaluation that needs more turns than the limit is cut off there (`limit_transparent`). Either way
nothing is queued when it is over.
-/

namespace Catena

namespace World

/-! ## What taking turns runs -/

/-- Tasks are run one after the other, each in a turn of its own. Before every turn and once more at
the end, time goes by and the world settles. -/
inductive Executes : World → List Task → World → Prop
  | nothing (w : World) : Executes w [] w.tick
  | turn {w v : World} {task : Task} {rest tasks : List Task}
      (hr : w.tick.scheduler.ready = task :: rest)
      (h : Executes (w.tick.turn task rest) tasks v) : Executes w (task :: tasks) v

/-- What taking up to `fuel` turns comes to: either nothing is left to do, or as many tasks have run
as may run and another one is ready. -/
inductive Turned (w : World) (fuel taken : Nat) : World × Nat × Bool → Prop
  | idle {v : World} {tasks : List Task} (h : w.Executes tasks v) (hle : tasks.length ≤ fuel)
      (hr : v.scheduler.ready = []) (ht : v.scheduler.timers = []) :
      Turned w fuel taken (v, taken + tasks.length, true)
  | cut {v : World} {tasks rest : List Task} {task : Task} (h : w.Executes tasks v)
      (hlen : tasks.length = fuel) (hr : v.scheduler.ready = task :: rest) :
      Turned w fuel taken (v, taken + tasks.length, false)

variable {w : World} {n m taken : Nat}

theorem turned_takeTurns (fuel taken : Nat) (w : World) :
    w.Turned fuel taken (takeTurns fuel taken w) := by
  induction fuel generalizing taken w with
  | zero =>
    cases hr : w.tick.scheduler.ready with
    | nil =>
      rw [takeTurns_of_nil hr]
      exact .idle (.nothing w) (Nat.zero_le _) hr (timers_of_tick hr)
    | cons task rest =>
      rw [takeTurns_zero hr]
      exact .cut (.nothing w) rfl hr
  | succ fuel ih =>
    cases hr : w.tick.scheduler.ready with
    | nil =>
      rw [takeTurns_of_nil hr]
      exact .idle (.nothing w) (Nat.zero_le _) hr (timers_of_tick hr)
    | cons task rest =>
      rw [takeTurns_succ hr]
      have hrest := ih (taken + 1) (w.tick.turn task rest)
      generalize takeTurns fuel (taken + 1) (w.tick.turn task rest) = result at hrest
      -- One task more has run, and one turn of the fuel is spent.
      have count : ∀ tasks : List Task,
          taken + 1 + tasks.length = taken + (task :: tasks).length := by
        intro tasks
        rw [List.length_cons]
        omega
      cases hrest with
      | @idle v tasks h hle hready htimers =>
        rw [count]
        exact .idle (.turn hr h) (Nat.succ_le_succ hle) hready htimers
      | @cut v tasks _ _ h hlen hready =>
        rw [count]
        exact .cut (.turn hr h) (congrArg Nat.succ hlen) hready

/-- When nothing is left to do, more fuel makes no difference. -/
theorem takeTurns_of_idle (h : n ≤ m) (hidle : (takeTurns n taken w).2.2 = true) :
    takeTurns m taken w = takeTurns n taken w := by
  induction n generalizing m taken w with
  | zero =>
    cases hr : w.tick.scheduler.ready with
    | nil => rw [takeTurns_of_nil hr, takeTurns_of_nil hr]
    | cons task rest =>
      rw [takeTurns_zero hr] at hidle
      cases hidle
  | succ n ih =>
    cases hr : w.tick.scheduler.ready with
    | nil => rw [takeTurns_of_nil hr, takeTurns_of_nil hr]
    | cons task rest =>
      obtain ⟨m, rfl⟩ : ∃ k, m = k + 1 := ⟨m - 1, by omega⟩
      rw [takeTurns_succ hr] at hidle
      rw [takeTurns_succ hr, takeTurns_succ hr]
      exact ih (Nat.le_of_succ_le_succ h) hidle

/-- Where more turns are taken with more fuel, the fuel runs out. -/
theorem takeTurns_of_lt (h : n ≤ m) (hlt : taken + n < (takeTurns m taken w).2.1) :
    (takeTurns n taken w).2.2 = false := by
  by_contra hidle
  rw [Bool.not_eq_false] at hidle
  rw [takeTurns_of_idle h hidle] at hlt
  have hturned := turned_takeTurns n taken w
  generalize takeTurns n taken w = result at hturned hlt hidle
  cases hturned with
  | idle _ hle => exact absurd hlt (by dsimp only; omega)
  | cut => cases hidle

/-! ## Drains -/

/-- What a drain comes to that may take `bound` turns. -/
inductive Drained (w : World) (bound : Nat) : World × Except Error Nat → Prop
  | idle {v : World} {tasks : List Task} (h : (w.apply .startClock).Executes tasks v)
      (hle : tasks.length ≤ bound) (hr : v.scheduler.ready = []) (ht : v.scheduler.timers = []) :
      Drained w bound (v, .ok tasks.length)
  | cut {v : World} {tasks rest : List Task} {task : Task}
      (h : (w.apply .startClock).Executes tasks v) (hlen : tasks.length = bound)
      (hr : v.scheduler.ready = task :: rest) : Drained w bound (v, .error (.turnLimit bound))

/-- **A drain says what it did**: how many tasks it ran if nothing is left to do, and its limit if it
ran that many and there are more. -/
theorem drained_drain (hd : w.scheduler.dispatching = false) (limit : Option Nat) :
    w.Drained (limit.getD turnCeiling) (w.drain limit) := by
  have hturned := turned_takeTurns (limit.getD turnCeiling) 0 (w.apply .startClock)
  generalize hv : takeTurns (limit.getD turnCeiling) 0 (w.apply .startClock) = result at hturned
  cases hturned with
  | idle h hle hr ht =>
    rw [Nat.zero_add] at hv
    rw [drain_of_takeTurns hd hv]
    exact .idle h hle hr ht
  | cut h hlen hr =>
    rw [drain_of_takeTurns hd hv]
    exact .cut h hlen hr

/-- The only failure of a drain is that it is cut off. -/
theorem eq_turnLimit_of_drain {limit : Option Nat} {v : World} {e : Error}
    (h : w.drain limit = (v, .error e)) : e = .turnLimit (limit.getD turnCeiling) := by
  unfold drain at h
  cases hd : w.scheduler.dispatching with
  | true =>
    simp only [hd, if_true] at h
    cases (Prod.mk.inj h).2
  | false =>
    simp only [hd, Bool.false_eq_true, if_false] at h
    split at h
    · cases (Prod.mk.inj h).2
    · exact (Except.error.inj (Prod.mk.inj h).2).symm

/-- Inside of a turn a drain does nothing. -/
theorem drain_of_dispatching (hd : w.scheduler.dispatching = true) (limit : Option Nat) :
    w.drain limit = (w, .ok 0) := by
  simp only [drain, hd, if_true]

/-- A drain that is not cut off does the same under every larger limit. -/
theorem drain_of_le {limit : Option Nat} (h : n ≤ limit.getD turnCeiling) {v : World}
    (hv : w.drain (some n) = (v, .ok taken)) : w.drain limit = (v, .ok taken) := by
  cases hd : w.scheduler.dispatching with
  | true =>
    rw [drain_of_dispatching hd] at hv ⊢
    exact hv
  | false =>
    generalize hu : takeTurns n 0 (w.apply .startClock) = result
    obtain ⟨u, t, idle⟩ := result
    have hshort : w.drain (some n) = _ := drain_of_takeTurns hd hu
    rw [hshort] at hv
    cases idle with
    | false => cases (Prod.mk.inj hv).2
    | true =>
      have hlong : takeTurns (limit.getD turnCeiling) 0 (w.apply .startClock) = (u, t, true) :=
        (takeTurns_of_idle h (by rw [hu])).trans hu
      rw [drain_of_takeTurns hd hlong]
      exact hv

/-- The number of turns that a drain takes: what it says, or its limit if it is cut off. -/
def turnsOf (bound : Nat) : World × Except Error Nat → Nat
  | (_, .ok taken) => taken
  | (_, .error _) => bound

theorem turnsOf_drain (hd : w.scheduler.dispatching = false) (limit : Option Nat) :
    turnsOf (limit.getD turnCeiling) (w.drain limit) =
      (takeTurns (limit.getD turnCeiling) 0 (w.apply .startClock)).2.1 := by
  have hturned := turned_takeTurns (limit.getD turnCeiling) 0 (w.apply .startClock)
  generalize hv : takeTurns (limit.getD turnCeiling) 0 (w.apply .startClock) = result at hturned
  cases hturned with
  | idle =>
    rw [drain_of_takeTurns hd hv]
    rfl
  | cut _ hlen =>
    rw [drain_of_takeTurns hd hv, hlen, Nat.zero_add]
    rfl

/-- A drain that takes more turns than a limit is cut off under that limit. -/
theorem drain_of_lt {limit : Option Nat} (h : n ≤ limit.getD turnCeiling)
    (hlt : n < turnsOf (limit.getD turnCeiling) (w.drain limit)) :
    ∃ v, w.drain (some n) = (v, .error (.turnLimit n)) := by
  cases hd : w.scheduler.dispatching with
  | true =>
    rw [drain_of_dispatching hd] at hlt
    exact absurd hlt (Nat.not_lt_zero _)
  | false =>
    rw [turnsOf_drain hd] at hlt
    have hcut := takeTurns_of_lt h (by rwa [Nat.zero_add])
    generalize hu : takeTurns n 0 (w.apply .startClock) = result at hcut
    obtain ⟨u, t, idle⟩ := result
    cases hcut
    have hshort : w.drain (some n) = _ := drain_of_takeTurns hd hu
    exact ⟨u, hshort⟩

end World

/-! ## Evaluations -/

namespace Interpreter

/-- The same interpreter under another limit. -/
def limited (i : Interpreter) (limit : Option Nat) : Interpreter :=
  { i with settings := { i.settings with maxTurns := limit } }

/-- The world once the program of an evaluation has run until it first waits, or to its end. -/
def launched (i : Interpreter) (program : Program) (stack : Stack) (w : World) : World :=
  (w.launch i.settings.strictWords program).runThen i.env (w.load program).2 stack
    (.deliver (.slot w.slots.size))

/-- What the drain of an evaluation comes to. -/
def drains (i : Interpreter) (program : Program) (stack : Stack) (w : World) :
    World × Except Error Nat :=
  (i.launched program stack w).drain i.settings.maxTurns

/-- The number of turns that an evaluation takes. -/
def turns (i : Interpreter) (program : Program) (stack : Stack) (w : World) : Nat :=
  World.turnsOf i.bound (i.drains program stack w)

variable {i : Interpreter} {program : Program} {stack : Stack} {w : World} {n : Nat}

/-- The outcome of an evaluation whose drain was cut off is what the drain says. -/
theorem evaluate_of_drains_error {v : World} {e : Error}
    (h : i.drains program stack w = (v, .error e)) :
    i.evaluate program stack w =
      ((v.apply (.abandon (w.scheduler.epoch + 1))).apply .discard, .error e) := by
  unfold drains launched at h
  rw [i.evaluate_eq, h]

/-- Evaluations whose drains come to the same come to the same. -/
theorem evaluate_congr {j : Interpreter} (h : j.drains program stack w = i.drains program stack w) :
    j.evaluate program stack w = i.evaluate program stack w := by
  rw [j.evaluate_eq, i.evaluate_eq]
  unfold drains launched at h
  rw [h]

/-- The drain of an evaluation that is not cut off comes to an end. -/
theorem exists_drains_of_ne (h : ∀ k, (i.evaluate program stack w).2 ≠ .error (.turnLimit k)) :
    ∃ v taken, i.drains program stack w = (v, .ok taken) := by
  generalize hu : i.drains program stack w = result
  obtain ⟨v, answer⟩ := result
  cases answer with
  | ok taken => exact ⟨v, taken, rfl⟩
  | error e =>
    have he : e = .turnLimit i.bound := World.eq_turnLimit_of_drain hu
    rw [evaluate_of_drains_error hu, he] at h
    exact absurd rfl (h _)

/-- Nothing is queued after an evaluation from outside of a turn. -/
theorem pending_evaluate (i : Interpreter) (program : Program) (stack : Stack)
    (hd : w.scheduler.dispatching = false) :
    (i.evaluate program stack w).1.scheduler.pending = 0 := by
  -- The launch is not a turn.
  have hrest : (i.launched program stack w).scheduler.dispatching = false :=
    (leads_begin i program [] stack w).2.dispatching.trans hd
  have hdrained := World.drained_drain hrest i.settings.maxTurns
  change World.Drained _ _ (i.drains program stack w) at hdrained
  generalize hu : i.drains program stack w = result at hdrained
  cases hdrained with
  | cut =>
    rw [evaluate_of_drains_error hu]
    rfl
  | @idle v tasks _ _ hr ht =>
    unfold drains launched at hu
    rw [i.evaluate_eq, hu]
    dsimp only
    have hnone : v.scheduler.pending = 0 := by rw [Scheduler.pending, hr, ht]; rfl
    cases v.outcome? w.slots.size with
    | some outcome => exact hnone
    | none => exact hnone

end Interpreter

/-- What a limit of `n` turns does to an evaluation that could take more, up to a larger limit or
none: it is either cut off or the same, in its outcome, its turns and everything in its world, and it
is cut off if it takes more turns than that. -/
structure Transparent (i : Interpreter) (n : Nat) (limit : Option Nat) (program : Program)
    (stack : Stack) (w : World) : Prop where
  same : (∀ k, ((i.limited (some n)).evaluate program stack w).2 ≠ .error (.turnLimit k)) →
    (i.limited limit).evaluate program stack w = (i.limited (some n)).evaluate program stack w ∧
      (i.limited limit).turns program stack w = (i.limited (some n)).turns program stack w
  cut : n < (i.limited limit).turns program stack w →
    ((i.limited (some n)).evaluate program stack w).2 = .error (.turnLimit n)

/-- **Limits are transparent, and nothing is left behind.** A drain from outside of a turn runs as
many tasks as it says, and it stops only when nothing is left to do or when its limit is reached and
more is ready. A limit makes no difference to an evaluation that it does not cut off, and an
evaluation from outside of a turn leaves nothing queued. -/
theorem limit_transparent (w : World) :
    (w.scheduler.dispatching = false →
      ∀ limit, w.Drained (limit.getD World.turnCeiling) (w.drain limit)) ∧
      ∀ (i : Interpreter) (stack : Stack),
        (∀ (program : Program) (n : Nat) (limit : Option Nat), n ≤ limit.getD World.turnCeiling →
          Transparent i n limit program stack w) ∧
        ∀ (source : String) (program : Program), Program.read source = .ok program →
          w.scheduler.dispatching = false → (i.eval source stack w).1.scheduler.pending = 0 := by
  refine ⟨World.drained_drain, fun i stack => ⟨fun program n limit h => ⟨fun hn => ?_, ?_⟩, ?_⟩⟩
  · obtain ⟨v, taken, hok⟩ := Interpreter.exists_drains_of_ne hn
    have hmore : (i.limited limit).drains program stack w = (v, .ok taken) :=
      World.drain_of_le h hok
    refine ⟨Interpreter.evaluate_congr (hmore.trans hok.symm), ?_⟩
    rw [Interpreter.turns, Interpreter.turns, hmore, hok]
    rfl
  · intro hlt
    obtain ⟨v, hv⟩ := World.drain_of_lt h hlt
    have hv : (i.limited (some n)).drains program stack w = (v, .error (.turnLimit n)) := hv
    rw [Interpreter.evaluate_of_drains_error hv]
  · intro source program hread hd
    unfold Interpreter.eval
    rw [hread]
    exact i.pending_evaluate program stack hd

/-- A program that yields twice takes three turns: two are not enough, and three are as good as any
number. -/
theorem limit_transparent_yields :
    ∃ (w : World) (i : Interpreter), w.scheduler.dispatching = false ∧
      Program.read "yield yield" = .ok [.word "yield", .word "yield"] ∧
      (i.limited (some 3)).turns [.word "yield", .word "yield"] .empty w = 3 ∧
      ((i.limited (some 2)).evaluate [.word "yield", .word "yield"] .empty w).2 =
        .error (.turnLimit 2) ∧
      (i.limited none).evaluate [.word "yield", .word "yield"] .empty w =
        (i.limited (some 3)).evaluate [.word "yield", .word "yield"] .empty w ∧
      ((i.limited (some 2)).eval "yield yield" .empty w).1.scheduler.pending = 0 := by
  have hd : World.fresh.scheduler.dispatching = false := by decide +kernel
  have hread : Program.read "yield yield" = .ok [.word "yield", .word "yield"] := by cbv
  obtain ⟨-, heval⟩ := limit_transparent World.fresh
  obtain ⟨hlimits, -⟩ := heval ⟨⟨0⟩, {}⟩ .empty
  have hturns : ((Interpreter.mk ⟨0⟩ {}).limited (some 3)).turns [.word "yield", .word "yield"]
      .empty World.fresh = 3 := by cbv
  refine ⟨_, _, hd, hread, hturns, ?_, ?_, ?_⟩
  · exact (hlimits _ 2 (some 3) (by decide)).cut (by rw [hturns]; decide)
  · refine ((hlimits _ 3 none (by decide)).same fun k => ?_).1
    have hok : (((Interpreter.mk ⟨0⟩ {}).limited (some 3)).evaluate
        [.word "yield", .word "yield"] .empty World.fresh).2 = .ok .empty := by cbv
    rw [hok]
    exact fun h => by cases h
  · exact (heval _ _).2 _ _ hread hd

end Catena
