import Catena.World.Scheduler

/-!
# The report at exit

The counters of a run, for people or for programs, written to standard error or to a file.
-/

namespace Catena.Report

/-- For whom a report is written. -/
inductive Format where
  | human
  | json
  deriving DecidableEq

/-- A report that was asked for; without a file it goes to standard error. -/
structure Request where
  format : Format
  file : Option String
  deriving DecidableEq

/-- The report that a request asks for, if it asks for one. -/
def Request.parse? (text : String) : Option Request :=
  if text = "1" then some ⟨.human, none⟩
  else if text = "json" then some ⟨.json, none⟩
  else match text.toList with
    | 'j' :: 's' :: 'o' :: 'n' :: ':' :: path => some ⟨.json, some (String.ofList path)⟩
    | _ => none

/-- A report for people. -/
def human (wallClockMs : Nat) (s : Stats) : String :=
  "=== SLANG REPORT ===\n"
    ++ "Wall clock:      " ++ toString wallClockMs ++ " ms\n"
    ++ "Turns executed:  " ++ toString s.tasksExecuted ++ "\n"
    ++ "Tasks scheduled: " ++ toString s.tasksScheduled ++ "\n"
    ++ "Timers fired:    " ++ toString s.timersFired ++ "\n"
    ++ "Dispatch depth:  " ++ toString s.maxDispatchDepth ++ "\n"
    ++ "Procs spawned:   " ++ toString s.processesSpawned ++ "\n"
    ++ "Procs done:      " ++ toString s.processesCompleted ++ "\n"
    ++ "Peak procs:      " ++ toString s.peakProcesses ++ "\n"
    ++ "Messages posted: " ++ toString s.messagesPosted ++ "\n"
    ++ "Messages recv:   " ++ toString s.messagesReceived ++ "\n"
    ++ "====================\n"

/-- A report for programs: one object, its keys in order. -/
def json (wallClockMs : Nat) (s : Stats) : String :=
  let pairs : List (String × Nat) :=
    [("max_dispatch_depth", s.maxDispatchDepth), ("messages_posted", s.messagesPosted),
      ("messages_received", s.messagesReceived), ("peak_processes", s.peakProcesses),
      ("processes_completed", s.processesCompleted), ("processes_spawned", s.processesSpawned),
      ("tasks_scheduled", s.tasksScheduled), ("timers_fired", s.timersFired),
      ("turns_executed", s.tasksExecuted), ("wall_clock_ms", wallClockMs)]
  let members := pairs.map fun (key, n) => "\"" ++ key ++ "\":" ++ toString n
  "\x7b" ++ ",".intercalate members ++ "\x7d"

/-- The text of a report. -/
def Request.render (r : Request) (wallClockMs : Nat) (s : Stats) : String :=
  match r.format with
  | .human => human wallClockMs s
  | .json => json wallClockMs s

end Catena.Report
