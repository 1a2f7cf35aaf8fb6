import Catena.Machine.Turn
import Catena.Settings.Basic

/-!
# Evaluations

An interpreter is an environment with all built-in words and the settings that its evaluations run
under. `Interpreter.evaluate` runs a program and takes turns until nothing is left to do, including
what the program's processes still do. Each evaluation has an epoch of its own; it is given up when
the evaluation does not come to an end by itself.
-/

namespace Catena

/-- The names of the built-in words, in the order of their code points. -/
def builtinNames : List Name :=
  (PureWord.all.map PureWord.name ++ StateWord.all.map StateWord.name
    ++ ControlWord.all.map ControlWord.name).mergeSort fun a b => decide (a ≤ b)

namespace World

/-- Binds every built-in word in an environment. -/
def installBuiltins (w : World) (env : EnvId) : World :=
  let w := PureWord.all.foldl (fun w word => w.defineWord env word.name (.pure word)) w
  let w := StateWord.all.foldl (fun w word => w.defineWord env word.name (.state word)) w
  ControlWord.all.foldl (fun w word => w.defineWord env word.name (.control word)) w

/-- A new environment with every built-in word. -/
def newBuiltinRoot (w : World) : World × EnvId :=
  let (w, env) := w.newRoot
  (w.installBuiltins env, env)

end World

/-- Where programs run, and how. -/
structure Interpreter where
  env : EnvId
  settings : Settings

namespace Interpreter

/-- A new interpreter, which knows the built-in words only. -/
def new (settings : Settings) (w : World) : World × Interpreter :=
  let (w, env) := w.newBuiltinRoot
  (w, ⟨env, settings⟩)

/-- Evaluates a program on a stack. It fails as the program does, or because it waits for something
that nothing will bring about, or because it takes more turns than it may; in the last two cases
what it left waiting is given up, and in the last one all tasks are dropped. -/
def evaluate (i : Interpreter) (program : Program) (stack : Stack) (w : World) : World × Outcome :=
  let (w, code) := w.load program
  let w := { w with strict := i.settings.strictWords }.mapScheduler Scheduler.beginEpoch
  let epoch := w.scheduler.epoch
  let (w, slot) := w.newSlot
  let w := w.runThen i.env code stack (.deliver (.slot slot))
  match w.drain i.settings.maxTurns with
  | (w, .error e) =>
    (w.mapScheduler fun scheduler => (scheduler.abandon epoch).discard, .error e)
  | (w, .ok _) =>
    match w.outcome? slot with
    | some outcome => (w, outcome)
    | none => (w.mapScheduler (·.abandon epoch), .error .stalled)

/-- Reads and evaluates a source text. A text that is no program changes nothing. -/
def eval (i : Interpreter) (source : String) (stack : Stack) (w : World) : World × Outcome :=
  match Program.read source with
  | .ok program => i.evaluate program stack w
  | .error e => (w, .error e)

end Interpreter

end Catena
