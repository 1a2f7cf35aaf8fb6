import Catena.Session.Interpreter

/-!
# Sessions

A sequence of evaluations by one interpreter, with a stack that is carried from line to line. A
line that fails leaves the carried stack as it was.
-/

namespace Catena

/-- An interpreter in its world, and the values carried from line to line, bottom to top. -/
structure Session where
  world : World
  interpreter : Interpreter
  carried : List Value := []

/-- What an evaluation came to: its outcome, what was reported and printed meanwhile, how many turns
it took and for how many nanoseconds it had nothing to do but wait. -/
structure Evaluation where
  outcome : Outcome
  reports : List String
  printed : List String
  turns : Nat
  waited : Nat

namespace Session

/-- A session from nothing. -/
def new (settings : Settings) : Session :=
  let (world, interpreter) := Interpreter.new settings {}
  { world, interpreter }

/-- Puts a new interpreter in place of the old one; the rest of the world goes on. -/
def renew (s : Session) (settings : Settings) : Session :=
  let (world, interpreter) := Interpreter.new settings s.world
  { s with world, interpreter }

/-- Evaluates a source text on a stack. -/
def evalOn (s : Session) (source : String) (stack : Stack) : Session × Evaluation :=
  let (w, outcome) := s.interpreter.eval source stack s.world
  let turns := w.stats.tasksExecuted - s.world.stats.tasksExecuted
  let waited := w.scheduler.clock - s.world.scheduler.clock
  let (w, reports) := w.takeReports
  let (w, printed) := w.takePrinted
  ({ s with world := w }, { outcome, reports, printed, turns, waited })

/-- Evaluates a source text on an empty stack. -/
def eval (s : Session) (source : String) : Session × Evaluation := s.evalOn source .empty

/-- Evaluates a line on the carried stack, which its result replaces. -/
def line (s : Session) (source : String) : Session × Evaluation :=
  let (s, e) := s.evalOn source (.ofValues s.carried)
  match e.outcome with
  | .ok stack => ({ s with carried := stack.values }, e)
  | .error _ => (s, e)

/-- Empties the carried stack. -/
def clear (s : Session) : Session := { s with carried := [] }

/-- What a name means at top level. -/
def lookup (s : Session) (name : Name) : Option Value := s.world.lookup s.interpreter.env name

/-- Binds a name at top level to the first value that a source text writes. -/
def define (s : Session) (name : Name) (source : String) : Session :=
  let (w, v) := s.world.readValue source
  { s with world := w.define s.interpreter.env name v }

/-- Adds a word at top level. -/
def defineWord (s : Session) (name : Name) (behaviour : Behaviour) : Session :=
  { s with world := s.world.defineWord s.interpreter.env name behaviour }

/-- The number of scopes at top level. -/
def depth (s : Session) : Nat := s.world.forest.depth s.interpreter.env

/-- The names defined in the innermost scope that are no names of built-in words. -/
def definedNames (s : Session) : List Name :=
  (s.world.forest.innermost s.interpreter.env).names.filter (!builtinNames.contains ·)

end Session

end Catena
