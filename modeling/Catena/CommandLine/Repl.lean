import Catena.Session.Basic
import Catena.Text.Erasure
import Catena.World.Display

/-!
# The interactive session

Each line is a command of the session or a program, which is evaluated on the carried stack. After a
program the stack is shown; a program that fails leaves it as it was.
-/

namespace Catena.CommandLine

/-- What is written to standard output and to standard error, after waiting for some
nanoseconds. -/
structure Output where
  out : String := ""
  err : String := ""
  waited : Nat := 0

namespace Output

/-- One output after another. -/
def append (a b : Output) : Output := ⟨a.out ++ b.out, a.err ++ b.err, a.waited + b.waited⟩

instance : Append Output := ⟨append⟩

/-- A line of standard output. -/
def outLine (line : String) : Output := { out := line ++ "\n" }

/-- A line of standard error. -/
def errLine (line : String) : Output := { err := line ++ "\n" }

/-- What an evaluation printed and reported. -/
def ofEvaluation (e : Evaluation) : Output :=
  { out := String.join (e.printed.map (· ++ "\n"))
    err := String.join (e.reports.map fun report => "warning: " ++ report ++ "\n")
    waited := e.waited }

end Output

namespace Repl

/-- The first line of a session. -/
def banner : String := "Slang REPL. Type :help for commands, :quit to exit."

/-- What the session says about its commands. -/
def help : String :=
  "\nSlang REPL Commands:\n"
    ++ "  :stack, :s    Show the data stack\n"
    ++ "  :clear        Empty the data stack\n"
    ++ "  :help, :h     Show this help\n"
    ++ "  :quit, :q     Exit\n"
    ++ "\n"
    ++ "Anything else is evaluated on top of the current stack.\n"
    ++ "Definitions (`:name def`, `:name defun`) persist for the session.\n"

/-- The carried stack in one line. -/
def showStack (s : Session) : Output :=
  .outLine (if s.carried.isEmpty then "(empty)" else s.world.displayAll s.carried)

/-- Evaluates a line and shows the stack, or what went wrong. -/
def evalLine (s : Session) (code : String) : Session × Output :=
  let (s, e) := s.line code
  let shown := match e.outcome with
    | .ok _ => showStack s
    | .error failure => .errLine ("error: " ++ failure.message)
  (s, .ofEvaluation e ++ shown)

/-- Deals with one line, as it stands after what was taken back in it. The session ends with the
line for which this is `none`. -/
def step (s : Session) (line : String) : Option (Session × Output) :=
  match Text.trim (Text.typed line) with
  | "" => some (s, {})
  | ":quit" | ":q" => none
  | ":stack" | ":s" => some (s, showStack s)
  | ":clear" => some (s.clear, .outLine "Stack cleared.")
  | ":help" | ":h" => some (s, .outLine help)
  | code => some (evalLine s code)

/-- What asks for a line on a terminal of the given kind. Only a terminal that cannot edit lines is
asked; anything else is left to read on. -/
def promptOn (terminal : Option String) : String :=
  match terminal with
  | some kind => if ["dumb", "cons25", "emacs"].contains kind.toLower then "slang> " else ""
  | none => ""

/-- Deals with lines until the session or the lines end. Each of them is asked for, the end of the
lines too. -/
def run (prompt : String) (s : Session) : List String → Session × Output
  | [] => (s, { out := prompt })
  | line :: rest =>
    match step s line with
    | none => (s, { out := prompt })
    | some (s, output) =>
      let (s, more) := run prompt s rest
      (s, { out := prompt } ++ output ++ more)

end Repl

end Catena.CommandLine
